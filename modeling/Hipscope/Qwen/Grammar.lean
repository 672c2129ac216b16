import Hipscope.Text.Chars
import Hipscope.Text.Search

/-! The grammar matcher that masks tokens while a JSON tool call is written. -/
namespace Hipscope.Qwen
open Text

def openMarker : List Char := ['<', 't', 'o', 'o', 'l', '_', 'c', 'a', 'l', 'l', '>']
def closeMarker : List Char := ['<', '/', 't', 'o', 'o', 'l', '_', 'c', 'a', 'l', 'l', '>']

inductive State where
  | out
  | afterOpen
  | inArgs
  deriving DecidableEq, Repr

structure ToolSchema where
  name : List Char
  required : List (List Char)
  deriving DecidableEq, Repr

/-- `\n{"name": "` -/
def headerOpen : List Char := ['\n', '{', '"', 'n', 'a', 'm', 'e', '"', ':', ' ', '"']

/-- `", "arguments": ` -/
def headerClose : List Char := ['"', ',', ' ', '"', 'a', 'r', 'g', 'u', 'm', 'e', 'n', 't', 's', '"', ':', ' ']

def ToolSchema.header (schema : ToolSchema) : List Char := headerOpen ++ schema.name ++ headerClose

def ngramWindow : ℕ := 256

def ngramLenMax : ℕ := 32

/-- The two settings of the loop guard, as far as they are set to a number. -/
structure NgramVars where
  minRepeats : Option ℕ
  lenMin : Option ℕ

def NgramVars.ngramMinRepeats (vars : NgramVars) : ℕ := (vars.minRepeats.filter fun n => 2 ≤ n ∧ n ≤ 32).getD 6

def NgramVars.ngramLenMin (vars : NgramVars) : ℕ := (vars.lenMin.filter fun n => 1 ≤ n ∧ n ≤ ngramLenMax).getD 3

/-- `attractorBuf` holds the bytes of the buffer, all of them ASCII. -/
structure Matcher where
  state : State
  partialBuf : List Char
  tools : List ToolSchema
  ngramHistory : List Char
  attractorBuf : List UInt8
  attractorDetected : Bool
  currentTool : Option ℕ
  argsBraceDepth : Int32
  argsInString : Bool
  argsStringEscape : Bool
  deriving DecidableEq, Repr

def isUniformByte (chunk : List UInt8) : Bool := chunk.all fun b => chunk.head? = some b

/-- The last bytes repeat a block of `ngramLen` bytes, not all the same. -/
def repeatsBlock (minRepeats ngramLen : ℕ) (bytes : List UInt8) : Bool :=
  let needed := ngramLen * minRepeats
  let tail := bytes.drop (bytes.length - needed)
  let first := tail.take ngramLen
  needed ≤ bytes.length && !isUniformByte first &&
    (List.range' 1 (minRepeats - 1)).all fun r => (tail.drop (r * ngramLen)).take ngramLen = first

def detectNgramLoop (vars : NgramVars) (bytes : List UInt8) : Bool :=
  (List.range' vars.ngramLenMin (ngramLenMax + 1 - vars.ngramLenMin)).any fun ngramLen =>
    repeatsBlock vars.ngramMinRepeats ngramLen bytes

namespace Matcher

def new (tools : List ToolSchema) : Matcher := ⟨.out, [], tools, [], [], false, none, 0, false, false⟩

/-- A required name counts as seen when it stands in quotes in the history. -/
def requiredFieldsSatisfied (m : Matcher) : Bool :=
  match m.currentTool.bind fun i => m.tools[i]? with
  | none => true
  | some schema => schema.required.all fun name => (memmem m.ngramHistory ('"' :: name ++ ['"'])).isSome

def updateNgramHistory (m : Matcher) (text : List Char) : Matcher :=
  { m with ngramHistory := lastBytes ngramWindow (m.ngramHistory ++ text) }

def pushAttractorByte (vars : NgramVars) (m : Matcher) (byte : UInt8) : Matcher :=
  if m.attractorDetected then m
  else if 0x80 ≤ byte then m
  else
    let buf := m.attractorBuf ++ [byte]
    let buf := buf.drop (buf.length - ngramWindow)
    { m with attractorBuf := buf, attractorDetected := detectNgramLoop vars buf }

/-- One byte of the arguments. -/
def argsByte (vars : NgramVars) (m : Matcher) (byte : UInt8) : Matcher :=
  if m.argsStringEscape then { m with argsStringEscape := false }
  else if m.argsInString then
    if byte = 0x5c then { m with argsStringEscape := true }
    else if byte = 0x22 then { m with argsInString := false }
    else m
  else
    let m := m.pushAttractorByte vars byte
    if byte = 0x22 then { m with argsInString := true }
    else if byte = 0x7b then { m with argsBraceDepth := m.argsBraceDepth + 1 }
    else if byte = 0x7d then { m with argsBraceDepth := m.argsBraceDepth - 1 }
    else m

def updateArgsBraceState (vars : NgramVars) (m : Matcher) (text : List Char) : Matcher :=
  (utf8Bytes text).foldl (argsByte vars) m

/-- Does a byte of the text close the arguments? -/
def closesArgs : Int32 → Bool → Bool → Bool → List UInt8 → Bool
  | _, _, _, _, [] => false
  | depth, inString, escape, enteredBody, byte :: bytes =>
    if escape then closesArgs depth inString false enteredBody bytes
    else if inString then
      if byte = 0x5c then closesArgs depth true true enteredBody bytes
      else if byte = 0x22 then closesArgs depth false false enteredBody bytes
      else closesArgs depth true false enteredBody bytes
    else if byte = 0x22 then closesArgs depth true false enteredBody bytes
    else if byte = 0x7b then closesArgs (depth + 1) false false (enteredBody || 1 ≤ depth + 1) bytes
    else if byte = 0x7d then
      (enteredBody && depth - 1 ≤ 0) || closesArgs (depth - 1) false false enteredBody bytes
    else closesArgs depth false false enteredBody bytes

def wouldCloseArgsBody (m : Matcher) (text : List Char) : Bool :=
  closesArgs m.argsBraceDepth m.argsInString m.argsStringEscape (1 ≤ m.argsBraceDepth) (utf8Bytes text)

/-- Where a marker, or a beginning of it that ends the text, stands outside strings, the
enclosing object is closed. -/
def closedBefore : Int32 → Bool → Bool → List UInt8 → Bool
  | _, _, _, [] => true
  | depth, inString, escape, byte :: bytes =>
    if !inString && ((utf8Bytes closeMarker).isPrefixOf (byte :: bytes) || (byte :: bytes).isPrefixOf (utf8Bytes closeMarker))
    then depth < 0
    else if escape then closedBefore depth inString false bytes
    else if inString then
      if byte = 0x5c then closedBefore depth true true bytes
      else if byte = 0x22 then closedBefore depth false false bytes
      else closedBefore depth true false bytes
    else if byte = 0x22 then closedBefore depth true false bytes
    else if byte = 0x7b then closedBefore (depth + 1) false false bytes
    else if byte = 0x7d then closedBefore (depth - 1) false false bytes
    else closedBefore depth false false bytes

def outerClosedBeforeMarker (m : Matcher) (text : List Char) : Bool :=
  closedBefore m.argsBraceDepth m.argsInString m.argsStringEscape (utf8Bytes text)

/-- The text ends with a beginning of the marker. -/
def endsWithBeginning (s marker : List Char) : Bool :=
  (List.range' 1 marker.length).any fun n => (marker.take n).isSuffixOf s

def hasClosePrefix (s : List Char) : Bool := endsWithBeginning s closeMarker

def tailMatchesMarker (s marker : List Char) : Bool := (memmem s marker).isSome || endsWithBeginning s marker

def touchesCloseMarker (s : List Char) : Bool := (memmem s closeMarker).isSome || endsWithBeginning s closeMarker

def isFree (m : Matcher) : Bool :=
  match m.state with
  | .out => true
  | .afterOpen => false
  | .inArgs =>
    if m.attractorDetected then false
    else if !m.requiredFieldsSatisfied then false
    else if 0 ≤ m.argsBraceDepth then false
    else !hasClosePrefix m.partialBuf

def allowedContinuations (m : Matcher) : List (List Char) :=
  match m.state with
  | .out => [openMarker]
  | .afterOpen => m.tools.map ToolSchema.header
  | .inArgs => [closeMarker]

def checkAgainstConts (s : List Char) (conts : List (List Char)) : Bool :=
  conts.any fun cont => s.isPrefixOf cont || cont.isPrefixOf s

def isTokenAllowed (m : Matcher) (text : List Char) : Bool :=
  if text = [] then true
  else if m.isFree then true
  else
    let combined := m.partialBuf ++ text
    match m.state with
    | .out => tailMatchesMarker combined openMarker
    | .afterOpen => checkAgainstConts combined m.allowedContinuations
    | .inArgs =>
      if !m.requiredFieldsSatisfied then
        if touchesCloseMarker combined then false else !m.wouldCloseArgsBody text
      else if !m.attractorDetected && 0 ≤ m.argsBraceDepth then
        if touchesCloseMarker combined then m.outerClosedBeforeMarker text else true
      else tailMatchesMarker combined closeMarker

/-- Text of the arguments, seen by the history and by the scanner. -/
def feed (vars : NgramVars) (m : Matcher) (text : List Char) : Matcher :=
  (m.updateNgramHistory text).updateArgsBraceState vars text

inductive Transition where
  | stay
  | advanced
  deriving DecidableEq, Repr

/-- Of a text without the marker, what can still begin it. -/
def keepTail (marker buf : List Char) : List Char := lastBytes (String.utf8Len marker - 1) buf

def transitionOnce (vars : NgramVars) (m : Matcher) : Transition × Matcher :=
  match m.state with
  | .out =>
    match memmem m.partialBuf openMarker with
    | some idx => (.advanced, { m with state := .afterOpen, partialBuf := m.partialBuf.drop (idx + openMarker.length) })
    | none => (.stay, { m with partialBuf := keepTail openMarker m.partialBuf })
  | .afterOpen =>
    match m.tools.zipIdx.find? fun schema => schema.1.header.isPrefixOf m.partialBuf with
    | some (schema, idx) =>
      let rest := m.partialBuf.drop schema.header.length
      let m := { m with
        state := .inArgs, partialBuf := rest, currentTool := some idx, argsBraceDepth := 0, argsInString := false,
        argsStringEscape := false }
      (.advanced, if rest = [] then m else m.feed vars rest)
    | none => (.stay, m)
  | .inArgs =>
    match memmem m.partialBuf closeMarker with
    | some idx =>
      (.advanced, { m with
        state := .out, partialBuf := m.partialBuf.drop (idx + closeMarker.length), ngramHistory := [],
        attractorBuf := [], attractorDetected := false, currentTool := none, argsBraceDepth := 0,
        argsInString := false, argsStringEscape := false })
    | none => (.stay, { m with partialBuf := keepTail closeMarker m.partialBuf })

/-- Transitions until one stays. -/
def settle (vars : NgramVars) : ℕ → Matcher → Matcher
  | 0, m => m
  | rounds + 1, m =>
    match m.transitionOnce vars with
    | (.advanced, m') => settle vars rounds m'
    | (.stay, m') => m'

/-- More text behind the buffer; inside the arguments it is fed first. -/
def give (vars : NgramVars) (m : Matcher) (text : List Char) : Matcher :=
  let m := if m.state = .inArgs then m.feed vars text else m
  { m with partialBuf := m.partialBuf ++ text }

/-- Commit a token. Every transition shortens the buffer. -/
def advance (vars : NgramVars) (m : Matcher) (text : List Char) : Matcher :=
  if text = [] then m else (m.give vars text).settle vars ((m.partialBuf ++ text).length + 1)

/-- The matcher after all tokens. -/
def advanceAll (vars : NgramVars) (m : Matcher) (tokens : List (List Char)) : Matcher :=
  tokens.foldl (advance vars) m

end Matcher
end Hipscope.Qwen
