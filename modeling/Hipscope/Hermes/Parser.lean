import Hipscope.Dsml.Call
import Hipscope.Text.Search

/-! Tool calls read out of generated text: where the bodies stand, and the fall-back forms of one body. -/
namespace Hipscope.Hermes
open Text
open Dsml (Value ToolCall isWhitespace trim mapInsert scan)

def toolCallOpen : List Char := "<tool_call>".toList

def toolCallClose : List Char := "</tool_call>".toList

/-- The next body and the text after it; a body that is not closed is the rest of the text. -/
def nextBody (text : List Char) : Option (Option (List Char) × List Char) := do
  let start ← memmem text toolCallOpen
  let rest := text.drop (start + toolCallOpen.length)
  match memmem rest toolCallClose with
  | some stop => some (some (rest.take stop), rest.drop (stop + toolCallClose.length))
  | none => some (some rest, [])

/-- The bodies in the order of the text: the loop that both readers run. -/
def bodies (text : List Char) : List (List Char) := scan nextBody (text.length + 1) text

/-- The text without the needle, found from left to right. -/
def removeAll (needle : List Char) : ℕ → List Char → List Char
  | 0, s => s
  | rounds + 1, s =>
    match memmem s needle with
    | none => s
    | some i => s.take i ++ removeAll needle rounds (s.drop (i + needle.length))

/-- The special tokens that leak into generated text. -/
def chatmlTokens : List (List Char) :=
  ["<|im_start|>".toList, "<|im_end|>".toList, "<|endoftext|>".toList, "<|im_sep|>".toList]

def stripChatmlLeakage (bodyRaw : List Char) : List Char :=
  chatmlTokens.foldl (fun s token => removeAll token s.length s) bodyRaw

def trimStart (s : List Char) : List Char := s.dropWhile isWhitespace

/-- Openers stacked before a body, each with the white space after it: how many, and what follows. -/
def stripOpeners : ℕ → List Char → ℕ × List Char
  | 0, s => (0, s)
  | rounds + 1, s =>
    if toolCallOpen <+: s then
      let rest := stripOpeners rounds (trimStart (s.drop toolCallOpen.length))
      (rest.1 + 1, rest.2)
    else (0, s)

/-- The value under a key; only objects have any. -/
def get (v : Value) (key : String) : Option Value :=
  match v with
  | .object members => (members.find? fun m => m.1 = key.toList).map Prod.snd
  | _ => none

def asStr : Value → Option (List Char)
  | .string s => some s
  | _ => none

def emptyObject : Value := .object []

section Numbers

def dropSign (s : List Char) : List Char := if s.head? = some '+' ∨ s.head? = some '-' then s.drop 1 else s

/-- Nothing, or an exponent. -/
def isExponent (s : List Char) : Bool :=
  s.isEmpty || ((s.head? = some 'e' || s.head? = some 'E') &&
    (!(dropSign (s.drop 1)).isEmpty && (dropSign (s.drop 1)).all Char.isDigit))

/-- The texts that read as an `f64`. -/
def parsesAsF64 (s : List Char) : Bool :=
  let body := dropSign s
  let whole := body.takeWhile Char.isDigit
  let rest := body.drop whole.length
  let fraction := if rest.head? = some '.' then (rest.drop 1).takeWhile Char.isDigit else []
  let behind := if rest.head? = some '.' then rest.drop (1 + fraction.length) else rest
  ["inf", "infinity", "nan"].any (fun word => body.map Char.toLower = word.toList) ||
    ((!whole.isEmpty || !fraction.isEmpty) && isExponent behind)

end Numbers

section Braces

/-- How many characters the object takes that the text begins with; braces inside strings do not count. -/
def objectLen : List Char → ℕ → Bool → Bool → Option ℕ
  | [], _, _, _ => none
  | c :: s, depth, inStr, escape =>
    if inStr then
      if escape then (objectLen s depth true false).map (· + 1)
      else if c = '\\' then (objectLen s depth true true).map (· + 1)
      else (objectLen s depth (c ≠ '"') false).map (· + 1)
    else if c = '"' then (objectLen s depth true false).map (· + 1)
    else if c = '\x7b' then (objectLen s (depth + 1) false false).map (· + 1)
    else if c = '\x7d' then
      if depth = 1 then some 1 else (objectLen s (depth - 1) false false).map (· + 1)
    else (objectLen s depth false false).map (· + 1)

/-- The first balanced object of a text. -/
def balancedObject (s : List Char) : Option (List Char) := do
  let start ← memmem s ['\x7b']
  let len ← objectLen (s.drop start) 0 false false
  some ((s.drop start).take len)

end Braces

section Forms
variable (fromStr : List Char → Option Value)

/-- JSON primitives, objects and arrays keep their types; other text is a string. -/
def coerceQwenXmlParameter (value : List Char) : Value :=
  let typed := ["true", "false", "null"].any (fun word => value = word.toList) || parsesAsF64 value ||
    (value.head? = some '\x7b' && value.getLast? = some '\x7d') ||
    (value.head? = some '[' && value.getLast? = some ']')
  if typed then (fromStr value).getD (.string value) else .string value

/-- A tag's name: letters, digits and `_`, from the second character on also `.` and `-`; no leading digit. -/
def isTagName (name : List Char) : Bool :=
  !name.isEmpty &&
    name.zipIdx.all (fun m => m.1 = '_' || m.1.isAlphanum || (0 < m.2 && (m.1 = '.' || m.1 = '-'))) &&
    !name.head?.any Char.isDigit

def parameterOpen : List Char := "<parameter=".toList

def parameterClose : List Char := "</parameter>".toList

def functionOpen : List Char := "<function=".toList

def functionClose : List Char := "</function>".toList

/-- The parameters of a native call; a broken one breaks the call. -/
def qwenXmlParameters : ℕ → List Char → List (List Char × Value) → Option (List (List Char × Value))
  | 0, _, arguments => some arguments
  | rounds + 1, rest, arguments =>
    match memmem rest parameterOpen with
    | none => some arguments
    | some start => do
      let tag := rest.drop (start + parameterOpen.length)
      let keyEnd ← memmem tag ['>']
      let key := trim (tag.take keyEnd)
      if isTagName key then
        let content := tag.drop (keyEnd + 1)
        let valueEnd ← memmem content parameterClose
        qwenXmlParameters rounds (content.drop (valueEnd + parameterClose.length))
          (mapInsert arguments key (coerceQwenXmlParameter fromStr (trim (content.take valueEnd))))
      else none

/-- What stands before the closing tag of a function, or all of it. -/
def parametersBody (afterName : List Char) : List Char :=
  match memmem afterName functionClose with
  | some stop => afterName.take stop
  | none => afterName

/-- A native call, read tolerantly. -/
def extractQwenXmlToolCall (body : List Char) : Option ToolCall := do
  let text := trimStart body
  if functionOpen <+: text then
    let functionBody := text.drop functionOpen.length
    let nameEnd ← memmem functionBody ['>']
    let name := trim (functionBody.take nameEnd)
    if isTagName name then
      let parameters := parametersBody (functionBody.drop (nameEnd + 1))
      let arguments ← qwenXmlParameters fromStr (parameters.length + 1) parameters []
      some ⟨name, .object arguments⟩
    else none
  else none

/-- The quoted value behind a `name` key. -/
def nameValue (afterName : List Char) : Option (List Char) := do
  let blank := fun c : Char => c = ' ' || c = '\t'
  let key := if afterName.head? = some '"' ∨ afterName.head? = some '\'' then afterName.drop 1 else afterName
  let colon := key.dropWhile blank
  if colon.head? = some ':' then
    let quoted := (colon.drop 1).dropWhile blank
    let quote ← quoted.head?
    if quote = '"' ∨ quote = '\'' then
      let value := quoted.drop 1
      let stop ← memmem value [quote]
      let name := value.take stop
      if !name.isEmpty && name.all fun c => c.isAlphanum || c = '_' || c = '.' || c = '-' then some name else none
    else none
  else none

/-- What may stand before a key. -/
def keyPosition (c : Char) : Bool := ['\x7b', ',', ' ', '\n', '\t', '"', '\''].contains c

/-- The walk over the occurrences of `name` from a position on. -/
def nameFrom (s : List Char) : ℕ → ℕ → Option (List Char)
  | 0, _ => none
  | rounds + 1, searchFrom =>
    match memmem (s.drop searchFrom) "name".toList with
    | none => none
    | some rel =>
      let start := searchFrom + rel
      let before := if start = 0 then ' ' else s.getD (start - 1) ' '
      let value := if keyPosition before then nameValue (s.drop (start + 4)) else none
      value.or (nameFrom s rounds (start + 4))

def extractToolCallNameFallback (s : List Char) : Option (List Char) := nameFrom s (s.length + 1) 0

def extractToolCallArgumentsFallback (s : List Char) : Option Value := do
  let key ← memmem s "arguments".toList
  let tail := (s.drop (key + 9)).dropWhile fun c => c = '"' || c = '\'' || c = ':' || isWhitespace c
  let object ← balancedObject tail
  fromStr object

/-- The arguments object is complete, valid or not. -/
def toolCallArgsObjectComplete (s : List Char) : Bool :=
  ((memmem s "arguments".toList).bind fun key => balancedObject (s.drop (key + 9))).isSome

/-- The relaxed recovery of a malformed body: its name, and its arguments as far as they are complete. -/
def recovered (body : List Char) : Option ToolCall := do
  let name ← extractToolCallNameFallback body
  match extractToolCallArgumentsFallback fromStr body with
  | some arguments => some ⟨name, arguments⟩
  | none => if toolCallArgsObjectComplete body then some ⟨name, emptyObject⟩ else none

/-- Strict JSON with a name. -/
def namedCall (val : Value) : Option ToolCall :=
  let name := ((get val "name").bind asStr).getD []
  if name.isEmpty then none else some ⟨name, (get val "arguments").getD emptyObject⟩

def parseOneToolCallBody (bodyRaw : List Char) : Option ToolCall :=
  let clean := trimStart (stripChatmlLeakage bodyRaw)
  let body := trim (stripOpeners clean.length clean).2
  if body.isEmpty then none
  else ((fromStr body).bind namedCall).or ((extractQwenXmlToolCall fromStr body).or (recovered fromStr body))

def extractToolCallsFromText (s : List Char) : List ToolCall := (bodies s).filterMap (parseOneToolCallBody fromStr)

end Forms
end Hipscope.Hermes

/-! The Hermes parser beside the text helper it is meant to stay in lockstep with. -/
namespace Hipscope.Hermes
open Text
open Dsml (Value ToolCall isWhitespace trim mapInsert scan)

structure ParsedToolCall where
  name : List Char
  arguments : Value
  repaired : Bool

structure ToolCallParseResult where
  prose : Option (List Char)
  toolCalls : List ParsedToolCall

def trimToOption (s : List Char) : Option (List Char) := if (trim s).isEmpty then none else some (trim s)

/-- The tag heads of malformed calls: opening and closing. -/
def headCandidates : List (List Char × List Char) :=
  [("<plain>".toList, "</param>".toList), (functionOpen, ">".toList), ("<tool name=\"".toList, "\">".toList)]

def trimQuotes (s : List Char) : List Char :=
  ((s.dropWhile fun c => c = '"').reverse.dropWhile fun c => c = '"').reverse

def isHeadName (name : List Char) : Bool :=
  !name.isEmpty && name.all fun c => c.isAlphanum || c = '_' || c = '.'

/-- Keys of a flat object that are not arguments. -/
def metadataKeys : List (List Char) := ["name".toList, "type".toList, "id".toList, "function".toList]

/-- The members of a flat object that become its arguments. -/
def promoted : Value → List (List Char × Value)
  | .object members => members.filter fun m => !metadataKeys.contains m.1
  | _ => []

/-- The name of a JSON call, when it is a string. -/
def calledName (val : Value) : Option (List Char) := (get val "name").bind asStr

/-- A JSON object with a name: its arguments wrapped, flat or absent. -/
def namedHermes (alreadyRepaired : Bool) (val : Value) : Option ParsedToolCall := do
  let name ← calledName val
  match get val "arguments" with
  | some arguments => some ⟨name, arguments, alreadyRepaired⟩
  | none =>
    if (promoted val).isEmpty then some ⟨name, emptyObject, alreadyRepaired⟩
    else some ⟨name, .object (promoted val), true⟩

section Forms
variable (fromStr : List Char → Option Value)

def extractFirstJsonObject (s : List Char) : Option Value := (balancedObject s).bind fromStr

/-- A call by one tag head and the object behind it. -/
def headCall (raw : List Char) (tags : List Char × List Char) : Option ParsedToolCall := do
  if tags.1 <+: raw then
    let rest := raw.drop tags.1.length
    let close ← memmem rest tags.2
    let name := trimQuotes (trim (rest.take close))
    if isHeadName name then
      let behind := trim (rest.drop (close + tags.2.length))
      some ⟨name, (extractFirstJsonObject fromStr behind).getD emptyObject, true⟩
    else none
  else none

def headForm (raw : List Char) : Option ParsedToolCall := headCandidates.findSome? (headCall fromStr raw)

def parseOneHermes (raw : List Char) (alreadyRepaired : Bool) : Option ParsedToolCall :=
  ((fromStr raw).bind (namedHermes alreadyRepaired)).or
    ((headForm fromStr raw).or ((recovered fromStr raw).map fun call => ⟨call.name, call.arguments, true⟩))

/-- One body of the text, trimmed and with its stacked openers stripped. -/
def hermesBody (raw : List Char) : Option ParsedToolCall :=
  let working := stripOpeners (trim raw).length (trim raw)
  if working.2.isEmpty then none else parseOneHermes fromStr working.2 (0 < working.1)

def parse (text : List Char) : ToolCallParseResult :=
  match memmem text toolCallOpen with
  | none => ⟨trimToOption text, []⟩
  | some start => ⟨trimToOption (text.take start), (bodies text).filterMap (hermesBody fromStr)⟩

/-- The calls that each reader finds, as names and arguments. -/
def hermesPairs (text : List Char) : List (List Char × Value) :=
  (parse fromStr text).toolCalls.map fun call => (call.name, call.arguments)

def emitPairs (text : List Char) : List (List Char × Value) :=
  (extractToolCallsFromText fromStr text).map fun call => (call.name, call.arguments)

end Forms
end Hipscope.Hermes
