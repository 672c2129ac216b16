import Hipscope.Dsml.Call

/-! The grammar matcher that masks tokens while a tool-call block is written. -/
namespace Hipscope.Dsml.Grammar
open Text

def openToolCalls : List Char := toolCallsOpen
def closeToolCalls : List Char := toolCallsClose
def openInvoke : List Char := invokeOpenPrefix
def closeInvoke : List Char := invokeClose
def openToolVariant : List Char := toolOpenPrefixAlt
def closeToolVariant : List Char := toolCloseAlt
def openParam : List Char := parameterOpenPrefix
def closeParam : List Char := parameterClose

def attrStringTrue : List Char :=
  [' ', 's', 't', 'r', 'i', 'n', 'g', '=', '"', 't', 'r', 'u', 'e', '"', '>']

def attrStringFalse : List Char :=
  [' ', 's', 't', 'r', 'i', 'n', 'g', '=', '"', 'f', 'a', 'l', 's', 'e', '"', '>']

def dsmlAtom : List Char := ['｜', 'D', 'S', 'M', 'L', '｜']

/-- What ends a tool name, and a parameter name. -/
def nameEnd : List Char := ['"', '>', '\n']
def paramNameEnd : List Char := ['"']

structure ToolSchema where
  name : List Char
  params : List (List Char)
  required : List (List Char)
  deriving DecidableEq, Repr

inductive State where
  | out
  | inToolCalls
  | inInvokeName (toolIdx : Option ℕ)
  | inInvokeBody (toolIdx : ℕ) (emittedParams : List ℕ)
  | inParamName (toolIdx : ℕ) (paramIdx : Option ℕ) (emittedParams : List ℕ)
  | inParamAttr (toolIdx paramIdx : ℕ) (emittedParams : List ℕ)
  | inParamBody (toolIdx paramIdx : ℕ) (emittedParams : List ℕ)
  deriving DecidableEq, Repr

structure Matcher where
  state : State
  partialBuf : List Char
  tools : List ToolSchema
  deriving DecidableEq, Repr

/-- `recovered` is the fall-back to `out` with a cleared buffer. -/
inductive Transition where
  | stay
  | advanced
  | recovered
  deriving DecidableEq, Repr

/-- Tool `i`; the indices a matcher holds are places of the list. -/
def toolAt (tools : List ToolSchema) (i : ℕ) : ToolSchema := tools[i]?.getD ⟨[], [], []⟩

def ToolSchema.paramAt (tool : ToolSchema) (i : ℕ) : List Char := tool.params[i]?.getD []

/-- A required name that is no parameter is passed over. -/
def ToolSchema.requiredSatisfied (tool : ToolSchema) (emittedParams : List ℕ) : Bool :=
  tool.required.all fun name => !tool.params.contains name || emittedParams.contains (tool.params.idxOf name)

def toolCandidates (tools : List ToolSchema) : Option ℕ → List (ℕ × List Char)
  | none => (List.range tools.length).map fun i => (i, (toolAt tools i).name ++ nameEnd)
  | some i => [(i, (toolAt tools i).name ++ nameEnd)]

/-- Parameters not yet written, or the one settled on. -/
def paramCandidates (tool : ToolSchema) (emittedParams : List ℕ) : Option ℕ → List (ℕ × List Char)
  | none => ((List.range tool.params.length).filter fun i => !emittedParams.contains i).map fun i =>
      (i, tool.paramAt i ++ paramNameEnd)
  | some i => [(i, tool.paramAt i ++ paramNameEnd)]

namespace Matcher

def new (tools : List ToolSchema) : Matcher := ⟨.out, [], tools⟩

def isFree (m : Matcher) : Bool :=
  match m.state with
  | .out => (memmem m.partialBuf dsmlAtom).isNone
  | .inParamBody .. => m.partialBuf = []
  | _ => false

/-- Closing an invoke is offered once the required parameters are there. -/
def invokeBodyAlternatives (tools : List ToolSchema) (toolIdx : ℕ) (emittedParams : List ℕ) : List (List Char × State) :=
  (openParam, .inParamName toolIdx none emittedParams) ::
    if (toolAt tools toolIdx).requiredSatisfied emittedParams then
      [(closeInvoke, .inToolCalls), (closeToolVariant, .inToolCalls)]
    else []

def toolCallsAlternatives : List (List Char × State) :=
  [(openInvoke, .inInvokeName none), (openToolVariant, .inInvokeName none), (closeToolCalls, .out)]

def attrAlternatives (toolIdx paramIdx : ℕ) (emittedParams : List ℕ) : List (List Char × State) :=
  [(attrStringTrue, .inParamBody toolIdx paramIdx emittedParams),
    (attrStringFalse, .inParamBody toolIdx paramIdx emittedParams)]

def allowedContinuations (m : Matcher) : List (List Char) :=
  match m.state with
  | .out => if (memmem m.partialBuf dsmlAtom).isSome then [openToolCalls] else []
  | .inParamBody .. => if m.partialBuf = [] then [] else [closeParam]
  | .inToolCalls => [openInvoke, openToolVariant, closeToolCalls]
  | .inInvokeName toolIdx => (toolCandidates m.tools toolIdx).map Prod.snd
  | .inInvokeBody toolIdx emittedParams => (invokeBodyAlternatives m.tools toolIdx emittedParams).map Prod.fst
  | .inParamName toolIdx paramIdx emittedParams =>
    (paramCandidates (toolAt m.tools toolIdx) emittedParams paramIdx).map Prod.snd
  | .inParamAttr .. => [attrStringTrue, attrStringFalse]

def checkAgainstConts (s : List Char) (conts : List (List Char)) : Bool :=
  conts.any fun cont => s.isPrefixOf cont || cont.isPrefixOf s

def isWs (c : Char) : Bool := c = '\n' || c = ' '

def stateAllowsLeadingWs : State → Bool
  | .inToolCalls => true
  | .inInvokeBody .. => true
  | _ => false

def isTokenAllowed (m : Matcher) (text : List Char) : Bool :=
  m.isFree ||
    (checkAgainstConts (m.partialBuf ++ text) m.allowedContinuations ||
      (stateAllowsLeadingWs m.state &&
        checkAgainstConts ((m.partialBuf ++ text).dropWhile isWs) m.allowedContinuations))

/-- The longest tail that the trigger can begin with. -/
def dropToPrefix (trigger : List Char) : List Char → List Char
  | [] => []
  | c :: rest => if (c :: rest).isPrefixOf trigger then c :: rest else dropToPrefix trigger rest

/-- What is kept of a free text: at most one byte less than the trigger, then only what can
begin it. -/
def keepTail (trigger buf : List Char) : List Char :=
  let maxKeep := String.utf8Len trigger - 1
  let buf := if maxKeep < String.utf8Len buf then buf.drop (utf8SafeSplit buf (String.utf8Len buf - maxKeep)) else buf
  dropToPrefix trigger buf

def transitionFromFree (m : Matcher) (trigger : List Char) (next : State) : Transition × Matcher :=
  match memmem m.partialBuf trigger with
  | some i => (.advanced, { m with state := next, partialBuf := m.partialBuf.drop (i + trigger.length) })
  | none => (.stay, { m with partialBuf := keepTail trigger m.partialBuf })

def transitionFromAlternatives (m : Matcher) (alternatives : List (List Char × State)) : Transition × Matcher :=
  match alternatives.find? fun a => a.1.isPrefixOf m.partialBuf with
  | some (needle, next) => (.advanced, { m with state := next, partialBuf := m.partialBuf.drop needle.length })
  | none =>
    if alternatives.any fun a => m.partialBuf.isPrefixOf a.1 then (.stay, m)
    else (.recovered, { m with state := .out, partialBuf := [] })

/-- A name out of candidates: written in full it goes on, and a single one left is settled on. -/
def transitionName (m : Matcher) (idx : Option ℕ) (candidates : List (ℕ × List Char)) (settled next : ℕ → State) :
    Transition × Matcher :=
  match candidates.find? fun c => c.2.isPrefixOf m.partialBuf with
  | some (i, full) => (.advanced, { m with state := next i, partialBuf := m.partialBuf.drop full.length })
  | none =>
    match idx, candidates.filter fun c => m.partialBuf.isPrefixOf c.2 with
    | none, [(i, _)] => (.advanced, { m with state := settled i })
    | _, [] => (.recovered, { m with state := .out, partialBuf := [] })
    | _, _ :: _ => (.stay, m)

def transitionInvokeName (m : Matcher) (toolIdx : Option ℕ) : Transition × Matcher :=
  m.transitionName toolIdx (toolCandidates m.tools toolIdx) (fun i => .inInvokeName (some i)) fun i => .inInvokeBody i []

def transitionParamName (m : Matcher) (toolIdx : ℕ) (paramIdx : Option ℕ) (emittedParams : List ℕ) :
    Transition × Matcher :=
  m.transitionName paramIdx (paramCandidates (toolAt m.tools toolIdx) emittedParams paramIdx)
    (fun i => .inParamName toolIdx (some i) emittedParams) fun i => .inParamAttr toolIdx i emittedParams

def addEmitted (emittedParams : List ℕ) (i : ℕ) : List ℕ :=
  if emittedParams.contains i then emittedParams else emittedParams ++ [i]

def transitionOnce (m : Matcher) : Transition × Matcher :=
  if stateAllowsLeadingWs m.state ∧ (m.partialBuf.takeWhile isWs) ≠ [] then
    (.advanced, { m with partialBuf := m.partialBuf.dropWhile isWs })
  else
    match m.state with
    | .out => m.transitionFromFree openToolCalls .inToolCalls
    | .inParamBody toolIdx paramIdx emittedParams =>
      m.transitionFromFree closeParam (.inInvokeBody toolIdx (addEmitted emittedParams paramIdx))
    | .inToolCalls => m.transitionFromAlternatives toolCallsAlternatives
    | .inInvokeName toolIdx => m.transitionInvokeName toolIdx
    | .inInvokeBody toolIdx emittedParams =>
      m.transitionFromAlternatives (invokeBodyAlternatives m.tools toolIdx emittedParams)
    | .inParamName toolIdx paramIdx emittedParams => m.transitionParamName toolIdx paramIdx emittedParams
    | .inParamAttr toolIdx paramIdx emittedParams =>
      m.transitionFromAlternatives (attrAlternatives toolIdx paramIdx emittedParams)

/-- Transitions until one stays; the flag tells whether the matcher recovered. -/
def settle : ℕ → Matcher → Matcher × Bool
  | 0, m => (m, false)
  | rounds + 1, m =>
    match m.transitionOnce with
    | (.advanced, m') => settle rounds m'
    | (.stay, m') => (m', false)
    | (.recovered, m') => (m', true)

/-- Commit a token. A round shortens the buffer or settles on a name. -/
def advance (m : Matcher) (text : List Char) : Matcher × Bool :=
  if text = [] then (m, false)
  else settle (2 * (m.partialBuf ++ text).length + 2) { m with partialBuf := m.partialBuf ++ text }

end Matcher
end Hipscope.Dsml.Grammar
