import Hipscope.Emit.ToolChunks
import Hipscope.Hermes.Agreement
import Hipscope.Text.Search
import Hipscope.Text.Utf8
import Mathlib.Data.Nat.Find

/-! The router's strict reading of a call body, and the calls both readers take from a text. -/
namespace Hipscope.Hermes
open Text
open Dsml (Value ToolCall isWhitespace trim mapInsert scan)

section Strict
variable (fromStr : List Char → Option Value)

/-- The parameters of a native call with the text after the last; read strictly only
white space stands before each. -/
def qwenXmlParametersInner (strict : Bool) : ℕ → List Char → List (List Char × Value) →
    Option (List (List Char × Value) × List Char)
  | 0, rest, arguments => some (arguments, rest)
  | rounds + 1, rest, arguments =>
    match memmem rest parameterOpen with
    | none => some (arguments, rest)
    | some start =>
      if strict && !(rest.take start).all isWhitespace then none
      else do
        let tag := rest.drop (start + parameterOpen.length)
        let keyEnd ← memmem tag ['>']
        let key := trim (tag.take keyEnd)
        if isTagName key then
          let content := tag.drop (keyEnd + 1)
          let valueEnd ← memmem content parameterClose
          qwenXmlParametersInner strict rounds (content.drop (valueEnd + parameterClose.length))
            (mapInsert arguments key (coerceQwenXmlParameter fromStr (trim (content.take valueEnd))))
        else none

/-- Nothing but white space after the closing tag of the function. -/
def closedBlank (afterName : List Char) : Bool :=
  match memmem afterName functionClose with
  | some stop => (afterName.drop (stop + functionClose.length)).all isWhitespace
  | none => true

/-- A native call; read strictly it is closed, with nothing else around its parameters. -/
def extractQwenXmlToolCallInner (strict : Bool) (body : List Char) : Option ToolCall := do
  let text := trimStart body
  if functionOpen <+: text then
    let functionBody := text.drop functionOpen.length
    let nameEnd ← memmem functionBody ['>']
    let name := trim (functionBody.take nameEnd)
    if isTagName name then
      let afterName := functionBody.drop (nameEnd + 1)
      if strict && (memmem afterName functionClose).isNone then none
      else
        let parameters := parametersBody afterName
        let read ← qwenXmlParametersInner fromStr strict (parameters.length + 1) parameters []
        if strict && !read.2.all isWhitespace then none
        else if strict && !closedBlank afterName then none
        else some ⟨name, .object read.1⟩
    else none
  else none

def extractQwenXmlToolCallStrict (body : List Char) : Option ToolCall := extractQwenXmlToolCallInner fromStr true body

/-- The body parser of the router: valid JSON with a name, or a native call read strictly. -/
def parseStrictToolCallBody (bodyRaw : List Char) : Option ToolCall :=
  let body := trim (stripChatmlLeakage bodyRaw)
  if body.isEmpty then none
  else if (memmem body toolCallOpen).isSome then none
  else
    match fromStr body with
    | some val => namedCall val
    | none => extractQwenXmlToolCallStrict fromStr body

/-- The body parser on the bytes the router keeps. -/
def parseStrictBytes (bytes : List UInt8) : Option ToolCall := parseStrictToolCallBody fromStr (fromUtf8Lossy bytes)

end Strict

section Lenient
variable {fromStr : List Char → Option Value} {body : List Char} {call : ToolCall}

/-- Read tolerantly, the parameters are those of the tolerant reader. -/
private theorem parameters_lenient (rounds : ℕ) (rest : List Char) (arguments : List (List Char × Value)) :
    (qwenXmlParametersInner fromStr false rounds rest arguments).map Prod.fst = qwenXmlParameters fromStr rounds rest arguments := by
  induction rounds generalizing rest arguments with
  | zero => rfl
  | succ rounds ih =>
    rw [qwenXmlParametersInner, qwenXmlParameters]
    cases memmem rest parameterOpen with
    | none => rfl
    | some start =>
      dsimp only
      rw [Bool.false_and, if_neg Bool.false_ne_true]
      cases memmem (rest.drop (start + parameterOpen.length)) ['>'] with
      | none => rfl
      | some keyEnd =>
        dsimp only [Option.bind_eq_bind, Option.bind_some]
        split
        · cases memmem _ parameterClose with
          | none => rfl
          | some valueEnd => exact ih _ _
        · rfl

/-- What is read strictly is read the same tolerantly. -/
private theorem parameters_strict {rounds : ℕ} {rest : List Char} {arguments : List (List Char × Value)}
    {read : List (List Char × Value) × List Char} (h : qwenXmlParametersInner fromStr true rounds rest arguments = some read) :
    qwenXmlParametersInner fromStr false rounds rest arguments = some read := by
  induction rounds generalizing rest arguments with
  | zero => exact h
  | succ rounds ih =>
    rw [qwenXmlParametersInner] at h ⊢
    cases hopen : memmem rest parameterOpen with
    | none =>
      rw [hopen] at h
      exact h
    | some start =>
      rw [hopen] at h
      dsimp only at h ⊢
      rw [Bool.false_and, if_neg Bool.false_ne_true]
      split at h
      · cases h
      cases hkey : memmem (rest.drop (start + parameterOpen.length)) ['>'] with
      | none =>
        rw [hkey] at h
        cases h
      | some keyEnd =>
        rw [hkey] at h
        dsimp only [Option.bind_eq_bind, Option.bind_some] at h ⊢
        split at h
        · rename_i htag
          rw [if_pos htag]
          cases hclose : memmem _ parameterClose with
          | none =>
            rw [hclose] at h
            cases h
          | some valueEnd =>
            rw [hclose] at h
            exact ih h
        · cases h

theorem inner_lenient (body : List Char) :
    extractQwenXmlToolCallInner fromStr false body = extractQwenXmlToolCall fromStr body := by
  rw [extractQwenXmlToolCallInner, extractQwenXmlToolCall]
  dsimp only
  split
  · cases memmem ((trimStart body).drop functionOpen.length) ['>'] with
    | none => rfl
    | some nameEnd =>
      dsimp only [Option.bind_eq_bind, Option.bind_some]
      split
      · rw [Bool.false_and, if_neg Bool.false_ne_true, ← parameters_lenient, Option.bind_map]
        rfl
      · rfl
  · rfl

/-- A native call that is read strictly is read the same tolerantly. -/
theorem extract_strict (h : extractQwenXmlToolCallStrict fromStr body = some call) :
    extractQwenXmlToolCall fromStr body = some call := by
  rw [← inner_lenient]
  rw [extractQwenXmlToolCallStrict, extractQwenXmlToolCallInner] at h
  rw [extractQwenXmlToolCallInner]
  dsimp only at h ⊢
  split at h
  · rename_i hopen
    rw [if_pos hopen]
    cases hname : memmem ((trimStart body).drop functionOpen.length) ['>'] with
    | none =>
      rw [hname] at h
      cases h
    | some nameEnd =>
      rw [hname] at h
      dsimp only [Option.bind_eq_bind, Option.bind_some] at h ⊢
      split at h
      · rename_i htag
        rw [if_pos htag, Bool.false_and, if_neg Bool.false_ne_true]
        split at h
        · cases h
        rw [Option.bind_eq_some_iff] at h
        obtain ⟨read, hread, h⟩ := h
        rw [parameters_strict hread, Option.bind_some]
        split at h
        · cases h
        split at h
        · cases h
        exact h
      · cases h
  · cases h

private theorem stripOpeners_none {rounds : ℕ} {s : List Char} (h : ¬ toolCallOpen <+: s) :
    (stripOpeners rounds s).2 = s := by
  cases rounds with
  | zero => rfl
  | succ rounds => rw [stripOpeners, if_neg h]

private theorem trim_trimStart (s : List Char) : trim (trimStart s) = trim s := by
  rw [trim_eq, trimStart_idem, trim_eq]

/-- A body that the router accepts is read the same by the tolerant parser. -/
theorem parse_strict {bodyRaw : List Char} (h : parseStrictToolCallBody fromStr bodyRaw = some call) :
    parseOneToolCallBody fromStr bodyRaw = some call := by
  rw [parseStrictToolCallBody] at h
  split at h
  · cases h
  rename_i hne
  split at h
  · cases h
  rename_i hfree
  have hopener : ¬ toolCallOpen <+: trimStart (stripChatmlLeakage bodyRaw) := by
    intro hin
    have habsent := memmem_none (Option.not_isSome_iff_eq_none.mp hfree)
    exact habsent 0 (opener_trimEnd.mpr hin)
  rw [parseOneToolCallBody]
  rw [stripOpeners_none hopener, trim_trimStart, if_neg hne]
  cases hjson : fromStr (trim (stripChatmlLeakage bodyRaw)) with
  | some val =>
    rw [hjson] at h
    dsimp only at h
    rw [Option.bind_some, h]
    rfl
  | none =>
    rw [hjson] at h
    rw [extract_strict h]
    rfl

end Lenient

section Spans
open Emit (DelimHit Clear toolSplit toolReference split_prose split_body split_open split_close split_stray split_nested)

/-- The characters of a delimiter. -/
def delimChars : DelimHit → List Char
  | .opener => toolCallOpen
  | .closer => toolCallClose

private theorem delim_ascii (hit : DelimHit) : ∀ a ∈ delimChars hit, a.toNat < 128 := by
  cases hit with
  | opener => decide
  | closer => decide

private theorem delim_bytes (hit : DelimHit) : utf8Bytes (delimChars hit) = hit.bytes := by
  cases hit with
  | opener => decide
  | closer => decide

private theorem delim_ne_nil (hit : DelimHit) : delimChars hit ≠ [] := by
  cases hit with
  | opener => decide
  | closer => decide

/-- A text has no delimiter, or a first one. -/
private theorem first_delim (text : List Char) : Clear (utf8Bytes text).length (utf8Bytes text) ∨
    ∃ hit front back, text = front ++ (delimChars hit ++ back) ∧ Clear (utf8Bytes front).length (utf8Bytes text) := by
  classical
  by_cases hany : ∃ i, ∃ hit : DelimHit, hit.bytes <+: (utf8Bytes text).drop i
  · obtain ⟨hit, hat⟩ := Nat.find_spec hany
    rw [← delim_bytes] at hat
    obtain ⟨front, back, htext, hi⟩ := occurs_of_utf8Bytes (delim_ne_nil hit) (delim_ascii hit) hat
    refine Or.inr ⟨hit, front, back, htext, fun i hlt hit' hin => ?_⟩
    exact Nat.find_min hany (hi ▸ hlt) ⟨hit', hin⟩
  · exact Or.inl fun i _ hit hin => hany ⟨i, hit, hin⟩

/-- A front without delimiters in its bytes is passed over. -/
private theorem passes_of_clear {front back : List Char} (h : Clear (utf8Bytes front).length (utf8Bytes (front ++ back)))
    (hit : DelimHit) : Passes (delimChars hit) front back := by
  intro i hi hin
  have hlt : (utf8Bytes (front.take i)).length < (utf8Bytes front).length := by
    have hpos := List.length_pos_iff.mpr (utf8Bytes_ne_nil (s := front.drop i) fun hnil =>
      absurd (List.drop_eq_nil_iff.mp hnil) (Nat.not_le.mpr hi))
    have hboth : utf8Bytes front = utf8Bytes (front.take i) ++ utf8Bytes (front.drop i) := by
      rw [← utf8Bytes_append, List.take_append_drop]
    rw [hboth, List.length_append]
    omega
  apply h _ hlt hit
  have hcut : front ++ back = front.take i ++ (front ++ back).drop i := by
    rw [List.drop_append_of_le_length hi.le, ← List.append_assoc, List.take_append_drop]
  rw [hcut, utf8Bytes_append, List.drop_left, ← delim_bytes]
  exact utf8Bytes_prefix hin

variable {fromStr : List Char → Option Value} {body : List UInt8} {front back : List Char}

private theorem drop_front (hit : DelimHit) : (utf8Bytes (front ++ (delimChars hit ++ back))).drop (utf8Bytes front).length =
    hit.bytes ++ utf8Bytes back := by
  rw [utf8Bytes_append, utf8Bytes_append, List.drop_left, delim_bytes]

private theorem take_front (rest : List Char) :
    (utf8Bytes (front ++ rest)).take (utf8Bytes front).length = utf8Bytes front := by
  rw [utf8Bytes_append, List.take_left]

private theorem length_front_le (rest : List Char) : (utf8Bytes front).length ≤ (utf8Bytes (front ++ rest)).length := by
  rw [utf8Bytes_append, List.length_append]
  omega

/-- Inside a call the text goes on to a closing delimiter, with a body that parses. -/
private theorem closed_of_ok (h : (toolSplit (parseStrictBytes fromStr) .inToolCall [] 0 (utf8Bytes back)).error = none) :
    ∃ inner rest call, back = inner ++ (toolCallClose ++ rest) ∧
      Clear (utf8Bytes inner).length (utf8Bytes back) ∧ parseStrictToolCallBody fromStr inner = some call ∧
      toolSplit (parseStrictBytes fromStr) .inToolCall [] 0 (utf8Bytes back) =
        (toolSplit (parseStrictBytes fromStr) .normal [] 0 (utf8Bytes rest)).prepend [] [call] := by
  obtain hclear | ⟨hit, inner, rest, rfl, hclear⟩ := first_delim back
  · rw [split_body le_rfl hclear, List.drop_length] at h
    cases h
  have hbody : toolSplit (parseStrictBytes fromStr) .inToolCall [] 0 _ = _ := split_body (length_front_le _) hclear
  rw [take_front, drop_front, List.nil_append] at hbody
  rw [hbody] at h ⊢
  cases hit with
  | opener =>
    rw [DelimHit.bytes, split_nested (List.prefix_append _ _)] at h
    cases h
  | closer =>
    have hclose : toolSplit (parseStrictBytes fromStr) .inToolCall (utf8Bytes inner) 0 _ = _ :=
      split_close (List.prefix_append Emit.toolCallClose (utf8Bytes rest))
    rw [List.drop_left] at hclose
    have hparse : parseStrictBytes fromStr (utf8Bytes inner) = parseStrictToolCallBody fromStr inner := by
      rw [parseStrictBytes, fromUtf8Lossy_utf8Bytes]
    rw [hparse] at hclose
    cases hcall : parseStrictToolCallBody fromStr inner with
    | none =>
      rw [hcall] at hclose
      rw [DelimHit.bytes, hclose] at h
      cases h
    | some call =>
      rw [hcall] at hclose
      exact ⟨inner, rest, call, rfl, hclear, hcall, hclose⟩

/-- A whole span is the next body of the scan. -/
private theorem nextBody_span {inner rest : List Char}
    (hfront : Passes toolCallOpen front (toolCallOpen ++ (inner ++ (toolCallClose ++ rest))))
    (hinner : Passes toolCallClose inner (toolCallClose ++ rest)) :
    nextBody (front ++ (toolCallOpen ++ (inner ++ (toolCallClose ++ rest)))) = some (some inner, rest) := by
  have hopen : memmem _ toolCallOpen = some front.length := memmem_passes (delim_ne_nil .opener) hfront
  have hclose : memmem _ toolCallClose = some inner.length := memmem_passes (delim_ne_nil .closer) hinner
  rw [nextBody, hopen]
  dsimp only [Option.bind_eq_bind, Option.bind_some]
  rw [← List.drop_drop, List.drop_left, List.drop_left, hclose]
  dsimp only
  rw [List.take_left, ← List.drop_drop, List.drop_left, List.drop_left]

theorem calls_agree {text : List Char} {rounds : ℕ} (hrounds : text.length < rounds)
    (h : (toolSplit (parseStrictBytes fromStr) .normal body 0 (utf8Bytes text)).error = none) :
    (toolSplit (parseStrictBytes fromStr) .normal body 0 (utf8Bytes text)).calls =
      (scan nextBody rounds text).filterMap (parseOneToolCallBody fromStr) := by
  induction rounds generalizing text body with
  | zero => exact absurd hrounds (Nat.not_lt_zero _)
  | succ rounds ih =>
    rw [scan]
    obtain hclear | ⟨hit, front, back, rfl, hclear⟩ := first_delim text
    · have hpasses : Passes (delimChars .opener) text [] := passes_of_clear (by rwa [List.append_nil]) .opener
      have hnone : nextBody text = none := by
        have hfind : memmem text toolCallOpen = none := memmem_passes_none (delim_ne_nil .opener) hpasses
        rw [nextBody, hfind]
        rfl
      rw [hnone, split_prose le_rfl hclear, List.drop_length]
      rfl
    have hprose : toolSplit (parseStrictBytes fromStr) .normal body 0 _ = _ := split_prose (length_front_le _) hclear
    rw [take_front, drop_front] at hprose
    rw [hprose] at h ⊢
    cases hit with
    | closer =>
      rw [DelimHit.bytes, split_stray (List.prefix_append _ _)] at h
      cases h
    | opener =>
      have hopen : toolSplit (parseStrictBytes fromStr) .normal body 0 _ = _ :=
        split_open (List.prefix_append Emit.toolCallOpen (utf8Bytes back))
      rw [List.drop_left] at hopen
      rw [DelimHit.bytes, hopen] at h ⊢
      obtain ⟨inner, rest, call, rfl, hinner, hcall, hsplit⟩ := closed_of_ok h
      rw [hsplit] at h ⊢
      have hlonger : rest.length < rounds := by
        have hpos := List.length_pos_iff.mpr (delim_ne_nil .opener)
        simp only [List.length_append] at hrounds
        omega
      have hnext := nextBody_span (passes_of_clear hclear .opener) (passes_of_clear hinner .closer)
      have hcalls : ((some inner).toList ++ scan nextBody rounds rest).filterMap (parseOneToolCallBody fromStr) =
          call :: (scan nextBody rounds rest).filterMap (parseOneToolCallBody fromStr) := by
        rw [Option.toList_some, List.singleton_append, List.filterMap_cons, parse_strict hcall]
      rw [delimChars, hnext]
      exact (congrArg (call :: ·) (ih hlonger h)).trans hcalls.symm

end Spans

section Agree
open Emit (ToolOutputRouter)

/-- Every text that the router takes to the end without an error, however it was cut into
pushes, holds the same calls for the whole-text extraction. -/
theorem strict_agrees (fromStr : List Char → Option Value) (chunks : List (List Char))
    (hok : (ToolOutputRouter.new.route (parseStrictBytes fromStr) (chunks.map utf8Bytes)).error = none) :
    (ToolOutputRouter.new.route (parseStrictBytes fromStr) (chunks.map utf8Bytes)).calls =
      extractToolCallsFromText fromStr chunks.flatten := by
  rw [ToolOutputRouter.route_reference, ← utf8Bytes_flatten] at hok ⊢
  exact calls_agree (Nat.lt_succ_self _) hok

/-- A JSON call, cut before its closing delimiter. -/
theorem strict_agrees_json :
    let body := ['\x7b', '"', 'n', 'a', 'm', 'e', '"', ':', '"', 'f', '"', '\x7d']
    let fromStr := fun s => if s = body then some (.object [(['n', 'a', 'm', 'e'], .string ['f'])]) else none
    (ToolOutputRouter.new.route (parseStrictBytes fromStr) ([toolCallOpen ++ body, toolCallClose].map utf8Bytes)).calls =
      extractToolCallsFromText fromStr [toolCallOpen ++ body, toolCallClose].flatten := by
  intro body fromStr
  exact strict_agrees fromStr [toolCallOpen ++ body, toolCallClose] (by decide +kernel)

end Agree
end Hipscope.Hermes
