import Hipscope.Hermes.Parser
import Mathlib.Data.List.DropRight

/-! When the Hermes parser and the text helper read the same calls. -/
namespace Hipscope.Hermes
open Text
open Dsml (Value ToolCall isWhitespace trim mapInsert scan)

/-- No special token leaked into the body. -/
def Unleaked (raw : List Char) : Prop := ∀ token ∈ chatmlTokens, ¬ token <:+: raw

/-- The text both read a body from. -/
def working (raw : List Char) : List Char := (stripOpeners (trim raw).length (trim raw)).2

/-- The body is a JSON object with a string under `name`. -/
def JsonCall (fromStr : List Char → Option Value) (body : List Char) (val : Value) (name : List Char) : Prop :=
  body ≠ [] ∧ fromStr body = some val ∧ calledName val = some name

/-- A JSON call has a name, and its arguments are wrapped or absent. -/
def Wrapped (fromStr : List Char → Option Value) (body : List Char) : Prop :=
  ∀ val name, JsonCall fromStr body val name → name ≠ [] ∧ ((get val "arguments").isSome ∨ promoted val = [])

/-- A function tag that both read, with neither a parameter nor an object behind it. -/
def BareTag (body : List Char) : Prop :=
  ∃ name behind, body = functionOpen ++ (name ++ '>' :: behind) ∧ '>' ∉ name ∧
    isTagName (trim name) = true ∧ isHeadName (trim name) = true ∧
    ¬ parameterOpen <:+: parametersBody behind ∧ '\x7b' ∉ behind

/-- A body that is no JSON call is read by its tag by both alike, or by neither. -/
def TagsAgree (fromStr : List Char → Option Value) (body : List Char) : Prop :=
  (∃ val name, JsonCall fromStr body val name) ∨
    (headForm fromStr body = none ∧ extractQwenXmlToolCall fromStr body = none) ∨ BareTag body

section Trim
variable {s t : List Char} {n m : ℕ}

def trimEnd (s : List Char) : List Char := s.rdropWhile isWhitespace

theorem trim_eq (s : List Char) : trim s = trimEnd (trimStart s) := rfl

private theorem trimEnd_cons (c : Char) (s : List Char) :
    trimEnd (c :: s) = if trimEnd s = [] then (if isWhitespace c then [] else [c]) else c :: trimEnd s := by
  unfold trimEnd List.rdropWhile
  rw [List.reverse_cons, List.dropWhile_append]
  by_cases hs : s.reverse.dropWhile isWhitespace = []
  · cases hc : isWhitespace c <;> simp [hs, hc]
  · simp [hs]

private theorem trimStart_trimEnd (s : List Char) : trimStart (trimEnd s) = trimEnd (trimStart s) := by
  induction s with
  | nil => rfl
  | cons c s ih =>
    rw [trimEnd_cons]
    cases hc : isWhitespace c with
    | true =>
      have hstart : trimStart (c :: s) = trimStart s := List.dropWhile_cons_of_pos hc
      rw [hstart, ← ih]
      by_cases hs : trimEnd s = []
      · rw [if_pos hs, if_pos rfl, hs]
      · rw [if_neg hs]
        exact List.dropWhile_cons_of_pos hc
    | false =>
      have hstart : trimStart (c :: s) = c :: s := List.dropWhile_cons_of_neg (by simp [hc])
      rw [hstart, trimEnd_cons, hc]
      have hkeep : ∀ u, trimStart (c :: u) = c :: u := fun u => List.dropWhile_cons_of_neg (by simp [hc])
      split <;> exact hkeep _

theorem trimStart_idem (s : List Char) : trimStart (trimStart s) = trimStart s :=
  List.dropWhile_idempotent _ _

private theorem trimEnd_opener (s : List Char) : trimEnd (toolCallOpen ++ s) = toolCallOpen ++ trimEnd s := by
  unfold trimEnd List.rdropWhile
  rw [List.reverse_append, List.dropWhile_append]
  have hstay : toolCallOpen.reverse.dropWhile isWhitespace = toolCallOpen.reverse := by decide
  by_cases hs : s.reverse.dropWhile isWhitespace = []
  · simp [hs, hstay]
  · simp [hs]

theorem opener_trimEnd : toolCallOpen <+: trimEnd s ↔ toolCallOpen <+: s := by
  constructor
  · exact fun h => h.trans (List.rdropWhile_prefix _ _)
  · rintro ⟨t, rfl⟩
    rw [trimEnd_opener]
    exact List.prefix_append _ _

private theorem trimStart_length_le (s : List Char) : (trimStart s).length ≤ s.length :=
  (List.dropWhile_suffix _).length_le

private theorem stripOpeners_opener (n : ℕ) (s : List Char) :
    (stripOpeners (n + 1) (toolCallOpen ++ s)).2 = (stripOpeners n (trimStart s)).2 := by
  rw [stripOpeners, if_pos (List.prefix_append _ _), List.drop_left]

private theorem stripOpeners_other (n : ℕ) (h : ¬ toolCallOpen <+: s) : (stripOpeners n s).2 = s := by
  cases n with
  | zero => rfl
  | succ n => rw [stripOpeners, if_neg h]

/-- Trimming the end before the openers are stripped is trimming it afterwards. -/
private theorem stripOpeners_trimEnd (hn : (trimEnd s).length ≤ n) (hm : s.length ≤ m) :
    (stripOpeners n (trimEnd s)).2 = trimEnd (stripOpeners m s).2 := by
  induction m generalizing n s with
  | zero =>
    obtain rfl := List.eq_nil_of_length_eq_zero (Nat.le_zero.1 hm)
    exact stripOpeners_other n (by decide)
  | succ m ih =>
    by_cases hopen : toolCallOpen <+: s
    · obtain ⟨t, rfl⟩ := hopen
      have hlen : toolCallOpen.length = 11 := rfl
      rw [trimEnd_opener, List.length_append, hlen] at hn
      rw [List.length_append, hlen] at hm
      obtain ⟨n, rfl⟩ := Nat.exists_eq_add_of_le' (show 1 ≤ n by omega)
      have hle := trimStart_length_le t
      have hle' := trimStart_length_le (trimEnd t)
      rw [trimEnd_opener, stripOpeners_opener, stripOpeners_opener, trimStart_trimEnd]
      rw [trimStart_trimEnd] at hle'
      exact ih (by omega) (by omega)
    · rw [stripOpeners_other _ hopen, stripOpeners_other _ fun h => hopen (opener_trimEnd.1 h)]

private theorem trimStart_stripOpeners (hs : trimStart s = s) :
    trimStart (stripOpeners n s).2 = (stripOpeners n s).2 := by
  induction n generalizing s with
  | zero => exact hs
  | succ n ih =>
    by_cases hopen : toolCallOpen <+: s
    · obtain ⟨t, rfl⟩ := hopen
      rw [stripOpeners_opener]
      exact ih (trimStart_idem t)
    · rw [stripOpeners_other _ hopen, hs]

/-- The helper comes to the same text as the parser. -/
private theorem trim_stripOpeners (raw : List Char) :
    trim (stripOpeners (trimStart raw).length (trimStart raw)).2 = working raw := by
  rw [trim_eq, trimStart_stripOpeners (trimStart_idem raw)]
  exact (stripOpeners_trimEnd le_rfl le_rfl).symm

end Trim

section Leakage
variable {raw token : List Char}

private theorem removeAll_absent (rounds : ℕ) (hne : token ≠ []) (h : ¬ token <:+: raw) :
    removeAll token rounds raw = raw := by
  cases rounds with
  | zero => rfl
  | succ rounds =>
    rw [removeAll]
    cases hfind : memmem raw token with
    | none => rfl
    | some i => exact absurd (infix_iff_drop.2 ⟨i, (memmem_some hne hfind).1⟩) h

private theorem stripChatmlLeakage_unleaked (h : Unleaked raw) : stripChatmlLeakage raw = raw := by
  unfold stripChatmlLeakage
  have hne : ∀ token ∈ chatmlTokens, token ≠ [] := by decide
  unfold Unleaked at h
  revert h hne
  generalize chatmlTokens = tokens
  intro h hne
  induction tokens with
  | nil => rfl
  | cons token tokens ih =>
    rw [List.foldl_cons, removeAll_absent _ (hne _ List.mem_cons_self) (h _ List.mem_cons_self)]
    exact ih (fun t ht => h t (List.mem_cons_of_mem _ ht)) fun t ht => hne t (List.mem_cons_of_mem _ ht)

end Leakage

section Forms
variable (fromStr : List Char → Option Value) {raw body : List Char}

private def pair (call : ParsedToolCall) : List Char × Value := (call.name, call.arguments)

private def pair' (call : ToolCall) : List Char × Value := (call.name, call.arguments)

private theorem trimQuotes_headName {name : List Char} (h : isHeadName name = true) : trimQuotes name = name := by
  have hplain : ∀ c ∈ name, ¬ (decide (c = '"') = true) := by
    intro c hc hquote
    have hall := List.all_eq_true.1 (Bool.and_eq_true_iff.1 h).2 c hc
    rw [of_decide_eq_true hquote] at hall
    exact absurd hall (by decide)
  have hdrop : ∀ s : List Char, (∀ c ∈ s, ¬ (decide (c = '"') = true)) → (s.dropWhile fun c => c = '"') = s := by
    intro s hs
    cases s with
    | nil => rfl
    | cons c s => exact List.dropWhile_cons_of_neg (hs c List.mem_cons_self)
  unfold trimQuotes
  rw [hdrop name hplain, hdrop name.reverse fun c hc => hplain c (List.mem_reverse.1 hc), List.reverse_reverse]

private theorem memmem_tag_end {name behind : List Char} (h : '>' ∉ name) :
    memmem (name ++ '>' :: behind) ['>'] = some name.length :=
  memmem_passes (by decide) (passes_head h _)

private theorem balancedObject_none {s : List Char} (h : '\x7b' ∉ s) : balancedObject s = none := by
  unfold balancedObject
  have hfind : memmem s ['\x7b'] = none := memmem_passes_none (by decide) (passes_head h _)
  rw [hfind]
  rfl

private theorem trim_subset (s : List Char) : trim s ⊆ s := by
  rw [trim_eq]
  exact fun c hc => (List.dropWhile_sublist _).subset ((List.rdropWhile_prefix _ _).subset hc)

/-- A bare tag is a call without arguments, to the parser and to the helper. -/
private theorem bareTag_read (h : BareTag body) :
    ∃ name, headForm fromStr body = some ⟨name, emptyObject, true⟩ ∧
      extractQwenXmlToolCall fromStr body = some ⟨name, emptyObject⟩ := by
  obtain ⟨name, behind, rfl, hclose, htag, hhead, hparameter, hbrace⟩ := h
  refine ⟨trim name, ?_, ?_⟩
  · have hplain : ¬ "<plain>".toList <+: functionOpen ++ (name ++ '>' :: behind) := by
      intro h
      have hcut : "<p".toList <+: functionOpen ++ (name ++ '>' :: behind) := List.IsPrefix.trans (by decide) h
      exact absurd (List.prefix_of_prefix_length_le hcut (List.prefix_append functionOpen _) (by decide)) (by decide)
    have hfirst :
        headCall fromStr (functionOpen ++ (name ++ '>' :: behind)) ("<plain>".toList, "</param>".toList) = none :=
      if_neg hplain
    have hobject : extractFirstJsonObject fromStr (trim behind) = none := by
      unfold extractFirstJsonObject
      rw [balancedObject_none fun hc => hbrace (trim_subset _ hc)]
      rfl
    have hsecond : headCall fromStr (functionOpen ++ (name ++ '>' :: behind)) (functionOpen, ">".toList) =
        some ⟨trim name, emptyObject, true⟩ := by
      unfold headCall
      have hfind : memmem (name ++ '>' :: behind) ">".toList = some name.length := memmem_tag_end hclose
      have hbehind : (name ++ '>' :: behind).drop (name.length + ">".toList.length) = behind := by
        rw [← List.drop_drop, List.drop_left]
        rfl
      simp only [if_pos (List.prefix_append functionOpen _), List.drop_left, hfind, Option.bind_eq_bind,
        Option.bind_some, List.take_left, trimQuotes_headName hhead, if_pos hhead, hbehind, hobject]
      rfl
    unfold headForm headCandidates
    rw [List.findSome?_cons, hfirst, List.findSome?_cons, hsecond]
  · have hstart : trimStart (functionOpen ++ (name ++ '>' :: behind)) = functionOpen ++ (name ++ '>' :: behind) :=
      List.dropWhile_cons_of_neg (by decide)
    have hnone : memmem (parametersBody behind) parameterOpen = none := by
      cases hfind : memmem (parametersBody behind) parameterOpen with
      | none => rfl
      | some i => exact absurd (infix_iff_drop.2 ⟨i, (memmem_some (by decide) hfind).1⟩) hparameter
    have hbehind : (name ++ '>' :: behind).drop (name.length + 1) = behind := by
      rw [← List.drop_drop, List.drop_left]
      rfl
    unfold extractQwenXmlToolCall
    simp only [hstart, if_pos (List.prefix_append functionOpen _), List.drop_left, memmem_tag_end hclose,
      Option.bind_eq_bind, Option.bind_some, List.take_left, if_pos htag, hbehind, qwenXmlParameters, hnone]
    rfl

private theorem asStr_named {val : Value} {name : List Char} (h : calledName val = some name) (hne : name ≠ []) :
    namedCall val = some ⟨name, (get val "arguments").getD emptyObject⟩ := by
  unfold calledName at h
  unfold namedCall
  rw [h]
  exact if_neg (by simpa using hne)

private theorem namedHermes_named {val : Value} {name : List Char} (repaired : Bool) (h : calledName val = some name) :
    ∃ call, namedHermes repaired val = some call := by
  unfold namedHermes
  rw [h]
  cases get val "arguments" with
  | some arguments => exact ⟨_, rfl⟩
  | none =>
    by_cases hflat : (promoted val).isEmpty = true
    · exact ⟨_, if_pos hflat⟩
    · exact ⟨_, if_neg hflat⟩

private theorem namedHermes_name {val : Value} {name : List Char} {repaired : Bool} {call : ParsedToolCall}
    (h : calledName val = some name) (hread : namedHermes repaired val = some call) : call.name = name := by
  unfold namedHermes at hread
  rw [h] at hread
  cases hargs : get val "arguments" with
  | some arguments =>
    rw [hargs] at hread
    rw [← Option.some.inj hread]
  | none =>
    rw [hargs] at hread
    rcases ite_eq_iff.1 hread with ⟨-, hcall⟩ | ⟨-, hcall⟩
    · rw [← Option.some.inj hcall]
    · rw [← Option.some.inj hcall]

private theorem namedHermes_flat {val : Value} {name : List Char} (repaired : Bool) (h : calledName val = some name)
    (hargs : get val "arguments" = none) (hflat : promoted val ≠ []) :
    namedHermes repaired val = some ⟨name, .object (promoted val), true⟩ := by
  unfold namedHermes
  rw [h, Option.bind_eq_bind, Option.bind_some, hargs]
  exact if_neg (by simpa using hflat)

private theorem namedHermes_wrapped {val : Value} {name : List Char} (repaired : Bool) (h : calledName val = some name)
    (hwrapped : (get val "arguments").isSome ∨ promoted val = []) :
    (namedHermes repaired val).map pair = some (name, (get val "arguments").getD emptyObject) := by
  unfold namedHermes
  rw [h]
  cases hargs : get val "arguments" with
  | some arguments => rfl
  | none =>
    rw [hargs] at hwrapped
    have hflat : promoted val = [] := hwrapped.resolve_left (by decide)
    simp [hflat, pair]

private theorem namedHermes_unnamed {val : Value} (repaired : Bool) (h : calledName val = none) :
    namedHermes repaired val = none := by
  unfold namedHermes
  rw [h]
  rfl

private theorem namedCall_unnamed {val : Value} (h : calledName val = none) : namedCall val = none := by
  unfold calledName at h
  unfold namedCall
  rw [h]
  rfl

private theorem not_jsonCall (hbody : body ≠ []) (h : ¬ ∃ val name, JsonCall fromStr body val name) :
    (∀ repaired, (fromStr body).bind (namedHermes repaired) = none) ∧ (fromStr body).bind namedCall = none := by
  cases hval : fromStr body with
  | none => exact ⟨fun _ => rfl, rfl⟩
  | some val =>
    cases hname : calledName val with
    | none => exact ⟨fun repaired => namedHermes_unnamed repaired hname, namedCall_unnamed hname⟩
    | some name => exact absurd ⟨val, name, hbody, hval, hname⟩ h

private theorem recovered_pair (call : Option ToolCall) :
    (call.map fun call => (⟨call.name, call.arguments, true⟩ : ParsedToolCall)).map pair = call.map pair' := by
  rw [Option.map_map]
  rfl

/-- Behind the JSON forms the two agree when they agree on the tags. -/
private theorem fallback_eq
    (htags : (headForm fromStr body = none ∧ extractQwenXmlToolCall fromStr body = none) ∨ BareTag body) :
    ((headForm fromStr body).or ((recovered fromStr body).map fun call => ⟨call.name, call.arguments, true⟩)).map pair =
      ((extractQwenXmlToolCall fromStr body).or (recovered fromStr body)).map pair' := by
  rcases htags with ⟨hhead, hxml⟩ | hbare
  · rw [hhead, hxml, Option.none_or, Option.none_or]
    exact recovered_pair _
  · obtain ⟨name, hhead, hxml⟩ := bareTag_read fromStr hbare
    rw [hhead, hxml]
    rfl

private theorem hermesBody_unfold (raw : List Char) : ∃ repaired, hermesBody fromStr raw =
    if (working raw).isEmpty then none else parseOneHermes fromStr (working raw) repaired := ⟨_, rfl⟩

private theorem parseOneToolCallBody_unleaked (h : Unleaked raw) : parseOneToolCallBody fromStr raw =
    if (working raw).isEmpty then none
    else ((fromStr (working raw)).bind namedCall).or
      ((extractQwenXmlToolCall fromStr (working raw)).or (recovered fromStr (working raw))) := by
  unfold parseOneToolCallBody
  simp only [stripChatmlLeakage_unleaked h, trim_stripOpeners]

private theorem hermesBody_call {val : Value} {name : List Char} (hcall : JsonCall fromStr (working raw) val name) :
    ∃ repaired, hermesBody fromStr raw = namedHermes repaired val := by
  obtain ⟨repaired, hbody⟩ := hermesBody_unfold fromStr raw
  obtain ⟨hne, hval, hname⟩ := hcall
  refine ⟨repaired, ?_⟩
  rw [hbody, if_neg (by simpa using hne), parseOneHermes, hval, Option.bind_some]
  obtain ⟨call, hread⟩ := namedHermes_named repaired hname
  rw [hread, Option.some_or]

private theorem parseOneToolCallBody_call (hraw : Unleaked raw) {val : Value} {name : List Char}
    (hcall : JsonCall fromStr (working raw) val name) (hne : name ≠ []) :
    parseOneToolCallBody fromStr raw = some ⟨name, (get val "arguments").getD emptyObject⟩ := by
  obtain ⟨hbody, hval, hname⟩ := hcall
  rw [parseOneToolCallBody_unleaked fromStr hraw, if_neg (by simpa using hbody), hval, Option.bind_some,
    asStr_named hname hne, Option.some_or]

/-- On one body the two read the same call. -/
private theorem hermesBody_eq (hraw : Unleaked raw) (hjson : Wrapped fromStr (working raw))
    (htags : TagsAgree fromStr (working raw)) :
    (hermesBody fromStr raw).map pair = (parseOneToolCallBody fromStr raw).map pair' := by
  by_cases hcall : ∃ val name, JsonCall fromStr (working raw) val name
  · obtain ⟨val, name, hcall⟩ := hcall
    obtain ⟨hne, hwrapped⟩ := hjson val name hcall
    obtain ⟨repaired, hread⟩ := hermesBody_call fromStr hcall
    rw [hread, namedHermes_wrapped repaired hcall.2.2 hwrapped, parseOneToolCallBody_call fromStr hraw hcall hne]
    rfl
  · obtain ⟨repaired, hbody⟩ := hermesBody_unfold fromStr raw
    rw [hbody, parseOneToolCallBody_unleaked fromStr hraw]
    by_cases hempty : (working raw).isEmpty = true
    · rw [if_pos hempty, if_pos hempty]
      rfl
    · obtain ⟨hhermes, hhelper⟩ := not_jsonCall fromStr (by simpa using hempty) hcall
      rw [if_neg hempty, if_neg hempty, parseOneHermes, hhermes, hhelper, Option.none_or, Option.none_or]
      exact fallback_eq fromStr (htags.resolve_left hcall)

private theorem nameValue_ne_nil {afterName name : List Char} (h : nameValue afterName = some name) : name ≠ [] := by
  unfold nameValue at h
  simp only [Option.bind_eq_bind, Option.bind_eq_some_iff, Option.ite_none_right_eq_some,
    Bool.and_eq_true, Bool.not_eq_true'] at h
  obtain ⟨-, quote, -, -, stop, -, ⟨hne, -⟩, hname⟩ := h
  rintro rfl
  rw [Option.some.inj hname] at hne
  exact absurd hne (by decide)

private theorem nameFrom_ne_nil {s : List Char} {rounds searchFrom : ℕ} {name : List Char}
    (h : nameFrom s rounds searchFrom = some name) : name ≠ [] := by
  induction rounds generalizing searchFrom with
  | zero => cases h
  | succ rounds ih =>
    rw [nameFrom] at h
    split at h
    · cases h
    · rcases Option.or_eq_some_iff.1 h with hvalue | ⟨-, hrest⟩
      · exact nameValue_ne_nil (Option.ite_none_right_eq_some.1 hvalue).2
      · exact ih hrest

/-- The helper never reads a call without a name. -/
private theorem parsed_name_ne_nil {call : ToolCall} (h : parseOneToolCallBody fromStr raw = some call) :
    call.name ≠ [] := by
  unfold parseOneToolCallBody at h
  dsimp only at h
  split_ifs at h
  rcases Option.or_eq_some_iff.1 h with hjson | ⟨-, h⟩
  · obtain ⟨val, -, hval⟩ := Option.bind_eq_some_iff.1 hjson
    unfold namedCall at hval
    dsimp only at hval
    split_ifs at hval with hempty
    obtain rfl := Option.some.inj hval
    simpa using hempty
  · rcases Option.or_eq_some_iff.1 h with hxml | ⟨-, hrelaxed⟩
    · unfold extractQwenXmlToolCall at hxml
      simp only [Option.bind_eq_bind, Option.ite_none_right_eq_some, Option.bind_eq_some_iff] at hxml
      obtain ⟨-, stop, -, htag, arguments, -, hcall⟩ := hxml
      obtain rfl := Option.some.inj hcall
      intro hnil
      rw [show trim _ = [] from hnil] at htag
      exact absurd htag (by decide)
    · unfold recovered at hrelaxed
      obtain ⟨name, hname, hcall⟩ := Option.bind_eq_some_iff.1 hrelaxed
      have hsame : call.name = name := by
        split at hcall
        · rw [← Option.some.inj hcall]
        · split_ifs at hcall
          rw [← Option.some.inj hcall]
      rw [hsame]
      exact nameFrom_ne_nil hname

/-- A call that both read alike has its arguments wrapped, or none. -/
private theorem wrapped_of_eq (hraw : Unleaked raw) {val : Value} {name : List Char}
    (hcall : JsonCall fromStr (working raw) val name) (hne : name ≠ [])
    (heq : (hermesBody fromStr raw).map pair = (parseOneToolCallBody fromStr raw).map pair') :
    (get val "arguments").isSome ∨ promoted val = [] := by
  rw [or_iff_not_imp_left, Option.not_isSome_iff_eq_none]
  intro hargs
  by_contra hflat
  obtain ⟨repaired, hread⟩ := hermesBody_call fromStr hcall
  rw [hread, namedHermes_flat repaired hcall.2.2 hargs hflat, parseOneToolCallBody_call fromStr hraw hcall hne,
    hargs] at heq
  have hsame : Value.object (promoted val) = emptyObject := (Prod.mk.inj (Option.some.inj heq)).2
  exact hflat (Value.object.inj hsame)

private theorem filterMap_pointwise {α β : Type*} {f g : α → Option β} {l : List α}
    (hsome : ∀ a ∈ l, (f a).isSome = (g a).isSome) (h : l.filterMap f = l.filterMap g) : ∀ a ∈ l, f a = g a := by
  induction l with
  | nil => exact fun a ha => absurd ha List.not_mem_nil
  | cons b l ih =>
    have hb := hsome b List.mem_cons_self
    have hrest : ∀ a ∈ l, (f a).isSome = (g a).isSome := fun a ha => hsome a (List.mem_cons_of_mem b ha)
    have hsplit : f b = g b ∧ l.filterMap f = l.filterMap g := by
      cases hf : f b with
      | none =>
        rw [hf] at hb
        have hg : g b = none := Option.isSome_eq_false_iff.1 hb.symm |> Option.isNone_iff_eq_none.1
        rw [List.filterMap_cons_none hf, List.filterMap_cons_none hg] at h
        exact ⟨hg.symm, h⟩
      | some x =>
        rw [hf] at hb
        obtain ⟨y, hg⟩ := Option.isSome_iff_exists.1 hb.symm
        rw [List.filterMap_cons_some hf, List.filterMap_cons_some hg] at h
        obtain ⟨rfl, htail⟩ := List.cons.inj h
        exact ⟨hg.symm, htail⟩
    intro a ha
    rcases List.mem_cons.1 ha with rfl | ha
    · exact hsplit.1
    · exact ih hrest hsplit.2 a ha

section Texts
variable (text : List Char)

private theorem hermesPairs_eq :
    hermesPairs fromStr text = (bodies text).filterMap fun raw => (hermesBody fromStr raw).map pair := by
  have hmap : hermesPairs fromStr text = ((bodies text).filterMap (hermesBody fromStr)).map pair := by
    unfold hermesPairs parse
    cases hopen : memmem text toolCallOpen with
    | some start => rfl
    | none =>
      have hnone : bodies text = [] := by
        have hnext : nextBody text = none := by
          unfold nextBody
          rw [hopen]
          rfl
        unfold bodies
        rw [scan, hnext]
      rw [hnone]
      rfl
  rw [hmap, List.map_filterMap]

private theorem emitPairs_eq :
    emitPairs fromStr text = (bodies text).filterMap fun raw => (parseOneToolCallBody fromStr raw).map pair' :=
  List.map_filterMap

variable {text}

/-- The two read the same calls from a text without leaked tokens whose JSON calls have a name and no flat
arguments, and whose other bodies are read by their tags alike. -/
private theorem pairs_eq (h : ∀ raw ∈ bodies text, Unleaked raw ∧ TagsAgree fromStr (working raw))
    (hjson : ∀ raw ∈ bodies text, Wrapped fromStr (working raw)) :
    hermesPairs fromStr text = emitPairs fromStr text := by
  rw [hermesPairs_eq, emitPairs_eq]
  apply List.filterMap_congr
  intro raw hmem
  exact hermesBody_eq fromStr (h raw hmem).1 (hjson raw hmem) (h raw hmem).2

private theorem name_ne_nil_of_eq (heq : hermesPairs fromStr text = emitPairs fromStr text) {raw : List Char}
    (hmem : raw ∈ bodies text) {val : Value} {name : List Char} (hcall : JsonCall fromStr (working raw) val name) :
    name ≠ [] := by
  rintro rfl
  obtain ⟨repaired, hread⟩ := hermesBody_call fromStr hcall
  obtain ⟨call, hnamed⟩ := namedHermes_named repaired hcall.2.2
  have hpair : pair call ∈ hermesPairs fromStr text := by
    rw [hermesPairs_eq]
    exact List.mem_filterMap.2 ⟨raw, hmem, by rw [hread, hnamed]; rfl⟩
  rw [heq, emitPairs_eq] at hpair
  obtain ⟨other, -, hother⟩ := List.mem_filterMap.1 hpair
  obtain ⟨found, hfound, hsame⟩ := Option.map_eq_some_iff.1 hother
  refine parsed_name_ne_nil fromStr hfound ?_
  exact (Prod.mk.inj hsame).1.trans (namedHermes_name hcall.2.2 hnamed)

private theorem wrapped_of_pairs_eq (h : ∀ raw ∈ bodies text, Unleaked raw ∧ TagsAgree fromStr (working raw))
    (heq : hermesPairs fromStr text = emitPairs fromStr text) : ∀ raw ∈ bodies text, Wrapped fromStr (working raw) := by
  have hsome : ∀ raw ∈ bodies text, ((hermesBody fromStr raw).map pair).isSome =
      ((parseOneToolCallBody fromStr raw).map pair').isSome := by
    intro raw hmem
    by_cases hcall : ∃ val name, JsonCall fromStr (working raw) val name
    · obtain ⟨val, name, hcall⟩ := hcall
      obtain ⟨repaired, hread⟩ := hermesBody_call fromStr hcall
      obtain ⟨call, hnamed⟩ := namedHermes_named repaired hcall.2.2
      have hne := name_ne_nil_of_eq fromStr heq hmem hcall
      rw [hread, hnamed, parseOneToolCallBody_call fromStr (h raw hmem).1 hcall hne]
      rfl
    · rw [hermesBody_eq fromStr (h raw hmem).1 (fun val name hjson => absurd ⟨val, name, hjson⟩ hcall) (h raw hmem).2]
  have hlists := heq
  rw [hermesPairs_eq, emitPairs_eq] at hlists
  intro raw hmem val name hcall
  have hne := name_ne_nil_of_eq fromStr heq hmem hcall
  exact ⟨hne, wrapped_of_eq fromStr (h raw hmem).1 hcall hne (filterMap_pointwise hsome hlists raw hmem)⟩

/-- Where no special token leaked and the tags are read alike, the two readers agree on exactly the texts whose JSON
calls have a name, and arguments that are wrapped or absent. -/
theorem hermesPairs_agree (fromStr : List Char → Option Value) (text : List Char)
    (h : ∀ raw ∈ bodies text, Unleaked raw ∧ TagsAgree fromStr (working raw)) :
    hermesPairs fromStr text = emitPairs fromStr text ↔ ∀ raw ∈ bodies text, Wrapped fromStr (working raw) :=
  ⟨wrapped_of_pairs_eq fromStr h, pairs_eq fromStr h⟩

end Texts
end Forms

section Flat

def flatBody : List Char := "\x7b\"name\":\"f\",\"x\":1\x7d".toList

def wrappedBody : List Char := "\x7b\"name\":\"f\",\"arguments\":\x7b\x7d\x7d".toList

/-- The JSON reader on the two bodies. -/
def flatRead (s : List Char) : Option Value :=
  if s = flatBody then
    some (.object [("name".toList, .string ['f']), (['x'], .number ⟨['1'], by decide, by decide⟩)])
  else if s = wrappedBody then some (.object [("name".toList, .string ['f']), ("arguments".toList, emptyObject)])
  else none

def asText (body : List Char) : List Char := toolCallOpen ++ body ++ toolCallClose

theorem hermesPairs_agree_wrapped :
    hermesPairs flatRead (asText wrappedBody) = emitPairs flatRead (asText wrappedBody) := by
  have hbodies : bodies (asText wrappedBody) = [wrappedBody] := by decide +kernel
  have hworking : working wrappedBody = wrappedBody := by decide +kernel
  have hread : flatRead wrappedBody =
      some (.object [("name".toList, .string ['f']), ("arguments".toList, emptyObject)]) := rfl
  refine (hermesPairs_agree flatRead (asText wrappedBody) ?_).2 ?_
  · rw [hbodies]
    intro raw hraw
    rw [List.mem_singleton.1 hraw, hworking]
    refine ⟨?_, .inl ⟨_, ['f'], by decide, hread, rfl⟩⟩
    unfold Unleaked
    decide +kernel
  · rw [hbodies]
    rintro raw hraw val name ⟨-, hval, hname⟩
    rw [List.mem_singleton.1 hraw, hworking, hread] at hval
    obtain rfl := Option.some.inj hval
    obtain rfl := Option.some.inj hname
    exact ⟨by decide, .inl rfl⟩

/-- A flat call keeps its argument for the parser and loses it for the helper. -/
theorem flat_call_read_apart : ¬ ∀ (fromStr : List Char → Option Value) (text : List Char),
    hermesPairs fromStr text = emitPairs fromStr text := by
  intro h
  have hhermes : (hermesPairs flatRead (asText flatBody)).map (fun p => (promoted p.2).length) = [1] := by
    decide +kernel
  have hemit : (emitPairs flatRead (asText flatBody)).map (fun p => (promoted p.2).length) = [0] := by
    decide +kernel
  rw [h, hemit] at hhermes
  exact absurd hhermes (by decide)

end Flat
end Hipscope.Hermes
