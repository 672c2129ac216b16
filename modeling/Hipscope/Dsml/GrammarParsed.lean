import Hipscope.Dsml.GrammarSound
import Hipscope.Dsml.StreamChunks

/-! The calls the stream parser returns for a text that the mask was kept to. -/
namespace Hipscope.Dsml.Grammar
open Text StreamEvent

section Split
variable {Call : Type} {parse : List Char → List Call} {state : StreamState} {body u q rest : List Char} {calls : List Call}

/-- Outside a block. -/
def Speaks (state : StreamState) : Prop := state ≠ .inToolCalls

private theorem ofChar_quiet (state : StreamState) (s : List Char) : .toolCalls calls ∉ s.flatMap (ofChar state) := by
  intro h
  obtain ⟨c, -, hc⟩ := List.mem_flatMap.1 h
  cases state <;> simp [ofChar] at hc

private theorem open_mem (hstate : Speaks state) : (toolCallsOpen, StreamState.inToolCalls) ∈ state.markers := by
  cases state with
  | normal => decide
  | inThink => decide
  | inToolCalls => exact absurd rfl hstate

/-- A marker outside blocks opens one, or is a think tag and stays outside. -/
private theorem marker_cases (hstate : Speaks state) {m : List Char × StreamState} (hm : m ∈ state.markers) :
    m = (toolCallsOpen, .inToolCalls) ∨ (Speaks m.2 ∧ '<' ∉ m.1.tail ∧ m.1 ≠ []) := by
  have hall : ∀ state : StreamState, state ≠ .inToolCalls → ∀ m ∈ state.markers,
      m = (toolCallsOpen, .inToolCalls) ∨ (m.2 ≠ .inToolCalls ∧ '<' ∉ m.1.tail ∧ m.1 ≠ []) := by
    intro state
    cases state <;> decide
  exact hall state hstate m hm

theorem Passes.drop {α : Type} {n a a' b : List α} (h : Passes n (a ++ a') b) : Passes n a' b := by
  intro i hi hocc
  refine h (a.length + i) (by rw [List.length_append]; omega) ?_
  rwa [List.append_assoc, ← List.drop_drop, List.drop_left]

/-- A marker that begins in a text lies in it when only `<` follows and the marker holds no more of them. -/
private theorem prefix_before_angle {p u t : List Char} (hp : '<' ∉ p.tail) (hu : u ≠ []) (h : p <+: u ++ '<' :: t) :
    p <+: u := by
  rcases List.prefix_or_prefix_of_prefix h (List.prefix_append u _) with hin | ⟨d, rfl⟩
  · exact hin
  · obtain ⟨x, u, rfl⟩ := List.exists_cons_of_ne_nil hu
    rw [List.prefix_append_right_inj] at h
    cases d with
    | nil => rw [List.append_nil]
    | cons y d =>
      rw [(List.cons_prefix_cons.1 h).1] at hp
      exact absurd (by simp) hp

/-- Text before a block yields no calls. -/
private theorem split_before (parse : List Char → List Call) (body : List Char) (hstate : Speaks state)
    (hu : Passes toolCallsOpen u (toolCallsOpen ++ rest)) :
    ∃ events, .toolCalls calls ∉ events ∧
      dsmlSplit parse state body 0 (u ++ (toolCallsOpen ++ rest)) = events ++ dsmlSplit parse .inToolCalls [] 0 rest := by
  induction hlen : u.length using Nat.strong_induction_on generalizing u state body with
  | _ n ih =>
    subst hlen
    have hopen : toolCallsOpen ++ rest = '<' :: (toolCallsOpen.tail ++ rest) := rfl
    cases u with
    | nil =>
      refine ⟨completed parse state body, ?_, ?_⟩
      · cases state with
        | normal => exact List.not_mem_nil
        | inThink => exact List.not_mem_nil
        | inToolCalls => exact absurd rfl hstate
      · rw [List.nil_append, split_marker _ _ (open_mem hstate) (List.prefix_append _ _), List.drop_left]
    | cons c u =>
      cases hmarker : state.marker? (c :: u ++ (toolCallsOpen ++ rest)) with
      | none =>
        have hclear : Clear state 1 (c :: u ++ (toolCallsOpen ++ rest)) := by
          intro i hi m hm hocc
          obtain rfl : i = 0 := by omega
          cases hmarker.symm.trans (StreamState.marker?_eq hm hocc)
        obtain ⟨events, hquiet, heq⟩ := ih u.length (Nat.lt_succ_self _) (body ++ [c]) hstate
          (Passes.drop (a := [c]) hu) rfl
        refine ⟨[c].flatMap (ofChar state) ++ events, ?_, ?_⟩
        · rw [List.mem_append, not_or]
          exact ⟨ofChar_quiet state [c], hquiet⟩
        · rw [split_text _ _ (by simp) hclear, List.append_assoc, ← heq]
          rfl
      | some m =>
        have hm := List.mem_of_find?_eq_some hmarker
        have hstarts : m.1 <+: c :: u ++ (toolCallsOpen ++ rest) :=
          List.isPrefixOf_iff_prefix.1 (by simpa using List.find?_some hmarker)
        rcases marker_cases hstate hm with rfl | ⟨hnext, htail, hne⟩
        · exact absurd hstarts (hu 0 (Nat.succ_pos _))
        · rw [hopen] at hstarts
          obtain ⟨u', hu'⟩ := prefix_before_angle htail (List.cons_ne_nil c u) hstarts
          rw [← hopen] at hstarts
          have hshort : u'.length < (c :: u).length := by
            have := congrArg List.length hu'
            have := List.length_pos_iff.2 hne
            rw [List.length_append] at *
            omega
          obtain ⟨events, hquiet, heq⟩ := ih u'.length hshort [] hnext
            (Passes.drop (a := m.1) (hu'.symm ▸ hu)) rfl
          refine ⟨events, hquiet, ?_⟩
          have hdone : completed parse state body = [] := by
            cases state with
            | normal => rfl
            | inThink => rfl
            | inToolCalls => exact absurd rfl hstate
          rw [split_marker _ _ hm hstarts, hdone, ← hu', List.append_assoc, List.drop_left, heq, List.nil_append]

/-- Text after the last block yields no calls. -/
private theorem split_after (hstate : Speaks state) (hu : Absent toolCallsOpen u) :
    .toolCalls calls ∉ dsmlSplit parse state body 0 u := by
  induction hlen : u.length using Nat.strong_induction_on generalizing u state body with
  | _ n ih =>
    subst hlen
    cases u with
    | nil =>
      cases state with
      | normal => exact List.not_mem_nil
      | inThink => exact List.not_mem_nil
      | inToolCalls => exact absurd rfl hstate
    | cons c u =>
      cases hmarker : state.marker? (c :: u) with
      | none =>
        have hclear : Clear state 1 (c :: u) := by
          intro i hi m hm hocc
          obtain rfl : i = 0 := by omega
          cases hmarker.symm.trans (StreamState.marker?_eq hm hocc)
        rw [split_text _ _ (by simp) hclear, List.mem_append, not_or]
        exact ⟨ofChar_quiet state _, ih u.length (Nat.lt_succ_self _) hstate (hu.drop 1) rfl⟩
      | some m =>
        have hm := List.mem_of_find?_eq_some hmarker
        have hstarts : m.1 <+: c :: u := List.isPrefixOf_iff_prefix.1 (by simpa using List.find?_some hmarker)
        rcases marker_cases hstate hm with rfl | ⟨hnext, -, hne⟩
        · exact absurd hstarts (hu 0)
        · have hdone : completed parse state body = [] := by
            cases state with
            | normal => rfl
            | inThink => rfl
            | inToolCalls => exact absurd rfl hstate
          have hpos := List.length_pos_iff.2 hne
          rw [split_marker _ _ hm hstarts, hdone, List.nil_append]
          exact ih _ (by rw [List.length_drop, List.length_cons]; omega) hnext (hu.drop _) rfl

/-- A block that is not closed yields no calls. -/
private theorem split_unclosed (hq : ¬ toolCallsClose <:+: q) : .toolCalls calls ∉ dsmlSplit parse .inToolCalls body 0 q := by
  have hclear : Clear .inToolCalls q.length q := by
    intro i _ m hm hocc
    rw [List.mem_singleton.1 hm] at hocc
    exact hq (infix_iff_drop.2 ⟨i, hocc⟩)
  rw [split_text _ _ (Nat.le_refl _) hclear, List.drop_length, List.mem_append, not_or]
  exact ⟨ofChar_quiet _ _, by simp [dsmlSplit]⟩

/-- A closed block yields the calls of its text. -/
private theorem split_block (hq : Passes toolCallsClose q (toolCallsClose ++ rest)) :
    dsmlSplit parse .inToolCalls [] 0 (q ++ (toolCallsClose ++ rest)) =
      .toolCalls (parse q) :: dsmlSplit parse .normal [] 0 rest := by
  have hclear : Clear .inToolCalls q.length (q ++ (toolCallsClose ++ rest)) := by
    intro i hi m hm hocc
    rw [List.mem_singleton.1 hm] at hocc
    exact hq i hi hocc
  have hclose : (toolCallsClose, StreamState.normal) ∈ StreamState.markers .inToolCalls := by decide
  have hnone : q.flatMap (ofChar .inToolCalls) = ([] : List (StreamEvent Call)) := by
    simp [List.flatMap_eq_nil_iff, ofChar]
  rw [split_text _ _ (by rw [List.length_append]; omega) hclear, List.take_left, List.drop_left, hnone,
    split_marker _ _ hclose (List.prefix_append _ _), List.drop_left]
  rfl

end Split

/-- A block that is open, its text so far free of the closing marker whatever follows. -/
def WithinBlock (tools : List ToolSchema) (s : List Char) : Prop :=
  ∃ front before q : List Char, Outside tools front ∧ Unopened before ∧ s = front ++ (before ++ (toolCallsOpen ++ q)) ∧
    ∀ b, Passes toolCallsClose q b

/-- Whole blocks and text behind them, or an unclosed block. -/
def Parsable (tools : List ToolSchema) (s : List Char) : Prop :=
  ∃ front rest : List Char, Outside tools front ∧ s = front ++ rest ∧
    (Absent toolCallsOpen rest ∨
      ∃ before q, rest = before ++ (toolCallsOpen ++ q) ∧ Unopened before ∧ ¬ toolCallsClose <:+: q)

section Within
variable {tools : List ToolSchema} {tool : ToolSchema} {variant : Bool} {i k : ℕ} {emitted : List ℕ} {s t w b : List Char}

private def insideLiterals : List (List Char) := [invokeOpenPrefix, toolOpenPrefixAlt, nameEnd, openParam, paramNameEnd,
  (stringTag true).tail, (stringTag false).tail]

private theorem passes_inside {l : List Char} (hl : l ∈ insideLiterals) (b : List Char) : Passes toolCallsClose l b := by
  have hall : ∀ l ∈ insideLiterals, ∀ i < l.length, ¬ toolCallsClose <+: l.drop i ∧ ¬ l.drop i <+: toolCallsClose := by decide
  exact passes_literal (hall l hl) b

theorem WithinBlock.append (h : WithinBlock tools s) (ht : ∀ b, Passes toolCallsClose t b) : WithinBlock tools (s ++ t) := by
  obtain ⟨front, before, q, hfront, hbefore, rfl, hq⟩ := h
  exact ⟨front, before, q ++ t, hfront, hbefore, by simp, fun b => (hq _).append (ht b)⟩

theorem WithinBlock.parsable (h : WithinBlock tools s) (ht : ¬ toolCallsClose <:+: t) : Parsable tools (s ++ t) := by
  obtain ⟨front, before, q, hfront, hbefore, rfl, hq⟩ := h
  refine ⟨front, before ++ (toolCallsOpen ++ (q ++ t)), hfront, by simp, .inr ⟨before, q ++ t, rfl, hbefore, fun hin => ?_⟩⟩
  obtain ⟨j, hj⟩ := infix_iff_drop.1 hin
  rcases Nat.lt_or_ge j q.length with hlt | hge
  · exact hq t j hlt hj
  · refine ht (infix_iff_drop.2 ⟨j - q.length, ?_⟩)
    rwa [List.drop_append, List.drop_eq_nil_of_le hge, List.nil_append] at hj

private theorem passes_space (hw : Blank w) (b : List Char) : Passes toolCallsClose w b := passes_blank ⟨_, rfl⟩ hw b

private theorem passes_callOpen (variant : Bool) (b : List Char) : Passes toolCallsClose (callOpen variant) b := by
  cases variant
  · exact passes_inside (by simp [callOpen, insideLiterals]) b
  · exact passes_inside (by simp [callOpen, insideLiterals]) b

private theorem passes_toolName (hname : ClearName tool.name) (b : List Char) :
    Passes toolCallsClose (tool.name ++ nameEnd) b :=
  Passes.append (passes_name (by decide) hname.2 _) (passes_inside (by simp [insideLiterals]) b)

private theorem passes_key {key : List Char} (hkey : ClearKey key) (b : List Char) :
    Passes toolCallsClose (key ++ paramNameEnd) b :=
  Passes.append (passes_name (by decide) (hkey.2 _ (by decide)) _) (passes_inside (by simp [insideLiterals]) b)

theorem InBlock.within (h : InBlock tools s) : WithinBlock tools s := by
  obtain ⟨front, before, calls, hfront, hbefore, hcalls, rfl⟩ := h
  exact ⟨front, before, _, hfront, hbefore, rfl, passes_calls fun call hcall => (hcalls call hcall).1⟩

theorem InCall.within (hschema : ClearSchema tools) (h : InCall tools variant i emitted s) : WithinBlock tools s := by
  obtain ⟨front, before, tool, params, hfront, hbefore, hi, hparams, -, rfl⟩ := h
  have hname := hschema.name tool (List.mem_of_getElem? hi)
  refine hfront.within.append fun b => (passes_space hbefore _).append (.append (passes_callOpen variant _) ?_)
  rw [← List.append_assoc]
  exact (passes_toolName hname _).append (passes_params (by decide) (fun p hp => (hparams p hp).1) b)

theorem InParam.within (hschema : ClearSchema tools) (h : InParam tools variant i k emitted s) : WithinBlock tools s := by
  obtain ⟨front, before, tool, hfront, hbefore, hi, hk, rfl⟩ := h
  refine (hfront.within hschema).append fun b => (passes_space hbefore _).append (.append
    (passes_inside (by simp [insideLiterals]) _) (passes_key ?_ b))
  refine hschema.params tool (List.mem_of_getElem? hi) _ ?_
  rw [ToolSchema.paramAt, List.getElem?_eq_getElem hk, Option.getD_some]
  exact List.getElem_mem hk

/-- A begun fixed marker does not hold the closing one. -/
private theorem begun_fixed {marker : List Char} (hmarker : marker ∈ fixedMarkers) (hb : b <+: marker) (hne : b ≠ marker) :
    ¬ toolCallsClose <:+: b := by
  have hall : ∀ marker ∈ fixedMarkers, toolCallsClose <:+: marker → marker = toolCallsClose := by decide
  intro hin
  have heq := hall marker hmarker (hin.trans hb.isInfix)
  exact hne (hb.eq_of_length_le (heq ▸ hin.length_le))

/-- A begun name does not hold the closing marker. -/
private theorem begun_name {name : List Char} (hpass : ∀ b, Passes toolCallsClose name b) (hb : b <+: name) :
    ¬ toolCallsClose <:+: b := by
  intro hin
  obtain ⟨j, hj⟩ := infix_iff_drop.1 (hin.trans hb.isInfix)
  have hlt : j < name.length := by
    have := hj.length_le
    have : toolCallsClose.length = 19 := rfl
    rw [List.length_drop] at *
    omega
  exact hpass [] j hlt (by rwa [List.append_nil])

private theorem valueText_unclosed {u : List Char} (hu : ValueText u) : ¬ toolCallsClose <:+: u := by
  have hslash : ['<', '/'] <+: toolCallsClose := ⟨_, rfl⟩
  rcases hu with hu | ⟨v, d, rfl, hv, hd, -, hlen⟩
  · exact fun hin => hu (hslash.isInfix.trans hin)
  · intro hin
    obtain ⟨x, d, rfl⟩ := List.exists_cons_of_ne_nil (List.ne_nil_of_length_pos (by omega) : d ≠ [])
    obtain ⟨j, hj⟩ := infix_iff_drop.1 hin
    rcases Nat.lt_or_ge j v.length with hlt | hge
    · have hx : x = '<' := (List.cons_prefix_cons.1 (hd : x :: d <+: '<' :: closeParam.tail)).1
      rw [hx] at hj
      exact not_close_before hv hlt (hslash.trans hj)
    · rw [List.drop_append, List.drop_eq_nil_of_le hge, List.nil_append] at hj
      have : toolCallsClose <:+: closeParam := (infix_iff_drop.2 ⟨_, hj⟩).trans hd.isInfix
      exact absurd this (by decide)

theorem Reading.parsable {σ : State} (hschema : ClearSchema tools) (h : Reading tools variant s σ b) : Parsable tools s := by
  cases h with
  | out h hu => exact ⟨_, _, h, rfl, .inl (memmem_none hu)⟩
  | toolCalls h hw hb =>
    obtain ⟨marker, hmarker, hpre, hne⟩ := hb
    obtain ⟨a, ha, rfl⟩ := List.mem_map.1 hmarker
    rw [← List.append_assoc]
    have hfixed : ∀ a ∈ Matcher.toolCallsAlternatives, a.1 ∈ fixedMarkers := by decide
    exact (h.within.append (passes_space hw)).parsable (begun_fixed (hfixed a ha) hpre hne)
  | name h hw hb hidx =>
    obtain ⟨marker, hmarker, hpre, -⟩ := hb
    obtain ⟨j, rfl⟩ := toolName_marker hmarker
    rw [← List.append_assoc, ← List.append_assoc]
    exact ((h.within.append (passes_space hw)).append (passes_callOpen variant)).parsable
      (begun_name (passes_toolName (hschema.toolAt j)) hpre)
  | call h hw hb =>
    obtain ⟨marker, hmarker, hpre, hne⟩ := hb
    obtain ⟨a, ha, rfl⟩ := List.mem_map.1 hmarker
    rw [← List.append_assoc]
    exact ((h.within hschema).append (passes_space hw)).parsable (begun_fixed (invokeBody_fixed a ha) hpre hne)
  | param h hw hb hidx =>
    obtain ⟨marker, hmarker, hpre, -⟩ := hb
    obtain ⟨j, rfl⟩ := paramName_marker hmarker
    rw [← List.append_assoc, ← List.append_assoc]
    exact (((h.within hschema).append (passes_space hw)).append (passes_inside (by simp [insideLiterals]))).parsable
      (begun_name (passes_key (hschema.paramAt _ j)) hpre)
  | attr h hb =>
    obtain ⟨marker, hmarker, hpre, hne⟩ := hb
    have hfixed : marker ∈ fixedMarkers := by
      have hall : ∀ marker ∈ [attrStringTrue, attrStringFalse], marker ∈ fixedMarkers := by decide
      exact hall marker hmarker
    exact (h.within hschema).parsable (begun_fixed hfixed hpre hne)
  | body h isString hu =>
    rw [← List.append_assoc]
    refine ((h.within hschema).append fun b => ?_).parsable (valueText_unclosed hu)
    cases isString
    · exact passes_inside (by simp [insideLiterals]) b
    · exact passes_inside (by simp [insideLiterals]) b

end Within

/-- Every block of calls holds calls of the schema only. -/
def Conforming (tools : List ToolSchema) (events : List (StreamEvent ToolCall)) : Prop :=
  ∀ calls, .toolCalls calls ∈ events → ∀ call ∈ calls, ∃ tool ∈ tools, tool.Admits call

section Sound
variable {tools : List ToolSchema} {fromStr : List Char → Option Value} {state : StreamState} {s body rest : List Char}

theorem WrittenBlock.Fits.conforming {block : WrittenBlock} (h : block.Fits tools) (hstate : Speaks state)
    (hrest : Conforming tools (dsmlSplit (parseToolCallsBody fromStr) .normal [] 0 rest)) :
    Conforming tools (dsmlSplit (parseToolCallsBody fromStr) state body 0 (block.text ++ rest)) := by
  have hclear : ∀ call ∈ block.calls, call.Clear := fun call hcall => (h.calls call hcall).1
  set inner := block.calls.flatMap WrittenCall.text ++ block.after with hinner
  have hshape : block.text ++ rest = block.before ++ (toolCallsOpen ++ (inner ++ (toolCallsClose ++ rest))) := by
    simp [WrittenBlock.text, hinner]
  have hpass : Passes toolCallsClose inner (toolCallsClose ++ rest) :=
    (passes_calls hclear _).append (passes_blank ⟨_, rfl⟩ h.after _)
  intro calls hmem
  obtain ⟨events, hquiet, heq⟩ := split_before (parseToolCallsBody fromStr) body hstate (h.before.beyond _)
  rw [hshape, heq, split_block hpass, List.mem_append, List.mem_cons] at hmem
  rcases hmem with hold | hblock | hlater
  · exact absurd hold hquiet
  · rw [hinner, parseToolCallsBody_written hclear h.after] at hblock
    cases hblock
    intro call hcall
    obtain ⟨written, hwritten, rfl⟩ := List.mem_map.1 hcall
    exact (h.calls written hwritten).2.admits fromStr
  · exact hrest calls hlater

theorem Outside.conforming (h : Outside tools s) (hstate : Speaks state)
    (hrest : ∀ state body, Speaks state → Conforming tools (dsmlSplit (parseToolCallsBody fromStr) state body 0 rest)) :
    Conforming tools (dsmlSplit (parseToolCallsBody fromStr) state body 0 (s ++ rest)) := by
  obtain ⟨blocks, hblocks, rfl⟩ := h
  induction blocks generalizing state body with
  | nil => exact hrest state body hstate
  | cons block blocks ih =>
    rw [List.flatMap_cons, List.append_assoc]
    refine (hblocks block (List.mem_cons_self ..)).conforming hstate ?_
    exact ih nofun fun b hb => hblocks b (List.mem_cons_of_mem block hb)

theorem Parsable.conforming (h : Parsable tools s) (hstate : Speaks state) :
    Conforming tools (dsmlSplit (parseToolCallsBody fromStr) state body 0 s) := by
  obtain ⟨front, rest, hfront, rfl, hrest⟩ := h
  refine hfront.conforming hstate fun state body hstate calls hmem => ?_
  rcases hrest with habsent | ⟨before, q, rfl, hbefore, hopen⟩
  · exact absurd hmem (split_after hstate habsent)
  · obtain ⟨events, hquiet, heq⟩ := split_before (parseToolCallsBody fromStr) body hstate (hbefore.beyond _)
    rw [heq, List.mem_append] at hmem
    rcases hmem with hold | hlater
    · exact absurd hold hquiet
    · exact absurd hlater (split_unclosed hopen)

end Sound

section Mask
variable {tools : List ToolSchema} {tokens chunks : List (List Char)}

/-- Tokens of which every letter keeps to the mask: the matcher never recovers, and whatever the
parser is fed with it returns calls of the schema. -/
theorem keepsTo_sound (hschema : ClearSchema tools) (hkeeps : (Matcher.new tools).keepsTo false tokens.flatten = true)
    (hchunks : chunks.flatten = tokens.flatten) (fromStr : List Char → Option Value) (inThink : Bool) :
    (Matcher.new tools).recovers tokens = false ∧
      Conforming tools ((StreamParser.start inThink).run (parseToolCallsBody fromStr) chunks) := by
  have hfree := hschema.prefixFree
  obtain ⟨hnone, variant, σ, b, hread⟩ := (reading_start tools).run hschema hfree hkeeps
  rw [List.nil_append] at hread
  refine ⟨(recovers_letters hfree.inOrder hnone).1, fun calls hmem => ?_⟩
  have hstart : Speaks (StreamParser.start inThink).state := by
    cases inThink <;> nofun
  rw [← StreamEvent.toolCalls_mem_merge, StreamParser.run_start, StreamEvent.toolCalls_mem_merge, hchunks] at hmem
  exact (hread.parsable hschema).conforming hstart calls hmem

/-- Every token is allowed where it comes. -/
def Matcher.honors (m : Matcher) : List (List Char) → Bool
  | [] => true
  | t :: ts => m.isTokenAllowed t && (m.advance t).1.honors ts

def readTool : ToolSchema := ⟨"read".toList, ["path".toList], ["path".toList]⟩

private theorem clear_readTool : ClearSchema [readTool] where
  name := by
    intro tool htool
    rw [List.mem_singleton.1 htool]
    exact ⟨by decide, by decide⟩
  params := by
    intro tool htool param hparam
    rw [List.mem_singleton.1 htool] at hparam
    rw [List.mem_singleton.1 hparam]
    exact ⟨by decide, by decide⟩
  required := by
    intro tool htool
    rw [List.mem_singleton.1 htool]
    exact fun name hname => hname

/-- A block with one call of `readTool`. -/
def readText : List Char :=
  toolCallsOpen ++ ['\n'] ++ invokeOpenPrefix ++ "read".toList ++ nameEnd ++ openParam ++ "path".toList ++ paramNameEnd ++
    attrStringTrue ++ "a<b".toList ++ closeParam ++ ['\n'] ++ closeInvoke ++ ['\n'] ++ toolCallsClose

theorem keepsTo_sound_read :
    (Matcher.new [readTool]).recovers [readText] = false ∧
      Conforming [readTool] ((StreamParser.start false).run (parseToolCallsBody fun _ => none) [readText]) :=
  keepsTo_sound clear_readTool (by decide +kernel) rfl (fun _ => none) false

/-- A block written in one token: only its opening marker is looked at. -/
def foreignText : List Char :=
  toolCallsOpen ++ invokeOpenPrefix ++ "drop".toList ++ nameEnd ++ closeInvoke ++ toolCallsClose

theorem one_token_unmasked :
    (Matcher.new [readTool]).honors [foreignText] = true ∧ (Matcher.new [readTool]).recovers [foreignText] = true ∧
      ¬ Conforming [readTool] ((StreamParser.start false).run (parseToolCallsBody fun _ => none) [foreignText]) := by
  refine ⟨by decide +kernel, by decide +kernel, fun h => ?_⟩
  have hrun : (StreamParser.start false).run (parseToolCallsBody fun _ => none) [foreignText] =
      [.toolCalls [⟨"drop".toList, .object []⟩]] := by rfl
  rw [hrun] at h
  obtain ⟨tool, htool, hname, -⟩ := h _ (List.mem_singleton_self _) _ (List.mem_singleton_self _)
  rw [List.mem_singleton.1 htool] at hname
  exact absurd hname (by decide)

end Mask
end Hipscope.Dsml.Grammar
