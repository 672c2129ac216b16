import Hipscope.Dsml.GrammarPath

/-! Runs of the matcher along a text it follows, however the text is cut into tokens. -/
namespace Hipscope.Dsml.Grammar
open Text

/-- A `<` of a value stands last. -/
def endsOpen (B : List Marked) : Prop := B.getLast? = some ('<', true)

instance (B : List Marked) : Decidable (endsOpen B) := inferInstanceAs (Decidable (_ = _))

theorem endsOpen_append {D B : List Marked} (hD : ¬ endsOpen D) : endsOpen (D ++ B) ↔ endsOpen B := by
  cases B with
  | nil => simpa [endsOpen] using hD
  | cons x B => rw [endsOpen, endsOpen, List.getLast?_append_cons]

theorem endsOpen_behind {A B : List Marked} (hB : B ≠ []) : endsOpen (A ++ B) ↔ endsOpen B := by
  rw [endsOpen, endsOpen, List.getLast?_append_of_ne_nil A hB]

theorem endsOpen_valueText (v : List Char) : endsOpen (valueText v) ↔ v.getLast? = some '<' := by
  rw [endsOpen, valueText, List.getLast?_map]
  cases v.getLast? with
  | none => simp
  | some c => simp

@[simp] theorem structural_nil : structural [] = [] := rfl

theorem not_endsOpen_structural (s : List Char) : ¬ endsOpen (structural s) := by
  rw [endsOpen, structural, List.getLast?_map]
  intro h
  obtain ⟨c, -, hc⟩ := Option.map_eq_some_iff.1 h
  cases hc

theorem endsOpen_structural_iff (s : List Char) : endsOpen (structural s) ↔ structural s = [('<', true)] := by
  refine iff_of_false (not_endsOpen_structural s) fun h => not_endsOpen_structural s ?_
  rw [h]
  rfl

/-- What a matcher that stays waits for: `B` is in its buffer and `R` is still to come. -/
inductive Waiting (tools : List ToolSchema) : State → List Marked → List Marked → Prop where
  | done : Waiting tools .out [] []
  | space {σ : State} {c : Char} {M : List Marked} (hσ : Matcher.stateAllowsLeadingWs σ = true)
      (hc : Matcher.isWs c = true) (h : Legal tools σ M) : Waiting tools σ [] ((c, false) :: M)
  | tag {σ σ' : State} {marker c d : List Char} {M : List Marked} (hahead : Ahead tools σ marker σ' (marker ++ plain M))
      (h : Legal tools σ' M) (hsplit : marker = c ++ d) (hd : d ≠ []) :
      Waiting tools σ (structural c) (structural d ++ M)
  | value {toolIdx paramIdx : ℕ} {emittedParams : List ℕ} {v : List Char} {M : List Marked} (hv : ¬ ['<', '/'] <:+: v)
      (h : Legal tools (.inInvokeBody toolIdx (Matcher.addEmitted emittedParams paramIdx)) M) :
      Waiting tools (.inParamBody toolIdx paramIdx emittedParams) [] (valueText v ++ (structural closeParam ++ M))
  | held {toolIdx paramIdx : ℕ} {emittedParams : List ℕ} {v : List Char} {M : List Marked}
      (hv : ¬ ['<', '/'] <:+: '<' :: v)
      (h : Legal tools (.inInvokeBody toolIdx (Matcher.addEmitted emittedParams paramIdx)) M) :
      Waiting tools (.inParamBody toolIdx paramIdx emittedParams) [('<', true)]
        (valueText v ++ (structural closeParam ++ M))
  | closing {toolIdx paramIdx : ℕ} {emittedParams : List ℕ} {c d : List Char} {M : List Marked}
      (hsplit : closeParam = c ++ d) (hc : c ≠ []) (hd : d ≠ [])
      (h : Legal tools (.inInvokeBody toolIdx (Matcher.addEmitted emittedParams paramIdx)) M) :
      Waiting tools (.inParamBody toolIdx paramIdx emittedParams) (structural c) (structural d ++ M)

section Wait
variable {tools : List ToolSchema} {σ : State} {B R : List Marked}

theorem Waiting.legal (h : Waiting tools σ B R) : Legal tools σ (B ++ R) := by
  cases h with
  | done => exact .done
  | space hσ hc h => exact .space hσ hc h
  | tag hahead h hsplit hd =>
    rw [← List.append_assoc, ← structural_append, ← hsplit]
    exact .tag hahead h
  | value hv h => exact .value hv h
  | @held _ _ _ v M hv h => exact .value (v := '<' :: v) hv h
  | closing hsplit hc hd h =>
    rw [← List.append_assoc, ← structural_append, ← hsplit]
    exact .value (v := []) (by decide) h

theorem Legal.waiting (h : Legal tools σ R) : Waiting tools σ [] R := by
  cases h with
  | done => exact .done
  | space hσ hc h => exact .space hσ hc h
  | tag hahead h => exact .tag (c := []) hahead h rfl hahead.nonempty
  | value hv h => exact .value hv h

private theorem structural_ne_nil {d : List Char} {M : List Marked} (hd : d ≠ []) : structural d ++ M ≠ [] := by
  simp [structural, hd]

/-- Nothing is to come only outside the block. -/
theorem Waiting.final (h : Waiting tools σ B R) (hR : R = []) : σ = .out ∧ B = [] := by
  cases h with
  | done => exact ⟨rfl, rfl⟩
  | space hσ hc h => cases hR
  | tag hahead h hsplit hd => exact absurd hR (structural_ne_nil hd)
  | value hv h => exact absurd (List.append_eq_nil_iff.1 hR).2 (structural_ne_nil (by decide))
  | held hv h => exact absurd (List.append_eq_nil_iff.1 hR).2 (structural_ne_nil (by decide))
  | closing hsplit hc hd h => exact absurd hR (structural_ne_nil hd)

end Wait

section Step
variable {tools : List ToolSchema} {σ : State} {B R : List Marked}

/-- Space in front may be dropped. -/
theorem Legal.dropSpace (hσ : Matcher.stateAllowsLeadingWs σ = true) (h : Legal tools σ (B ++ R)) :
    Legal tools σ (B.dropWhile (fun x => Matcher.isWs x.1) ++ R) := by
  induction B with
  | nil => exact h
  | cons x B ih =>
    by_cases hx : Matcher.isWs x.1 = true
    · rw [List.dropWhile_cons_of_pos (by exact hx)]
      refine ih ?_
      generalize hW : x :: B ++ R = W at h
      cases h with
      | done => cases hW
      | space hσ hc h =>
        obtain ⟨-, rfl⟩ := List.cons.inj hW
        exact h
      | @tag _ _ marker M hahead h =>
        obtain ⟨a, rest, hmarker⟩ := List.exists_cons_of_ne_nil hahead.nonempty
        rw [hmarker, structural_cons, List.cons_append, List.cons_append] at hW
        have := hahead.noSpace hσ a (by rw [hmarker]; rfl)
        rw [(List.cons.inj hW).1] at hx
        exact absurd (hx.symm.trans this) (by decide)
      | value hv h => cases hσ
    · rwa [List.dropWhile_cons_of_neg (by exact hx)]

theorem not_endsOpen_space (B : List Marked) : ¬ endsOpen (B.takeWhile fun x => Matcher.isWs x.1) := by
  intro h
  have := List.all_eq_true.1 List.all_takeWhile _ (List.mem_of_getLast? h)
  exact absurd this (by decide)

theorem plain_dropWhile (B : List Marked) :
    (plain B).dropWhile Matcher.isWs = plain (B.dropWhile fun x => Matcher.isWs x.1) := by
  rw [plain, List.dropWhile_map]
  rfl

/-- With nothing in the buffer a state between markers stays. -/
theorem transitionOnce_nil (hσ : Matcher.stateAllowsLeadingWs σ = true) :
    (⟨σ, [], tools⟩ : Matcher).transitionOnce = (.stay, ⟨σ, [], tools⟩) := by
  rw [Matcher.transitionOnce, if_neg (fun h => h.2 rfl)]
  cases σ with
  | inToolCalls => rfl
  | inInvokeBody toolIdx emittedParams =>
    have hnone : ((Matcher.invokeBodyAlternatives tools toolIdx emittedParams).find? fun a => a.1.isPrefixOf []) = none := by
      rw [Matcher.invokeBodyAlternatives]
      split
      · rfl
      · rfl
    simp only [Matcher.transitionFromAlternatives, hnone]
    rw [if_pos]
    simp [Matcher.invokeBodyAlternatives]
  | out => cases hσ
  | inInvokeName toolIdx => cases hσ
  | inParamName toolIdx paramIdx emittedParams => cases hσ
  | inParamAttr toolIdx paramIdx emittedParams => cases hσ
  | inParamBody toolIdx paramIdx emittedParams => cases hσ

/-- A cut of a text behind a marker, or inside it. -/
private theorem cut_marker {B R M : List Marked} {marker : List Char} (h : B ++ R = structural marker ++ M) :
    (∃ B', B = structural marker ++ B' ∧ M = B' ++ R) ∨
      ∃ c d, marker = c ++ d ∧ d ≠ [] ∧ B = structural c ∧ R = structural d ++ M := by
  rcases List.append_eq_append_iff.1 h with ⟨A, hmarker, hR⟩ | hbehind
  · obtain ⟨c, d, hsplit, rfl, rfl⟩ := List.map_eq_append_iff.1 hmarker
    cases d with
    | nil =>
      refine .inl ⟨[], ?_, hR.symm⟩
      rw [hsplit, List.append_nil, List.append_nil, structural]
    | cons x d => exact .inr ⟨c, x :: d, hsplit, List.cons_ne_nil x d, rfl, hR⟩
  · exact .inl hbehind

section Body
variable {toolIdx paramIdx : ℕ} {emittedParams : List ℕ} {v c : List Char}

private theorem body_transition (buf : List Char) :
    (⟨.inParamBody toolIdx paramIdx emittedParams, buf, tools⟩ : Matcher).transitionOnce =
      Matcher.transitionFromFree ⟨.inParamBody toolIdx paramIdx emittedParams, buf, tools⟩ closeParam
        (.inInvokeBody toolIdx (Matcher.addEmitted emittedParams paramIdx)) := by
  rw [Matcher.transitionOnce, if_neg]
  rintro ⟨h, -⟩
  cases h

private theorem body_value (hv : ¬ ['<', '/'] <:+: v) :
    (⟨.inParamBody toolIdx paramIdx emittedParams, v, tools⟩ : Matcher).transitionOnce =
      (.stay, ⟨.inParamBody toolIdx paramIdx emittedParams, if v.getLast? = some '<' then ['<'] else [], tools⟩) := by
  have hnone := memmem_closeParam_none (c := []) hv List.nil_prefix (by decide)
  rw [List.append_nil] at hnone
  rw [body_transition]
  simp only [Matcher.transitionFromFree, hnone, keepTail_value hv]

private theorem body_closing (hv : ¬ ['<', '/'] <:+: v) (hc : c <+: closeParam) (hne : c ≠ closeParam) (hpos : c ≠ []) :
    (⟨.inParamBody toolIdx paramIdx emittedParams, v ++ c, tools⟩ : Matcher).transitionOnce =
      (.stay, ⟨.inParamBody toolIdx paramIdx emittedParams, c, tools⟩) := by
  rw [body_transition]
  simp only [Matcher.transitionFromFree, memmem_closeParam_none hv hc hne, keepTail_closing hv hc hne hpos]

private theorem body_closed (hv : ¬ ['<', '/'] <:+: v) (w : List Char) :
    (⟨.inParamBody toolIdx paramIdx emittedParams, v ++ (closeParam ++ w), tools⟩ : Matcher).transitionOnce =
      (.advanced, ⟨.inInvokeBody toolIdx (Matcher.addEmitted emittedParams paramIdx), w, tools⟩) := by
  rw [body_transition]
  simp only [Matcher.transitionFromFree, memmem_closeParam hv, ← List.drop_drop, List.drop_left]

/-- Inside a value the matcher keeps a last `<` and waits. -/
private theorem value_waits {v₁ : List Char} {M : List Marked} (hv : ¬ ['<', '/'] <:+: v ++ v₁)
    (h : Legal tools (.inInvokeBody toolIdx (Matcher.addEmitted emittedParams paramIdx)) M) :
    ∃ B', (⟨.inParamBody toolIdx paramIdx emittedParams, plain (valueText v), tools⟩ : Matcher).transitionOnce =
        (.stay, ⟨.inParamBody toolIdx paramIdx emittedParams, plain B', tools⟩) ∧
      (endsOpen (valueText v) ↔ B' = [('<', true)]) ∧
      Waiting tools (.inParamBody toolIdx paramIdx emittedParams) B' (valueText v₁ ++ (structural closeParam ++ M)) := by
  have hv₀ : ¬ ['<', '/'] <:+: v := fun h => hv (h.trans (List.prefix_append v v₁).isInfix)
  rw [plain_valueText, body_value hv₀, endsOpen_valueText]
  by_cases hlast : v.getLast? = some '<'
  · refine ⟨[('<', true)], by rw [if_pos hlast]; rfl, iff_of_true hlast rfl, ?_⟩
    obtain ⟨front, rfl⟩ := List.getLast?_eq_some_iff.1 hlast
    refine .held (fun hin => hv (hin.trans ⟨front, [], ?_⟩)) h
    rw [List.append_nil, List.append_assoc]
    rfl
  · refine ⟨[], by rw [if_neg hlast]; rfl, iff_of_false hlast (List.cons_ne_nil _ _).symm, ?_⟩
    exact .value (fun hin => hv (hin.trans (List.suffix_append v v₁).isInfix)) h

end Body

/-- A step along the text: the matcher goes on with a smaller buffer or a settled name, or it
stays and waits. -/
theorem Legal.step (h : Legal tools σ (B ++ R)) :
    (∃ D B' σ', B = D ++ B' ∧ ¬ endsOpen D ∧
      (⟨σ, plain B, tools⟩ : Matcher).transitionOnce = (.advanced, ⟨σ', plain B', tools⟩) ∧
      (⟨σ', plain B', tools⟩ : Matcher).size < (⟨σ, plain B, tools⟩ : Matcher).size ∧ Legal tools σ' (B' ++ R)) ∨
    ∃ B', (⟨σ, plain B, tools⟩ : Matcher).transitionOnce = (.stay, ⟨σ, plain B', tools⟩) ∧
      (endsOpen B ↔ B' = [('<', true)]) ∧ Waiting tools σ B' R := by
  generalize hW : B ++ R = W at h
  cases h with
  | done =>
    obtain ⟨rfl, rfl⟩ := List.append_eq_nil_iff.1 hW
    exact .inr ⟨[], rfl, by decide, .done⟩
  | @space _ c M hσ hc h =>
    cases B with
    | nil =>
      refine .inr ⟨[], transitionOnce_nil hσ, by decide, ?_⟩
      rw [List.nil_append] at hW
      rw [hW]
      exact .space hσ hc h
    | cons x B =>
      obtain ⟨rfl, rfl⟩ := List.cons.inj hW
      refine .inl ⟨((c, false) :: B).takeWhile fun x => Matcher.isWs x.1, ((c, false) :: B).dropWhile fun x => Matcher.isWs x.1,
        σ, List.takeWhile_append_dropWhile.symm, not_endsOpen_space _, ?_, ?_,
        Legal.dropSpace hσ (.space hσ hc h)⟩
      · have hspace : (plain ((c, false) :: B)).takeWhile Matcher.isWs ≠ [] := by
          rw [plain_cons, List.takeWhile_cons_of_pos hc]
          exact List.cons_ne_nil _ _
        rw [Matcher.transitionOnce, if_pos ⟨hσ, hspace⟩, ← plain_dropWhile]
      · rw [List.dropWhile_cons_of_pos (by exact hc)]
        have := (List.dropWhile_suffix (l := B) fun x : Marked => Matcher.isWs x.1).length_le
        simp only [Matcher.size, plain_length, List.length_cons]
        omega
  | @tag _ σ' marker M hahead h =>
    have hbuf : plain B <+: marker ++ plain M := ⟨plain R, by rw [← plain_append, hW, plain_append, plain_structural]⟩
    have hpos := List.length_pos_iff.2 hahead.nonempty
    rcases Ahead.transition (m := ⟨σ, plain B, tools⟩) hahead hbuf with ⟨hin, heq⟩ | ⟨hnot, hstay⟩
    · rcases cut_marker hW with ⟨B, rfl, rfl⟩ | ⟨c, d, rfl, hd, rfl, rfl⟩
      · refine .inl ⟨structural marker, B, σ', rfl, not_endsOpen_structural _, ?_, ?_, h⟩
        · rw [heq, plain_append, plain_structural, List.drop_left]
        · simp only [Matcher.size, plain_length, List.length_append, structural_length]
          split <;> split <;> omega
      · have := hin.length_le
        simp only [List.length_append, plain_structural] at this
        exact absurd (List.length_eq_zero_iff.1 (by omega)) hd
    · rcases cut_marker hW with ⟨B, rfl, rfl⟩ | ⟨c, d, hsplit, hd, rfl, rfl⟩
      · exact absurd ⟨plain B, by rw [plain_append, plain_structural]⟩ hnot
      rcases hstay with hstay | ⟨τ, hun, hset, hahead', heq⟩
      · exact .inr ⟨structural c, hstay, endsOpen_structural_iff c, .tag hahead h hsplit hd⟩
      · refine .inl ⟨[], structural c, τ, rfl, by decide, heq, ?_, ?_⟩
        · simp only [Matcher.size, hun, hset, if_true]
          simp
        · rw [hW]
          exact .tag hahead' h
  | @value toolIdx paramIdx emittedParams v M hv h =>
    rcases List.append_eq_append_iff.1 hW with ⟨A, hvalue, rfl⟩ | ⟨B, rfl, hrest⟩
    · obtain ⟨v₀, v₁, rfl, rfl, rfl⟩ := List.map_eq_append_iff.1 hvalue
      exact .inr (value_waits hv h)
    · rcases cut_marker hrest.symm with ⟨B, rfl, rfl⟩ | ⟨c, d, hsplit, hd, rfl, rfl⟩
      · refine .inl ⟨valueText v ++ structural closeParam, B, _, (List.append_assoc _ _ _).symm, ?_, ?_, ?_, h⟩
        · rw [endsOpen_behind (by decide)]
          exact not_endsOpen_structural closeParam
        · rw [plain_append, plain_append, plain_valueText, plain_structural, body_closed hv]
        · have : closeParam.length = 18 := rfl
          simp only [Matcher.size, State.isUnsettled, plain_append, List.length_append, plain_length, structural_length]
          simp only [Bool.false_eq_true, if_false]
          omega
      · cases c with
        | nil =>
          have hwaits := value_waits (show ¬ ['<', '/'] <:+: v ++ [] by rwa [List.append_nil]) h
          rw [List.nil_append] at hsplit
          rw [← hsplit]
          refine .inr ?_
          rwa [structural_nil, List.append_nil]
        | cons x c =>
          have hne : x :: c ≠ closeParam := by
            intro heq
            rw [← heq] at hsplit
            exact hd (List.append_right_eq_self.1 hsplit.symm)
          refine .inr ⟨structural (x :: c), ?_, ?_, .closing hsplit (List.cons_ne_nil x c) hd h⟩
          · rw [plain_append, plain_valueText, plain_structural,
              body_closing hv ⟨d, hsplit.symm⟩ hne (List.cons_ne_nil x c)]
          · have hne : structural (x :: c) ≠ [] := List.cons_ne_nil _ _
            exact (endsOpen_behind hne).trans (endsOpen_structural_iff (x :: c))

/-- A matcher on the text stays after finitely many rounds and never falls back. -/
theorem Legal.settle {rounds : ℕ} (hsize : (⟨σ, plain B, tools⟩ : Matcher).size < rounds) (h : Legal tools σ (B ++ R)) :
    ∃ σ' B', (⟨σ, plain B, tools⟩ : Matcher).settle rounds = (⟨σ', plain B', tools⟩, false) ∧
      (endsOpen B ↔ B' = [('<', true)]) ∧ Waiting tools σ' B' R := by
  induction rounds generalizing σ B with
  | zero => exact absurd hsize (Nat.not_lt_zero _)
  | succ rounds ih =>
    rw [Matcher.settle]
    rcases h.step with ⟨D, B, τ, rfl, hD, hadv, hless, h⟩ | ⟨B', hstay, hopen, hwait⟩
    · obtain ⟨σ', B', heq, hopen, hwait⟩ := ih (by omega) h
      refine ⟨σ', B', ?_, (endsOpen_append hD).trans hopen, hwait⟩
      rw [hadv]
      exact heq
    · refine ⟨σ, B', ?_, hopen, hwait⟩
      rw [hstay]

theorem Waiting.advance {t : List Marked} (h : Waiting tools σ B (t ++ R)) (ht : t ≠ []) :
    ∃ σ' B', (⟨σ, plain B, tools⟩ : Matcher).advance (plain t) = (⟨σ', plain B', tools⟩, false) ∧
      (endsOpen t ↔ B' = [('<', true)]) ∧ Waiting tools σ' B' R := by
  have hlegal := h.legal
  rw [← List.append_assoc] at hlegal
  have hsize : (⟨σ, plain (B ++ t), tools⟩ : Matcher).size < 2 * (plain (B ++ t)).length + 2 := by
    simp only [Matcher.size]
    split <;> omega
  obtain ⟨σ', B', heq, hopen, hwait⟩ := hlegal.settle hsize
  refine ⟨σ', B', ?_, (endsOpen_behind ht).symm.trans hopen, hwait⟩
  rw [Matcher.advance, if_neg (by rwa [plain, List.map_eq_nil_iff])]
  simp only [← plain_append]
  exact heq

end Step

section Allowed
variable {tools : List ToolSchema} {σ : State} {B R t : List Marked} {s : List Char}

theorem checkAgainstConts_of_marker {conts : List (List Char)} {marker text : List Char} (hmem : marker ∈ conts)
    (hs : s <+: text) (hmarker : marker <+: text) : Matcher.checkAgainstConts s conts = true := by
  refine List.any_eq_true.2 ⟨marker, hmem, ?_⟩
  rw [Bool.or_eq_true, List.isPrefixOf_iff_prefix, List.isPrefixOf_iff_prefix]
  exact List.prefix_or_prefix_of_prefix hs hmarker

private theorem checkAgainstConts_nil (hσ : Matcher.stateAllowsLeadingWs σ = true) :
    Matcher.checkAgainstConts [] (⟨σ, [], tools⟩ : Matcher).allowedContinuations = true := by
  cases σ with
  | inToolCalls => rfl
  | inInvokeBody toolIdx emittedParams =>
    refine List.any_eq_true.2 ⟨openParam, ?_, rfl⟩
    simp [Matcher.allowedContinuations, Matcher.invokeBodyAlternatives]
  | out => cases hσ
  | inInvokeName toolIdx => cases hσ
  | inParamName toolIdx paramIdx emittedParams => cases hσ
  | inParamAttr toolIdx paramIdx emittedParams => cases hσ
  | inParamBody toolIdx paramIdx emittedParams => cases hσ

/-- A state that does not emit freely allows its alternatives. -/
theorem mem_allowedContinuations {m : Matcher} {marker : List Char} {σ' : State} (hbody : m.state.isBody = false)
    (hfree : m.isFree = false) (h : (marker, σ') ∈ alternatives m.tools m.state) : marker ∈ m.allowedContinuations := by
  obtain ⟨σ, buf, tools⟩ := m
  cases σ with
  | out =>
    rw [Matcher.isFree, Option.isNone_eq_false_iff] at hfree
    rw [Matcher.allowedContinuations]
    simp only [hfree, if_true]
    simpa [alternatives] using congrArg Prod.fst (List.mem_singleton.1 h)
  | inToolCalls => exact (List.mem_map.2 ⟨_, h, rfl⟩ : marker ∈ Matcher.toolCallsAlternatives.map Prod.fst)
  | inInvokeBody toolIdx emittedParams => exact List.mem_map.2 ⟨_, h, rfl⟩
  | inParamAttr toolIdx paramIdx emittedParams =>
    exact (List.mem_map.2 ⟨_, h, rfl⟩ : marker ∈ (Matcher.attrAlternatives toolIdx paramIdx emittedParams).map Prod.fst)
  | inParamBody toolIdx paramIdx emittedParams => cases hbody
  | inInvokeName toolIdx =>
    obtain ⟨c, hc, heq⟩ := List.mem_map.1 h
    cases heq
    exact List.mem_map.2 ⟨c, hc, rfl⟩
  | inParamName toolIdx paramIdx emittedParams =>
    obtain ⟨c, hc, heq⟩ := List.mem_map.1 h
    cases heq
    exact List.mem_map.2 ⟨c, hc, rfl⟩

private theorem isTokenAllowed_of_marker {m : Matcher} {marker text : List Char} {σ' : State}
    (hbody : m.state.isBody = false) (h : (marker, σ') ∈ alternatives m.tools m.state)
    (hs : m.partialBuf ++ s <+: text) (hmarker : marker <+: text) : m.isTokenAllowed s = true := by
  rw [Matcher.isTokenAllowed]
  by_cases hfree : m.isFree = true
  · rw [hfree]
    rfl
  · rw [Bool.not_eq_true] at hfree
    rw [checkAgainstConts_of_marker (mem_allowedContinuations hbody hfree h) hs hmarker, hfree]
    rfl

/-- Space, and what follows it, is allowed between markers. -/
private theorem isTokenAllowed_space (hσ : Matcher.stateAllowsLeadingWs σ = true) (h : Legal tools σ (t ++ R)) :
    (⟨σ, [], tools⟩ : Matcher).isTokenAllowed (plain t) = true := by
  have hcheck : Matcher.checkAgainstConts ((plain t).dropWhile Matcher.isWs)
      (⟨σ, [], tools⟩ : Matcher).allowedContinuations = true := by
    have hdrop := h.dropSpace hσ
    have hhead := List.head?_dropWhile_not (fun x : Marked => Matcher.isWs x.1) t
    rw [plain_dropWhile]
    generalize t.dropWhile (fun x => Matcher.isWs x.1) = T at hdrop hhead ⊢
    cases T with
    | nil => exact checkAgainstConts_nil hσ
    | cons x T =>
      generalize hW : x :: T ++ R = W at hdrop
      cases hdrop with
      | done => cases hW
      | space _ hc _ =>
        rw [List.cons_append, List.cons.injEq] at hW
        simp only [List.head?_cons] at hhead
        rw [hW.1, hc] at hhead
        exact absurd hhead (by decide)
      | @tag _ _ marker M hahead _ =>
        have hfree : (⟨σ, [], tools⟩ : Matcher).isFree = false := by
          cases σ <;> first | rfl | cases hσ
        refine checkAgainstConts_of_marker (mem_allowedContinuations hahead.isBody hfree
          (List.mem_of_find?_eq_some hahead.first)) ?_ hahead.begins
        exact ⟨plain R, by rw [← plain_append, hW, plain_append, plain_structural]⟩
      | value _ _ => cases hσ
  rw [Matcher.isTokenAllowed, List.nil_append, hσ, hcheck]
  simp

private theorem plain_begins {c d marker : List Char} {M : List Marked} (hW : t ++ R = structural d ++ M)
    (hsplit : marker = c ++ d) : plain (structural c) ++ plain t <+: marker ++ plain M := by
  refine ⟨plain R, ?_⟩
  rw [← plain_append, ← plain_append, List.append_assoc, hW, plain_append, plain_append, plain_structural,
    plain_structural, hsplit, List.append_assoc]

theorem Waiting.allowed (h : Waiting tools σ B (t ++ R)) (hB : B ≠ [('<', true)]) :
    (⟨σ, plain B, tools⟩ : Matcher).isTokenAllowed (plain t) = true := by
  have hlegal := h.legal
  generalize hW : t ++ R = W at h
  cases h with
  | done =>
    obtain ⟨rfl, rfl⟩ := List.append_eq_nil_iff.1 hW
    rfl
  | space hσ hc h => exact isTokenAllowed_space hσ hlegal
  | tag hahead h hsplit hd =>
    exact isTokenAllowed_of_marker hahead.isBody (List.mem_of_find?_eq_some hahead.first) (plain_begins hW hsplit)
      hahead.begins
  | value hv h => rfl
  | held hv h => exact absurd rfl hB
  | @closing toolIdx paramIdx emittedParams c d M hsplit hc hd h =>
    have hconts : closeParam ∈ (⟨.inParamBody toolIdx paramIdx emittedParams, plain (structural c), tools⟩ :
        Matcher).allowedContinuations := by
      rw [Matcher.allowedContinuations]
      simp [hc]
    rw [Matcher.isTokenAllowed, checkAgainstConts_of_marker hconts (plain_begins hW hsplit) (List.prefix_append _ _)]
    simp

/-- Behind a kept `<` only the closing marker is allowed, and the value does not go on so. -/
theorem Waiting.blocked (h : Waiting tools σ [('<', true)] (t ++ R)) (ht : t ≠ []) :
    (⟨σ, ['<'], tools⟩ : Matcher).isTokenAllowed (plain t) = false := by
  generalize hB : [('<', true)] = B at h
  generalize hW : t ++ R = W at h
  have hstructural : ∀ c : List Char, [('<', true)] ≠ structural c := fun c hc =>
    not_endsOpen_structural c (hc ▸ rfl)
  obtain ⟨x, t, rfl⟩ := List.exists_cons_of_ne_nil ht
  cases h with
  | done => cases hB
  | space hσ hc h => cases hB
  | @tag _ _ _ c _ _ hahead h hsplit hd => exact absurd hB (hstructural c)
  | value hv h => cases hB
  | @closing _ _ _ c _ _ hsplit hc hd h => exact absurd hB (hstructural c)
  | @held toolIdx paramIdx emittedParams v M hv h =>
    have hx : x.1 ≠ '/' := by
      cases v with
      | nil =>
        obtain rfl : x = ('<', false) := (List.cons.inj hW).1
        decide
      | cons y v =>
        obtain rfl : x = (y, true) := (List.cons.inj hW).1
        rintro rfl
        exact hv ⟨[], v, rfl⟩
    have hclose : closeParam = '<' :: '/' :: closeParam.drop 2 := rfl
    have hcheck : Matcher.checkAgainstConts ('<' :: x.1 :: plain t) [closeParam] = false := by
      rw [Matcher.checkAgainstConts, hclose, List.any_cons, List.any_nil, Bool.or_false, List.isPrefixOf_cons_cons,
        List.isPrefixOf_cons_cons, List.isPrefixOf_cons_cons, List.isPrefixOf_cons_cons, beq_eq_false_iff_ne.2 hx,
        beq_eq_false_iff_ne.2 hx.symm]
      rfl
    rw [Matcher.isTokenAllowed]
    simp [Matcher.isFree, Matcher.allowedContinuations, Matcher.stateAllowsLeadingWs, hcheck]

end Allowed

section Run
variable {tools : List ToolSchema} {σ : State} {B : List Marked}

/-- Every token is allowed at its turn and the matcher ends outside the block. -/
def Matcher.accepts (m : Matcher) : List (List Char) → Bool
  | [] => m.state = .out
  | t :: ts => m.isTokenAllowed t && (m.advance t).1.accepts ts

/-- Once a `<` is kept, the run stops at the next token that is not empty. -/
private theorem accepts_held {tokens : List (List Marked)} (h : Waiting tools σ [('<', true)] tokens.flatten) :
    (⟨σ, ['<'], tools⟩ : Matcher).accepts (tokens.map plain) = false := by
  induction tokens with
  | nil => exact absurd (h.final rfl).2 (List.cons_ne_nil _ _)
  | cons t tokens ih =>
    rw [List.flatten_cons] at h
    rw [List.map_cons, Matcher.accepts]
    by_cases ht : t = []
    · subst ht
      rw [Matcher.advance, plain_nil, if_pos rfl, ih (by simpa using h), Bool.and_false]
    · rw [h.blocked ht, Bool.false_and]

/-- The matcher accepts a text it follows unless a token ends at a `<` inside a value. -/
theorem Waiting.accepts {tokens : List (List Marked)} (hB : B ≠ [('<', true)]) (h : Waiting tools σ B tokens.flatten) :
    (⟨σ, plain B, tools⟩ : Matcher).accepts (tokens.map plain) = true ↔ ∀ t ∈ tokens, ¬ endsOpen t := by
  induction tokens generalizing σ B with
  | nil =>
    simp [Matcher.accepts, (h.final rfl).1]
  | cons t tokens ih =>
    rw [List.flatten_cons] at h
    rw [List.map_cons, Matcher.accepts, h.allowed hB, Bool.true_and, List.forall_mem_cons]
    by_cases ht : t = []
    · subst ht
      rw [Matcher.advance, plain_nil, if_pos rfl, ih hB (by simpa using h)]
      simp [endsOpen]
    · obtain ⟨σ', B', heq, hopen, hwait⟩ := h.advance ht
      rw [heq]
      by_cases hB' : B' = [('<', true)]
      · subst hB'
        rw [show plain [('<', true)] = ['<'] from rfl, accepts_held hwait]
        simp [hopen]
      · rw [ih hB' hwait]
        simp [hopen, hB']

end Run
end Hipscope.Dsml.Grammar
