import Hipscope.Dsml.GrammarCuts

/-! What the matcher does with one more character of a text it follows. -/
namespace Hipscope.Dsml.Grammar
open Text

/-- The buffer has begun a marker of the state. -/
def Pending (tools : List ToolSchema) (σ : State) (b : List Char) : Prop :=
  ∃ marker ∈ (σ.watch tools).markers, b <+: marker ∧ b ≠ marker

/-- A state between markers of the schema, where nothing is free. -/
def State.isFirm : State → Bool
  | .out => false
  | .inParamBody .. => false
  | _ => true

/-- A marker completed here leads on: a tool can be called, a parameter is left. -/
def Matcher.leadsOn (m : Matcher) (c : Char) : Bool :=
  match m.state with
  | .inToolCalls => m.tools ≠ [] || (m.partialBuf ++ [c] ≠ openInvoke && m.partialBuf ++ [c] ≠ openToolVariant)
  | .inInvokeBody i emitted =>
    m.partialBuf ++ [c] ≠ openParam || (List.range (toolAt m.tools i).params.length).any fun k => !emitted.contains k
  | _ => true

section Letter
variable {tools : List ToolSchema} {σ : State} {b s : List Char} {c : Char}

theorem settles_advance : Settles ⟨σ, b ++ [c], tools⟩ ((⟨σ, b, tools⟩ : Matcher).advance [c]) :=
  advance_settles (m := ⟨σ, b, tools⟩) (List.cons_ne_nil c [])

theorem advance_of_settles {r : Matcher × Bool} (h : Settles ⟨σ, b ++ [c], tools⟩ r) :
    (⟨σ, b, tools⟩ : Matcher).advance [c] = r :=
  settles_advance.unique h

/-- A begun marker has passed none. -/
theorem Pending.unpassed (hfree : PrefixFree tools) (h : Pending tools σ b) :
    ∀ marker ∈ (σ.watch tools).markers, ¬ marker <+: b := by
  obtain ⟨begun, hbegun, hb, hne⟩ := h
  intro marker hmarker hpre
  obtain rfl := hfree σ marker hmarker begun hbegun (hpre.trans hb)
  exact hne (hb.eq_of_length_le hpre.length_le)

/-- A text inside a marker, or up to its end, has not gone beyond one. -/
theorem PrefixFree.within (hfree : PrefixFree tools) (hin : ∃ marker ∈ (σ.watch tools).markers, s <+: marker) :
    ∀ marker ∈ (σ.watch tools).markers, marker <+: s → marker = s := by
  obtain ⟨begun, hbegun, hs⟩ := hin
  intro marker hmarker hpre
  obtain rfl := hfree σ marker hmarker begun hbegun (hpre.trans hs)
  exact hpre.eq_of_length_le hs.length_le

theorem allowedContinuations_firm (hσ : σ.isFirm = true) :
    (⟨σ, b, tools⟩ : Matcher).allowedContinuations = (σ.watch tools).markers := by
  cases σ with
  | out => cases hσ
  | inParamBody toolIdx paramIdx emittedParams => cases hσ
  | inToolCalls => rfl
  | inInvokeName toolIdx => rfl
  | inInvokeBody toolIdx emittedParams => rfl
  | inParamName toolIdx paramIdx emittedParams => rfl
  | inParamAttr toolIdx paramIdx emittedParams => rfl

/-- A marker not yet passed, checked with one more character: it goes on. -/
private theorem check_iff (hopen : ∀ marker ∈ (σ.watch tools).markers, ¬ marker <+: b) :
    Matcher.checkAgainstConts (b ++ [c]) (σ.watch tools).markers = true ↔
      ∃ marker ∈ (σ.watch tools).markers, b ++ [c] <+: marker := by
  rw [Matcher.checkAgainstConts, List.any_eq_true]
  refine exists_congr fun marker => and_congr_right fun hmarker => ?_
  rw [Bool.or_eq_true, List.isPrefixOf_iff_prefix, List.isPrefixOf_iff_prefix, List.prefix_concat_iff]
  refine ⟨fun h => ?_, .inl⟩
  rcases h with hin | rfl | hshort
  · exact hin
  · exact List.prefix_refl _
  · exact absurd hshort (hopen marker hmarker)

/-- A character the mask allows is space between markers, or goes on in a marker. -/
theorem allowed_iff (hσ : σ.isFirm = true) (hsome : (σ.watch tools).markers ≠ [])
    (hopen : ∀ marker ∈ (σ.watch tools).markers, ¬ marker <+: b)
    (hhead : Matcher.stateAllowsLeadingWs σ = true → ∀ x ∈ b.head?, Matcher.isWs x = false) :
    (⟨σ, b, tools⟩ : Matcher).isTokenAllowed [c] = true ↔
      (Matcher.stateAllowsLeadingWs σ = true ∧ b = [] ∧ Matcher.isWs c = true) ∨
        ∃ marker ∈ (σ.watch tools).markers, b ++ [c] <+: marker := by
  have hnot : (⟨σ, b, tools⟩ : Matcher).isFree = false := by
    cases σ <;> first | rfl | cases hσ
  rw [Matcher.isTokenAllowed, hnot, Bool.false_or, allowedContinuations_firm hσ, Bool.or_eq_true, Bool.and_eq_true,
    check_iff hopen]
  cases b with
  | nil =>
    by_cases hc : Matcher.isWs c = true
    · have hblank : Matcher.checkAgainstConts [] (σ.watch tools).markers = true := by
        obtain ⟨marker, rest, hmarkers⟩ := List.exists_cons_of_ne_nil hsome
        exact List.any_eq_true.2 ⟨marker, hmarkers ▸ List.mem_cons_self .., rfl⟩
      rw [List.nil_append, List.dropWhile_cons_of_pos hc, List.dropWhile_nil, hblank, or_comm]
      simp only [hc, and_true]
    · rw [List.nil_append, List.dropWhile_cons_of_neg hc]
      have hcheck := check_iff (c := c) hopen
      rw [List.nil_append] at hcheck
      rw [hcheck]
      refine ⟨fun h => .inr ?_, fun h => .inl (h.resolve_left fun hblank => hc hblank.2.2)⟩
      rcases h with hin | ⟨-, hin⟩
      · exact hin
      · exact hin
  | cons x b =>
    have hsame (hws : Matcher.stateAllowsLeadingWs σ = true) :
        (x :: b ++ [c]).dropWhile Matcher.isWs = x :: b ++ [c] := by
      refine List.dropWhile_cons_of_neg ?_
      rw [hhead hws x rfl]
      decide
    refine ⟨fun h => .inr ?_, fun h => .inl (h.resolve_left fun hnil => List.cons_ne_nil _ _ hnil.2.1)⟩
    rcases h with hin | ⟨hws, hin⟩
    · exact hin
    · rwa [hsame hws, check_iff hopen] at hin

/-- Between markers every marker begins with `<`. -/
theorem space_markers (hσ : Matcher.stateAllowsLeadingWs σ = true) :
    ∀ marker ∈ (σ.watch tools).markers, ['<'] <+: marker := by
  cases σ with
  | inToolCalls => exact (by decide : ∀ marker ∈ Matcher.toolCallsAlternatives.map Prod.fst, ['<'] <+: marker)
  | inInvokeBody i emitted =>
    have hall : ∀ marker ∈ [openParam, closeInvoke, closeToolVariant], ['<'] <+: marker := by decide
    intro marker hmem
    refine hall marker ?_
    rw [State.watch, Watch.markers, Matcher.invokeBodyAlternatives] at hmem
    split at hmem
    · exact hmem
    · exact List.mem_of_mem_head? (List.mem_singleton.1 hmem ▸ rfl)
  | out => cases hσ
  | inInvokeName idx => cases hσ
  | inParamName i idx emitted => cases hσ
  | inParamAttr i k emitted => cases hσ
  | inParamBody i k emitted => cases hσ

/-- A begun marker stays, a complete one is passed. -/
theorem settles_fixed {alts : List (List Char × State)} (hwatch : σ.watch tools = .fixed alts)
    (hwithin : ∀ marker ∈ (σ.watch tools).markers, marker <+: s → marker = s)
    (hin : ∃ marker ∈ (σ.watch tools).markers, s <+: marker) (hspace : ¬ (⟨σ, s, tools⟩ : Matcher).atSpace) :
    (Settles ⟨σ, s, tools⟩ (⟨σ, s, tools⟩, false) ∧ Pending tools σ s ∧ s ∉ (σ.watch tools).markers) ∨
      ∃ σ', (s, σ') ∈ alts ∧ ∀ r, Settles ⟨σ', [], tools⟩ r → Settles ⟨σ, s, tools⟩ r := by
  obtain ⟨marker, hmarker, hs⟩ := hin
  have hstep : (⟨σ, s, tools⟩ : Matcher).transitionOnce = Matcher.transitionFromAlternatives ⟨σ, s, tools⟩ alts := by
    rw [transitionOnce_watch hspace, hwatch]
    rfl
  cases hfind : alts.find? fun a => a.1.isPrefixOf s with
  | some a =>
    have ha := List.mem_of_find?_eq_some hfind
    have hpre : a.1 <+: s := List.isPrefixOf_iff_prefix.1 (by simpa using List.find?_some hfind)
    have heq : a.1 = s := hwithin a.1 (hwatch ▸ List.mem_map_of_mem ha) hpre
    refine .inr ⟨a.2, heq ▸ ha, fun r hr => .advance (n := ⟨a.2, [], tools⟩) ?_ hr⟩
    rw [hstep]
    simp only [Matcher.transitionFromAlternatives, hfind, heq, List.drop_length]
  | none =>
    have hnot : s ∉ (σ.watch tools).markers := by
      intro hmem
      rw [hwatch] at hmem
      obtain ⟨a, ha, heq⟩ := List.mem_map.1 hmem
      exact List.find?_eq_none.1 hfind a ha (List.isPrefixOf_iff_prefix.2 (heq ▸ List.prefix_refl _))
    refine .inl ⟨.stay ?_, ⟨marker, hmarker, hs, fun heq => hnot (heq ▸ hmarker)⟩, hnot⟩
    have hany : (alts.any fun a => s.isPrefixOf a.1) = true := by
      rw [hwatch] at hmarker
      obtain ⟨a, ha, rfl⟩ := List.mem_map.1 hmarker
      exact List.any_eq_true.2 ⟨a, ha, List.isPrefixOf_iff_prefix.2 hs⟩
    rw [hstep]
    simp only [Matcher.transitionFromAlternatives, hfind, hany, if_true]

/-- A begun name stays, perhaps settled on its one candidate; a complete one is passed. -/
theorem settles_name {idx : Option ℕ} {candidates : List (ℕ × List Char)} {settled next : ℕ → State}
    (hwatch : σ.watch tools = .name idx candidates settled next)
    (hwithin : ∀ marker ∈ (σ.watch tools).markers, marker <+: s → marker = s)
    (hin : ∃ marker ∈ (σ.watch tools).markers, s <+: marker) :
    (∃ σ', Settles ⟨σ, s, tools⟩ (⟨σ', s, tools⟩, false) ∧ Pending tools σ' s ∧
        (σ' = σ ∨ (idx = none ∧ ∃ d ∈ candidates, σ' = settled d.1))) ∨
      ∃ d ∈ candidates, d.2 = s ∧ ∀ r, Settles ⟨next d.1, [], tools⟩ r → Settles ⟨σ, s, tools⟩ r := by
  obtain ⟨marker, hmarker, hs⟩ := hin
  have hws : Matcher.stateAllowsLeadingWs σ = false := by
    cases σ <;> first | rfl | cases hwatch
  have hstep : (⟨σ, s, tools⟩ : Matcher).transitionOnce =
      Matcher.transitionName ⟨σ, s, tools⟩ idx candidates settled next := by
    rw [transitionOnce_watch fun h => absurd (h.1.symm.trans hws) (by decide), hwatch]
    rfl
  cases hfind : candidates.find? fun d => d.2.isPrefixOf s with
  | some d =>
    have hd := List.mem_of_find?_eq_some hfind
    have hpre : d.2 <+: s := List.isPrefixOf_iff_prefix.1 (by simpa using List.find?_some hfind)
    have heq : d.2 = s := hwithin d.2 (hwatch ▸ List.mem_map_of_mem hd) hpre
    refine .inr ⟨d, hd, heq, fun r hr => .advance (n := ⟨next d.1, [], tools⟩) ?_ hr⟩
    rw [hstep]
    simp only [Matcher.transitionName, hfind, heq, List.drop_length]
  | none =>
    rw [hwatch] at hmarker
    obtain ⟨e, he, rfl⟩ := List.mem_map.1 hmarker
    have hnot : ∀ d ∈ candidates, ¬ d.2 <+: s := fun d hd h =>
      List.find?_eq_none.1 hfind d hd (List.isPrefixOf_iff_prefix.2 h)
    have hne : s ≠ e.2 := fun heq => hnot e he (heq ▸ List.prefix_refl _)
    have hfilter : e ∈ candidates.filter fun d => s.isPrefixOf d.2 :=
      List.mem_filter.2 ⟨he, List.isPrefixOf_iff_prefix.2 hs⟩
    have hstay : (∀ d, idx = none → candidates.filter (fun d => s.isPrefixOf d.2) ≠ [d]) →
        ∃ σ', Settles ⟨σ, s, tools⟩ (⟨σ', s, tools⟩, false) ∧ Pending tools σ' s ∧
          (σ' = σ ∨ (idx = none ∧ ∃ d ∈ candidates, σ' = settled d.1)) := by
      intro hmany
      refine ⟨σ, .stay ?_, ⟨e.2, hwatch ▸ List.mem_map_of_mem he, hs, hne⟩, .inl rfl⟩
      rw [hstep]
      simp only [Matcher.transitionName, hfind]
      generalize candidates.filter (fun d => s.isPrefixOf d.2) = matching at hfilter hmany
      rcases matching with _ | ⟨d, _ | ⟨d', matching⟩⟩
      · cases hfilter
      · cases idx with
        | none => exact absurd rfl (hmany d rfl)
        | some i => rfl
      · cases idx <;> rfl
    refine .inl ?_
    by_cases hone : idx = none ∧ candidates.filter (fun d => s.isPrefixOf d.2) = [e]
    · obtain ⟨rfl, hone⟩ := hone
      obtain ⟨hwatch', hws', -, -⟩ := watch_settled hwatch he
      refine ⟨settled e.1, .advance (n := ⟨settled e.1, s, tools⟩) ?_ (.stay ?_), ⟨e.2, ?_, hs, hne⟩, .inr ⟨rfl, e, he, rfl⟩⟩
      · rw [hstep]
        simp only [Matcher.transitionName, hfind, hone]
      · rw [transitionOnce_watch fun h => absurd (h.1.symm.trans hws') (by decide), hwatch']
        have hnone : [e].find? (fun d => d.2.isPrefixOf s) = none :=
          List.find?_cons_of_neg fun h => hnot e he (List.isPrefixOf_iff_prefix.1 h)
        have hsame : [e].filter (fun d => s.isPrefixOf d.2) = [e] :=
          List.filter_cons_of_pos (List.isPrefixOf_iff_prefix.2 hs)
        simp only [Watch.transition, Matcher.transitionName, hnone, hsame]
      · rw [hwatch']
        exact List.mem_singleton_self _
    · refine hstay fun d hidx heq => hone ⟨hidx, ?_⟩
      rw [heq] at hfilter
      rw [heq, List.mem_singleton.1 hfilter]

/-- A free text goes on, or its last characters are the trigger. -/
theorem settles_free {trigger u : List Char} {next : State} {r : Matcher × Bool} (hwatch : σ.watch tools = .free trigger next)
    (horder : InOrder tools) (hnone : memmem u trigger = none)
    (h : Settles ⟨σ, Matcher.keepTail trigger u ++ [c], tools⟩ r) :
    (memmem (u ++ [c]) trigger = none ∧ r = (⟨σ, Matcher.keepTail trigger (u ++ [c]), tools⟩, false)) ∨
      ∃ v, u ++ [c] = v ++ trigger ∧ Passes trigger v trigger ∧ ∀ r', Settles ⟨next, [], tools⟩ r' → r = r' := by
  have ht : trigger ≠ [] := markers_nonempty tools σ trigger (hwatch ▸ List.mem_singleton_self _)
  have hstep : ∀ u, (⟨σ, u, tools⟩ : Matcher).transitionOnce = Matcher.transitionFromFree ⟨σ, u, tools⟩ trigger next := by
    intro u
    have hws : Matcher.stateAllowsLeadingWs σ = false := by
      cases σ <;> first | rfl | cases hwatch
    rw [transitionOnce_watch fun h => absurd (h.1.symm.trans hws) (by decide), hwatch]
    rfl
  have hstay : (⟨σ, u, tools⟩ : Matcher).transitionOnce = (.stay, ⟨σ, Matcher.keepTail trigger u, tools⟩) := by
    rw [hstep]
    simp only [Matcher.transitionFromFree, hnone]
  have hwhole : Settles ⟨σ, u ++ [c], tools⟩ r := Settles.push_of_step horder hstay (by decide) h
  cases hfind : memmem (u ++ [c]) trigger with
  | none =>
    refine .inl ⟨rfl, hwhole.unique (.stay ?_)⟩
    rw [hstep]
    simp only [Matcher.transitionFromFree, hfind]
  | some i =>
    obtain ⟨hat, hfit, hfirst⟩ := memmem_some ht hfind
    rw [List.length_append, List.length_singleton] at hfit
    have hend : u.length < i + trigger.length := by
      by_contra hle
      refine memmem_none hnone i ?_
      rw [List.drop_append_of_le_length (by omega)] at hat
      exact List.prefix_of_prefix_length_le hat (List.prefix_append _ _) (by rw [List.length_drop]; omega)
    have hlast : (u ++ [c]).drop i = trigger := by
      refine (hat.eq_of_length ?_).symm
      rw [List.length_drop, List.length_append, List.length_singleton]
      omega
    have hsplit : u ++ [c] = (u ++ [c]).take i ++ trigger := by
      conv_lhs => rw [← List.take_append_drop i (u ++ [c]), hlast]
    refine .inr ⟨(u ++ [c]).take i, hsplit, ?_, fun r' hr' => ?_⟩
    · intro j hj
      rw [← hsplit]
      exact hfirst j (by rw [List.length_take] at hj; omega)
    · refine hwhole.unique (.advance (n := ⟨next, [], tools⟩) ?_ hr')
      have hgone : (u ++ [c]).drop (i + trigger.length) = [] :=
        List.drop_of_length_le (by rw [List.length_append, List.length_singleton]; omega)
      rw [hstep]
      simp only [Matcher.transitionFromFree, hfind, hgone]

/-- With nothing in the buffer the matcher stays; only a name with one candidate is settled on. -/
theorem settles_nil (hsome : (σ.watch tools).markers ≠ []) :
    ∃ σ', Settles ⟨σ, [], tools⟩ (⟨σ', [], tools⟩, false) ∧
      (σ' = σ ∨ ∃ candidates settled next, σ.watch tools = .name none candidates settled next ∧
        ∃ d ∈ candidates, σ' = settled d.1) := by
  obtain ⟨marker, rest, hmarkers⟩ := List.exists_cons_of_ne_nil hsome
  have hin : ∃ marker ∈ (σ.watch tools).markers, [] <+: marker :=
    ⟨marker, hmarkers ▸ List.mem_cons_self .., List.nil_prefix⟩
  have hnil : [] ∉ (σ.watch tools).markers := fun h => markers_nonempty tools σ [] h rfl
  have hwithin : ∀ marker ∈ (σ.watch tools).markers, marker <+: [] → marker = [] :=
    fun _ _ hpre => List.prefix_nil.1 hpre
  have hspace : ¬ (⟨σ, [], tools⟩ : Matcher).atSpace := fun h => h.2 rfl
  cases hwatch : σ.watch tools with
  | free trigger next =>
    refine ⟨σ, .stay ?_, .inl rfl⟩
    have hne : trigger ≠ [] := fun h => hnil (hwatch ▸ h ▸ List.mem_singleton_self _)
    have hnone : memmem [] trigger = none := by
      cases hfind : memmem [] trigger with
      | none => rfl
      | some i => exact absurd (List.prefix_nil.1 (List.drop_nil ▸ (memmem_some hne hfind).1)) hne
    rw [transitionOnce_watch hspace, hwatch]
    simp only [Watch.transition, Matcher.transitionFromFree, hnone]
    rfl
  | fixed alts =>
    rcases settles_fixed hwatch hwithin hin hspace with ⟨h, -⟩ | ⟨σ', hmem, -⟩
    · exact ⟨σ, h, .inl rfl⟩
    · exact absurd (hwatch ▸ List.mem_map_of_mem (f := Prod.fst) hmem) hnil
  | name idx candidates settled next =>
    rcases settles_name hwatch hwithin hin with ⟨σ', h, -, heq | ⟨rfl, hd⟩⟩ | ⟨d, hd, heq, -⟩
    · exact ⟨σ', h, .inl heq⟩
    · exact ⟨σ', h, .inr ⟨candidates, settled, next, rfl, hd⟩⟩
    · exact absurd (hwatch ▸ heq ▸ List.mem_map_of_mem (f := Prod.snd) hd) hnil

/-- A state with nothing to watch for falls back. -/
theorem settles_dead (h : (σ.watch tools).markers = []) : Settles ⟨σ, [], tools⟩ (⟨.out, [], tools⟩, true) := by
  refine .recover ((transitionOnce_watch fun hs => hs.2 rfl).trans ?_)
  change (σ.watch tools).transition _ = _
  cases hwatch : σ.watch tools with
  | free trigger next => cases hwatch ▸ h
  | fixed alts =>
    obtain rfl : alts = [] := List.map_eq_nil_iff.1 (hwatch ▸ h)
    rfl
  | name idx candidates settled next =>
    obtain rfl : candidates = [] := List.map_eq_nil_iff.1 (hwatch ▸ h)
    cases idx <;> rfl

theorem settles_nil_iff {r : Matcher × Bool} (h : Settles ⟨σ, [], tools⟩ r) :
    r.2 = true ↔ (σ.watch tools).markers = [] := by
  by_cases hnone : (σ.watch tools).markers = []
  · rw [h.unique (settles_dead hnone)]
    exact iff_of_true rfl hnone
  · obtain ⟨σ', hstay, -⟩ := settles_nil hnone
    rw [h.unique hstay]
    exact iff_of_false Bool.false_ne_true hnone

/-- Space between markers is dropped. -/
theorem advance_blank {alts : List (List Char × State)} (hwatch : σ.watch tools = .fixed alts)
    (hsome : (σ.watch tools).markers ≠ []) (hws : Matcher.stateAllowsLeadingWs σ = true)
    (hc : Matcher.isWs c = true) : (⟨σ, [], tools⟩ : Matcher).advance [c] = (⟨σ, [], tools⟩, false) := by
  refine advance_of_settles (.advance (n := ⟨σ, [], tools⟩) ?_ ?_)
  · rw [transitionOnce_space]
    · simp only [List.nil_append, List.dropWhile_cons_of_pos hc, List.dropWhile_nil]
    · refine ⟨hws, ?_⟩
      rw [List.nil_append, List.takeWhile_cons_of_pos hc]
      exact List.cons_ne_nil _ _
  · obtain ⟨σ', hstay, rfl | ⟨candidates, settled, next, hname, -⟩⟩ := settles_nil hsome
    · exact hstay
    · cases hwatch.symm.trans hname

end Letter
end Hipscope.Dsml.Grammar
