import Hipscope.Dsml.GrammarLetters

/-! The matcher on a text in one call or in pieces: the two part only where it falls back before
the end of the text, since the fall-back drops what is left of the call it happens in. -/
namespace Hipscope.Dsml.Grammar
open Text

section Order
variable {tools : List ToolSchema}

/-- A name, closed, that does not begin one listed before it. -/
def NamesInOrder (close : List Char) (names : List (List Char)) : Prop :=
  names.Pairwise fun a b => b ++ close <+: a ++ close → a = b

instance (close : List Char) (names : List (List Char)) : Decidable (NamesInOrder close names) :=
  inferInstanceAs (Decidable (List.Pairwise _ _))

/-- The tools of a schema, and the parameters of each, are in order. -/
structure SchemaInOrder (tools : List ToolSchema) : Prop where
  toolNames : NamesInOrder nameEnd (tools.map ToolSchema.name)
  paramNames : ∀ tool ∈ tools, NamesInOrder paramNameEnd tool.params

private theorem places_inOrder {close : List Char} {names : List (List Char)} {places : List ℕ} (nameOf : ℕ → List Char)
    (h : NamesInOrder close names) (hplaces : places.Sublist (List.range names.length))
    (hat : ∀ i, i < names.length → names[i]? = some (nameOf i)) :
    (places.map fun i => nameOf i ++ close).Pairwise fun a b => b <+: a → a = b := by
  have hall : ((List.range names.length).map fun i => nameOf i ++ close) = names.map (· ++ close) := by
    refine List.ext_getElem? fun i => ?_
    rw [List.getElem?_map, List.getElem?_map]
    rcases Nat.lt_or_ge i names.length with hlt | hge
    · rw [List.getElem?_range hlt, hat i hlt]
      rfl
    · rw [List.getElem?_eq_none (by rwa [List.length_range]), List.getElem?_eq_none hge]
      rfl
  refine List.Pairwise.sublist (hplaces.map _) ?_
  rw [hall, List.pairwise_map]
  exact h.imp fun hab hin => congrArg (· ++ close) (hab hin)

private theorem fixed_inOrder (alternatives : List (List Char × State)) (h : ∀ a ∈ alternatives, a.1 ∈ fixedMarkers) :
    (alternatives.map Prod.fst).Pairwise fun a b => b <+: a → a = b := by
  refine List.pairwise_of_forall_mem_list fun a ha b hb hin => ?_
  obtain ⟨x, hx, rfl⟩ := List.mem_map.1 ha
  obtain ⟨y, hy, rfl⟩ := List.mem_map.1 hb
  exact (fixedMarkers_apart _ (h y hy) _ (h x hx) hin).symm

/-- Markers of every state are in order when the names are. -/
theorem SchemaInOrder.inOrder (h : SchemaInOrder tools) : InOrder tools := by
  intro σ
  cases σ with
  | out => exact List.pairwise_singleton _ _
  | inParamBody toolIdx paramIdx emittedParams => exact List.pairwise_singleton _ _
  | inToolCalls => exact fixed_inOrder Matcher.toolCallsAlternatives (by decide)
  | inInvokeBody toolIdx emittedParams => exact fixed_inOrder _ invokeBody_fixed
  | inParamAttr toolIdx paramIdx emittedParams =>
    have hall : [attrStringTrue, attrStringFalse].Pairwise fun a b => b <+: a → a = b := by decide
    exact hall
  | inInvokeName toolIdx =>
    cases toolIdx with
    | some i => exact List.pairwise_singleton _ _
    | none =>
      have hrange : (List.range tools.length).Sublist (List.range (tools.map ToolSchema.name).length) := by
        rw [List.length_map]
      have hplaces := places_inOrder (fun i => (toolAt tools i).name) h.toolNames hrange fun i hi => by
        rw [List.length_map] at hi
        rw [List.getElem?_map, toolAt, List.getElem?_eq_getElem hi]
        rfl
      rwa [State.watch, Watch.markers, toolCandidates, List.map_map]
  | inParamName toolIdx paramIdx emittedParams =>
    cases paramIdx with
    | some k => exact List.pairwise_singleton _ _
    | none =>
      have hnames : NamesInOrder paramNameEnd (toolAt tools toolIdx).params := by
        cases hi : tools[toolIdx]? with
        | none =>
          rw [toolAt, hi]
          exact List.Pairwise.nil
        | some tool =>
          rw [toolAt, hi]
          exact h.paramNames tool (List.mem_of_getElem? hi)
      have hplaces := places_inOrder (fun k => (toolAt tools toolIdx).paramAt k) hnames
        (List.filter_sublist (p := fun k => !emittedParams.contains k)) fun k hk => by
          rw [ToolSchema.paramAt, List.getElem?_eq_getElem hk]
          rfl
      rwa [State.watch, Watch.markers, paramCandidates, List.map_map]

end Order

section Idle
variable {tools : List ToolSchema} {m m' : Matcher} {σ : State} {b : List Char}

/-- The buffer leads no further. -/
def Matcher.Idle (m : Matcher) : Prop := m.transitionOnce = (.stay, m)

theorem idle_new (tools : List ToolSchema) : (Matcher.new tools).Idle := rfl

private theorem idle_kept {trigger : List Char} {next : State} (hwatch : m.state.watch m.tools = .free trigger next)
    (hnone : memmem m.partialBuf trigger = none) :
    ({ m with partialBuf := Matcher.keepTail trigger m.partialBuf } : Matcher).Idle := by
  have hws : Matcher.stateAllowsLeadingWs m.state = false := by
    cases hσ : m.state <;> rw [hσ] at hwatch <;> first | rfl | cases hwatch
  have ht : trigger ≠ [] := markers_nonempty m.tools m.state trigger (hwatch ▸ List.mem_singleton_self _)
  obtain ⟨d, -, hkept⟩ := memmem_keepTail ht hnone []
  rw [List.append_nil, List.append_nil, hnone] at hkept
  have hagain := keepTail_kept (y := []) (by rwa [List.append_nil])
  rw [List.append_nil, List.append_nil] at hagain
  have hspace : ¬ ({ m with partialBuf := Matcher.keepTail trigger m.partialBuf } : Matcher).atSpace :=
    fun hs => absurd (hs.1.symm.trans hws) (by decide)
  rw [Matcher.Idle, transitionOnce_watch hspace]
  simp only [hwatch, Watch.transition, Matcher.transitionFromFree, Option.map_eq_none_iff.1 hkept.symm, hagain]

/-- What does not go on leaves an idle matcher. -/
private theorem idle_of_step {tr : Transition} (h : m.transitionOnce = (tr, m')) (htr : tr ≠ .advanced) : m'.Idle := by
  have hstep := h
  by_cases hspace : m.atSpace
  · rw [transitionOnce_space hspace] at h
    exact absurd (Prod.mk.inj h).1.symm htr
  rw [transitionOnce_watch hspace] at h
  cases hwatch : m.state.watch m.tools with
  | free trigger next =>
    rw [hwatch, Watch.transition, Matcher.transitionFromFree] at h
    split at h
    · exact absurd (Prod.mk.inj h).1.symm htr
    · rename_i hnone
      obtain ⟨-, rfl⟩ := Prod.mk.inj h
      exact idle_kept hwatch hnone
  | fixed alternatives =>
    rw [hwatch, Watch.transition, Matcher.transitionFromAlternatives] at h
    split at h
    · exact absurd (Prod.mk.inj h).1.symm htr
    · split at h
      · obtain ⟨rfl, rfl⟩ := Prod.mk.inj h
        exact hstep
      · obtain ⟨-, rfl⟩ := Prod.mk.inj h
        rfl
  | name idx candidates settled next =>
    simp only [hwatch, Watch.transition, Matcher.transitionName] at h
    split at h
    · exact absurd (Prod.mk.inj h).1.symm htr
    · split at h
      · exact absurd (Prod.mk.inj h).1.symm htr
      · obtain ⟨-, rfl⟩ := Prod.mk.inj h
        rfl
      · obtain ⟨rfl, rfl⟩ := Prod.mk.inj h
        exact hstep

theorem Settles.idle {r : Matcher × Bool} (h : Settles m r) : r.1.Idle := by
  induction h with
  | stay h => exact idle_of_step h (by decide)
  | recover h => exact idle_of_step h (by decide)
  | advance _ _ ih => exact ih

theorem Matcher.Idle.advance (h : m.Idle) (text : List Char) : (m.advance text).1.Idle := by
  by_cases hnil : text = []
  · rwa [Matcher.advance, if_pos hnil]
  · exact (advance_settles hnil).idle

theorem Matcher.Idle.advanceAll (h : m.Idle) (tokens : List (List Char)) : (m.advanceAll tokens).Idle := by
  induction tokens generalizing m with
  | nil => exact h
  | cons t tokens ih => exact ih (h.advance t)

theorem Matcher.Idle.stays (h : m.Idle) : ¬ m.atSpace ∧ (m.state.watch m.tools).transition m = (.stay, m) := by
  have hspace : ¬ m.atSpace := fun hs => by cases h.symm.trans (transitionOnce_space hs)
  exact ⟨hspace, (transitionOnce_watch hspace).symm.trans h⟩

/-- Between markers an idle matcher has begun one and passed none. -/
theorem Matcher.Idle.begun (h : (⟨σ, b, tools⟩ : Matcher).Idle) (hσ : σ.isFirm = true) :
    ¬ (⟨σ, b, tools⟩ : Matcher).atSpace ∧ (∃ marker ∈ (σ.watch tools).markers, b <+: marker) ∧
      ∀ marker ∈ (σ.watch tools).markers, ¬ marker <+: b := by
  obtain ⟨hspace, hstep⟩ := h.stays
  refine ⟨hspace, ?_⟩
  dsimp only at hstep
  cases hwatch : σ.watch tools with
  | free trigger next => cases σ <;> first | (cases hwatch; done) | cases hσ
  | fixed alternatives =>
    rw [hwatch, Watch.transition, Matcher.transitionFromAlternatives] at hstep
    split at hstep
    · cases hstep
    rename_i hnone
    split at hstep
    · rename_i hany
      obtain ⟨a, ha, hin⟩ := List.any_eq_true.1 hany
      refine ⟨⟨a.1, List.mem_map_of_mem ha, List.isPrefixOf_iff_prefix.1 hin⟩, fun marker hmarker hpre => ?_⟩
      obtain ⟨d, hd, rfl⟩ := List.mem_map.1 hmarker
      exact List.find?_eq_none.1 hnone d hd (List.isPrefixOf_iff_prefix.2 hpre)
    · cases hstep
  | name idx candidates settled next =>
    simp only [hwatch, Watch.transition, Matcher.transitionName] at hstep
    split at hstep
    · cases hstep
    rename_i hnone
    split at hstep
    · cases hstep
    · cases hstep
    · rename_i d rest _ hfilter
      have hd : d ∈ candidates.filter fun d => b.isPrefixOf d.2 := hfilter ▸ List.mem_cons_self
      rw [List.mem_filter] at hd
      refine ⟨⟨d.2, List.mem_map_of_mem hd.1, List.isPrefixOf_iff_prefix.1 hd.2⟩, fun marker hmarker hpre => ?_⟩
      obtain ⟨e, he, rfl⟩ := List.mem_map.1 hmarker
      exact List.find?_eq_none.1 hnone e he (List.isPrefixOf_iff_prefix.2 hpre)

end Idle

section Fits
variable {tools : List ToolSchema} {m : Matcher} {σ σ' : State} {b : List Char} {c : Char}

/-- Outside blocks and in a value any letter fits. Elsewhere the mask allows it, and a marker it
completes leads on. -/
def Matcher.fits (m : Matcher) (c : Char) : Bool := !m.state.isFirm || (m.isTokenAllowed [c] && m.leadsOn c)

/-- Every letter fits the matcher it comes to. -/
def Matcher.fitsAll (m : Matcher) : List Char → Bool
  | [] => true
  | c :: text => m.fits c && (m.advance [c]).1.fitsAll text

private theorem leadsOn_begun (h : b ++ [c] ∉ (σ.watch tools).markers) : (⟨σ, b, tools⟩ : Matcher).leadsOn c = true := by
  cases σ with
  | inToolCalls =>
    have hinvoke : b ++ [c] ≠ openInvoke := fun heq => h (heq ▸ List.mem_cons_self)
    have hvariant : b ++ [c] ≠ openToolVariant := fun heq => h (heq ▸ List.mem_cons_of_mem _ List.mem_cons_self)
    simp only [Matcher.leadsOn, hinvoke, hvariant, ne_eq, not_false_iff, decide_true, Bool.and_self, Bool.or_true]
  | inInvokeBody i emitted =>
    have hparam : b ++ [c] ≠ openParam := fun heq => h (heq ▸ List.mem_cons_self)
    simp only [Matcher.leadsOn, hparam, ne_eq, not_false_iff, decide_true, Bool.true_or]
  | out => rfl
  | inInvokeName idx => rfl
  | inParamName i idx emitted => rfl
  | inParamAttr i k emitted => rfl
  | inParamBody i k emitted => rfl

/-- A completed marker leads on when the next state watches for something. -/
private theorem leadsOn_iff {alts : List (List Char × State)} (hwatch : σ.watch tools = .fixed alts)
    (hmem : (b ++ [c], σ') ∈ alts) :
    (⟨σ, b, tools⟩ : Matcher).leadsOn c = true ↔ (σ'.watch tools).markers ≠ [] := by
  cases σ with
  | inToolCalls =>
    cases hwatch
    simp only [Matcher.toolCallsAlternatives, List.mem_cons, List.not_mem_nil, or_false, Prod.mk.injEq] at hmem
    have hname : ((State.inInvokeName none).watch tools).markers ≠ [] ↔ tools ≠ [] := by
      simp [State.watch, Watch.markers, toolCandidates, List.range_eq_nil]
    rcases hmem with ⟨hb, rfl⟩ | ⟨hb, rfl⟩ | ⟨hb, rfl⟩
    · rw [hname]
      simp [Matcher.leadsOn, hb]
    · rw [hname]
      simp [Matcher.leadsOn, hb]
    · refine iff_of_true ?_ (List.cons_ne_nil _ _)
      have hinvoke : closeToolCalls ≠ openInvoke := by decide
      have hvariant : closeToolCalls ≠ openToolVariant := by decide
      simp [Matcher.leadsOn, hb, hinvoke, hvariant]
  | inInvokeBody i emitted =>
    cases hwatch
    have hparam : openParam ≠ closeInvoke ∧ openParam ≠ closeToolVariant := by decide
    have hname : ((State.inParamName i none emitted).watch tools).markers ≠ [] ↔
        ((List.range (toolAt tools i).params.length).any fun k => !emitted.contains k) = true := by
      simp [State.watch, Watch.markers, paramCandidates, List.filter_eq_nil_iff]
    rw [Matcher.invokeBodyAlternatives, List.mem_cons] at hmem
    rcases hmem with heq | hmem
    · obtain ⟨hb, rfl⟩ := Prod.mk.inj heq
      rw [hname]
      simp [Matcher.leadsOn, hb]
    · split at hmem
      · simp only [List.mem_cons, List.not_mem_nil, or_false, Prod.mk.injEq] at hmem
        refine iff_of_true ?_ ?_
        · rcases hmem with ⟨hb, -⟩ | ⟨hb, -⟩
          · simp [Matcher.leadsOn, hb, hparam.1.symm]
          · simp [Matcher.leadsOn, hb, hparam.2.symm]
        · rcases hmem with ⟨-, rfl⟩ | ⟨-, rfl⟩ <;> exact List.cons_ne_nil _ _
      · cases hmem
  | inParamAttr i k emitted =>
    cases hwatch
    simp only [Matcher.attrAlternatives, List.mem_cons, List.not_mem_nil, or_false, Prod.mk.injEq] at hmem
    rcases hmem with ⟨-, rfl⟩ | ⟨-, rfl⟩ <;> exact iff_of_true rfl (List.cons_ne_nil _ _)
  | out => cases hwatch
  | inInvokeName idx => cases hwatch
  | inParamName i idx emitted => cases hwatch
  | inParamBody i k emitted => cases hwatch

/-- Outside blocks and in a value nothing makes the matcher fall back. -/
private theorem advance_free (horder : InOrder tools) (h : (⟨σ, b, tools⟩ : Matcher).Idle) (hσ : σ.isFirm = false) :
    ((⟨σ, b, tools⟩ : Matcher).advance [c]).2 = false := by
  obtain ⟨-, hstep⟩ := h.stays
  dsimp only at hstep
  have hnext : ∃ trigger next, σ.watch tools = .free trigger next ∧ (next.watch tools).markers ≠ [] := by
    cases σ with
    | out => exact ⟨_, _, rfl, List.cons_ne_nil _ _⟩
    | inParamBody i k emitted => exact ⟨_, _, rfl, List.cons_ne_nil _ _⟩
    | _ => cases hσ
  obtain ⟨trigger, next, hwatch, hsome⟩ := hnext
  rw [hwatch, Watch.transition, Matcher.transitionFromFree] at hstep
  split at hstep
  · cases hstep
  rename_i hnone
  have hkept : Matcher.keepTail trigger b = b := congrArg Matcher.partialBuf (Prod.mk.inj hstep).2
  have hsettles : Settles ⟨σ, Matcher.keepTail trigger b ++ [c], tools⟩ ((⟨σ, b, tools⟩ : Matcher).advance [c]) := by
    rw [hkept]
    exact settles_advance
  rcases settles_free hwatch horder hnone hsettles with ⟨-, hstay⟩ | ⟨v, -, -, hend⟩
  · rw [hstay]
  · obtain ⟨σ', hstay, -⟩ := settles_nil hsome
    rw [hend _ hstay]

/-- A letter that neither is space nor goes on in a marker makes the matcher fall back. -/
private theorem advance_stray (hσ : σ.isFirm = true) (hspace : ¬ (⟨σ, b ++ [c], tools⟩ : Matcher).atSpace)
    (hopen : ∀ marker ∈ (σ.watch tools).markers, ¬ marker <+: b)
    (hout : ¬ ∃ marker ∈ (σ.watch tools).markers, b ++ [c] <+: marker) :
    ((⟨σ, b, tools⟩ : Matcher).advance [c]).2 = true := by
  have hnone : ∀ marker ∈ (σ.watch tools).markers, ¬ marker <+: b ++ [c] := by
    intro marker hmarker hpre
    rcases List.prefix_concat_iff.1 hpre with heq | hpre
    · exact hout ⟨marker, hmarker, heq ▸ List.prefix_refl _⟩
    · exact hopen marker hmarker hpre
  suffices hstep : (⟨σ, b ++ [c], tools⟩ : Matcher).transitionOnce = (.recovered, ⟨.out, [], tools⟩) by
    rw [advance_of_settles (.recover hstep)]
  refine (transitionOnce_watch hspace).trans ?_
  change (σ.watch tools).transition _ = _
  cases hwatch : σ.watch tools with
  | free trigger next => cases σ <;> first | (cases hwatch; done) | cases hσ
  | fixed alternatives =>
    rw [hwatch] at hnone hout
    have hfind : (alternatives.find? fun a => a.1.isPrefixOf (b ++ [c])) = none :=
      List.find?_eq_none.2 fun a ha h => hnone a.1 (List.mem_map_of_mem ha) (List.isPrefixOf_iff_prefix.1 h)
    have hany : (alternatives.any fun a => (b ++ [c]).isPrefixOf a.1) = false :=
      List.any_eq_false.2 fun a ha h => hout ⟨a.1, List.mem_map_of_mem ha, List.isPrefixOf_iff_prefix.1 h⟩
    simp only [Watch.transition, Matcher.transitionFromAlternatives, hfind, hany, Bool.false_eq_true, if_false]
  | name idx candidates settled next =>
    rw [hwatch] at hnone hout
    have hfind : (candidates.find? fun d => d.2.isPrefixOf (b ++ [c])) = none :=
      List.find?_eq_none.2 fun d hd h => hnone d.2 (List.mem_map_of_mem hd) (List.isPrefixOf_iff_prefix.1 h)
    have hfilter : (candidates.filter fun d => (b ++ [c]).isPrefixOf d.2) = [] :=
      List.filter_eq_nil_iff.2 fun d hd h => hout ⟨d.2, List.mem_map_of_mem hd, List.isPrefixOf_iff_prefix.1 h⟩
    simp only [Watch.transition, Matcher.transitionName, hfind, hfilter]

/-- A letter that goes on in a marker makes the matcher fall back only where the marker leads on to
nothing. -/
private theorem advance_within (hσ : σ.isFirm = true) (hspace : ¬ (⟨σ, b ++ [c], tools⟩ : Matcher).atSpace)
    (hopen : ∀ marker ∈ (σ.watch tools).markers, ¬ marker <+: b)
    (hin : ∃ marker ∈ (σ.watch tools).markers, b ++ [c] <+: marker) :
    ((⟨σ, b, tools⟩ : Matcher).advance [c]).2 = !(⟨σ, b, tools⟩ : Matcher).leadsOn c := by
  have hwithin : ∀ marker ∈ (σ.watch tools).markers, marker <+: b ++ [c] → marker = b ++ [c] :=
    fun marker hmarker hpre => (List.prefix_concat_iff.1 hpre).resolve_right (hopen marker hmarker)
  cases hwatch : σ.watch tools with
  | free trigger next => cases σ <;> first | (cases hwatch; done) | cases hσ
  | fixed alternatives =>
    rcases settles_fixed hwatch hwithin hin hspace with ⟨hstay, -, hnot⟩ | ⟨σ', hmem, hpass⟩
    · rw [advance_of_settles hstay, leadsOn_begun hnot]
      rfl
    · obtain ⟨r, hr⟩ : ∃ r, Settles ⟨σ', [], tools⟩ r := ⟨_, settles_settle (Nat.lt_succ_self _)⟩
      rw [advance_of_settles (hpass r hr), Bool.eq_iff_iff, settles_nil_iff hr, Bool.not_eq_true', ← Bool.not_eq_true,
        leadsOn_iff hwatch hmem, not_not]
  | name idx candidates settled next =>
    have hleads : (⟨σ, b, tools⟩ : Matcher).leadsOn c = true := by
      cases σ <;> first | rfl | cases hwatch
    rw [hleads]
    rcases settles_name hwatch hwithin hin with ⟨σ', hstay, -⟩ | ⟨d, hd, -, hpass⟩
    · rw [advance_of_settles hstay]
      rfl
    · obtain ⟨r, hr⟩ : ∃ r, Settles ⟨next d.1, [], tools⟩ r := ⟨_, settles_settle (Nat.lt_succ_self _)⟩
      have hsome : ((next d.1).watch tools).markers ≠ [] := by
        cases σ <;> first | (cases hwatch; exact List.cons_ne_nil _ _) | cases hwatch
      rw [advance_of_settles (hpass r hr), Bool.eq_iff_iff, settles_nil_iff hr]
      exact iff_of_false hsome Bool.false_ne_true

/-- An idle matcher falls back at a letter exactly when the letter does not fit. -/
theorem Matcher.Idle.advance_fits (horder : InOrder m.tools) (h : m.Idle) (c : Char) :
    (m.advance [c]).2 = !m.fits c := by
  obtain ⟨σ, b, tools⟩ := m
  rw [Matcher.fits]
  cases hσ : σ.isFirm with
  | false => exact advance_free horder h hσ
  | true =>
    obtain ⟨hspace, ⟨marker, hmarker, -⟩, hopen⟩ := h.begun hσ
    have hsome : (σ.watch tools).markers ≠ [] := List.ne_nil_of_mem hmarker
    have hhead (hws : Matcher.stateAllowsLeadingWs σ = true) : ∀ x ∈ b.head?, Matcher.isWs x = false := by
      intro x hx
      obtain ⟨rest, rfl⟩ := List.head?_eq_some_iff.1 hx
      refine Bool.eq_false_iff.2 fun hx => hspace ⟨hws, ?_⟩
      rw [List.takeWhile_cons_of_pos hx]
      exact List.cons_ne_nil _ _
    have hallowed := allowed_iff (c := c) hσ hsome hopen hhead
    simp only [Bool.not_true, Bool.false_or]
    by_cases hblank : Matcher.stateAllowsLeadingWs σ = true ∧ b = [] ∧ Matcher.isWs c = true
    · obtain ⟨hws, rfl, hc⟩ := hblank
      obtain ⟨alternatives, hwatch⟩ : ∃ alternatives, σ.watch tools = .fixed alternatives := by
        cases σ <;> first | exact ⟨_, rfl⟩ | cases hws
      have hnot : [] ++ [c] ∉ (σ.watch tools).markers := by
        intro hmem
        obtain ⟨rest, hrest⟩ := space_markers hws _ hmem
        rw [← (List.cons.inj hrest).1] at hc
        exact absurd hc (by decide)
      rw [advance_blank hwatch hsome hws hc, hallowed.2 (.inl ⟨hws, rfl, hc⟩), leadsOn_begun hnot]
      rfl
    · have hspace' : ¬ (⟨σ, b ++ [c], tools⟩ : Matcher).atSpace := by
        rintro ⟨hws, hne⟩
        cases b with
        | nil =>
          refine hblank ⟨hws, rfl, ?_⟩
          by_contra hc
          exact hne (List.takeWhile_cons_of_neg hc)
        | cons x b =>
          refine hne (List.takeWhile_cons_of_neg ?_)
          rw [hhead hws x rfl]
          exact Bool.false_ne_true
      by_cases hin : ∃ marker ∈ (σ.watch tools).markers, b ++ [c] <+: marker
      · rw [advance_within hσ hspace' hopen hin, hallowed.2 (.inr hin), Bool.true_and]
      · have hmask : (⟨σ, b, tools⟩ : Matcher).isTokenAllowed [c] = false :=
          Bool.eq_false_iff.2 fun h => (hallowed.1 h).elim hblank hin
        rw [advance_stray hσ hspace' hopen hin, hmask]
        rfl

theorem Matcher.Idle.recovers_eq (horder : InOrder m.tools) (h : m.Idle) (text : List Char) :
    m.recovers (letters text) = !m.fitsAll text := by
  induction text generalizing m with
  | nil => rfl
  | cons c text ih =>
    have hrest := ih (advance_tools m [c] ▸ horder) (h.advance [c])
    rw [show letters (c :: text) = [c] :: letters text from rfl, Matcher.recovers, Matcher.fitsAll, hrest,
      h.advance_fits horder c, Bool.not_and]

end Fits

section Chunks
variable {m : Matcher} {text : List Char} {pieces : List (List Char)} {c : Char}

private theorem advanceAll_empty (h : pieces.flatten = []) : m.advanceAll pieces = m := by
  induction pieces with
  | nil => rfl
  | cons piece pieces ih =>
    rw [List.flatten_cons, List.append_eq_nil_iff] at h
    have hnone : (m.advance piece).1 = m := by rw [h.1, Matcher.advance, if_pos rfl]
    rw [Matcher.advanceAll, List.foldl_cons, hnone]
    exact ih h.2

/-- The last letter of a text comes to the matcher that the other letters lead to. -/
private theorem advance_snoc (horder : InOrder m.tools) (h : m.recovers (letters text) = false) (c : Char) :
    m.advance (text ++ [c]) = (m.advanceAll (letters text)).advance [c] := by
  by_cases hnil : text = []
  · subst hnil
    rfl
  · have hfront := advance_settles (m := m) hnil
    rw [advance_letters horder hnil h] at hfront
    have hlast := advance_settles (m := m.advanceAll (letters text)) (List.cons_ne_nil c [])
    have hwhole := Settles.push (m := m.push text) (y := [c]) horder hfront hlast
    rw [Matcher.push_push] at hwhole
    exact (advance_settles (List.append_ne_nil_of_right_ne_nil _ (List.cons_ne_nil _ _))).unique hwhole

private theorem advanceAll_snoc (horder : InOrder m.tools) (hpieces : pieces.flatten = text ++ [c])
    (h : m.recovers (letters text) = false) :
    m.advanceAll pieces = ((m.advanceAll (letters text)).advance [c]).1 := by
  induction pieces generalizing m text with
  | nil => exact absurd hpieces (by simp)
  | cons piece pieces ih =>
    rw [List.flatten_cons] at hpieces
    rw [Matcher.advanceAll, List.foldl_cons]
    rcases List.eq_nil_or_concat' pieces.flatten with hrest | ⟨rest, c', hrest⟩
    · -- the last letter is in this piece, the others are empty
      rw [hrest, List.append_nil] at hpieces
      rw [hpieces, advance_snoc horder h c]
      exact advanceAll_empty hrest
    · rw [hrest, ← List.append_assoc] at hpieces
      obtain ⟨rfl, hc⟩ := List.append_inj' hpieces rfl
      obtain rfl : c' = c := List.singleton_inj.1 hc
      rw [letters_append, recovers_append, Bool.or_eq_false_iff] at h
      have hadvance : m.advance piece = (m.advanceAll (letters piece), false) := by
        by_cases hnil : piece = []
        · subst hnil
          rfl
        · exact advance_letters horder hnil h.1
      have htools : (m.advanceAll (letters piece)).tools = m.tools := by
        have := advance_tools m piece
        rwa [hadvance] at this
      rw [hadvance, letters_append, advanceAll_append]
      exact ih (htools ▸ horder) hrest h.2

/-- A text reaches the same matcher however it is cut, if no letter before the last makes the
matcher fall back. -/
theorem pieces_of_not_recovers (horder : SchemaInOrder m.tools) (h : m.recovers (letters text.dropLast) = false)
    (hpieces : pieces.flatten = text) : m.advanceAll pieces = (m.advance text).1 := by
  rcases List.eq_nil_or_concat' text with hnil | ⟨front, c, htext⟩
  · rw [advanceAll_empty (hpieces.trans hnil), hnil, Matcher.advance, if_pos rfl]
  · rw [htext, List.dropLast_concat] at h
    rw [htext, advanceAll_snoc horder.inOrder (hpieces.trans htext) h, advance_snoc horder.inOrder h c]

/-- From every matcher that tokens lead to, a text reaches the same matcher however it is cut, if every
letter but the last fits the matcher it comes to. -/
theorem advance_pieces {tools : List ToolSchema} (horder : SchemaInOrder tools) (earlier : List (List Char))
    (hm : m = (Matcher.new tools).advanceAll earlier) (h : m.fitsAll text.dropLast = true)
    (hpieces : pieces.flatten = text) : m.advanceAll pieces = (m.advance text).1 := by
  have hidle : m.Idle := hm ▸ (idle_new tools).advanceAll earlier
  have htools : m.tools = tools := hm ▸ advanceAll_tools (Matcher.new tools) earlier
  refine pieces_of_not_recovers (htools ▸ horder) ?_ hpieces
  rw [hidle.recovers_eq (htools ▸ horder.inOrder), h]
  rfl

/-- A schema of one tool with two parameters. -/
private def writeTool : ToolSchema := ⟨"write".toList, ["path".toList, "text".toList], ["path".toList]⟩

theorem advance_pieces_write :
    ((Matcher.new [writeTool]).advanceAll [openToolCalls]).advanceAll [openInvoke ++ "wri".toList, "te".toList] =
      (((Matcher.new [writeTool]).advanceAll [openToolCalls]).advance (openInvoke ++ "write".toList)).1 := by
  refine advance_pieces ⟨by decide, ?_⟩ [openToolCalls] rfl (by decide +kernel) (by decide)
  intro tool htool
  rw [List.mem_singleton] at htool
  rw [htool]
  decide

/-- Inside a block a stray letter makes the matcher fall back, and with it goes a `<` of the same
call. -/
theorem stray_letter_drops_rest :
    (((Matcher.new [writeTool]).advance openToolCalls).1.advance ['x', '<']).1 = Matcher.new [writeTool] ∧
      ((Matcher.new [writeTool]).advance openToolCalls).1.advanceAll [['x'], ['<']] =
        ⟨.out, ['<'], [writeTool]⟩ := by
  decide +kernel

end Chunks
end Hipscope.Dsml.Grammar
