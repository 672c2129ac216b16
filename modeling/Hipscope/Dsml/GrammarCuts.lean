import Hipscope.Dsml.GrammarPath

/-! Cutting a text into tokens does not change where the matcher ends, as long as no piece
makes it fall back. -/
namespace Hipscope.Dsml.Grammar
open Text

/-- Transitions until one stays or falls back. -/
inductive Settles : Matcher → Matcher × Bool → Prop where
  | stay {m m' : Matcher} (h : m.transitionOnce = (.stay, m')) : Settles m (m', false)
  | recover {m m' : Matcher} (h : m.transitionOnce = (.recovered, m')) : Settles m (m', true)
  | advance {m n : Matcher} {r : Matcher × Bool} (h : m.transitionOnce = (.advanced, n)) (hr : Settles n r) :
      Settles m r

/-- More text behind the buffer. -/
def Matcher.push (m : Matcher) (y : List Char) : Matcher := { m with partialBuf := m.partialBuf ++ y }

@[simp] theorem Matcher.push_state (m : Matcher) (y : List Char) : (m.push y).state = m.state := rfl
@[simp] theorem Matcher.push_tools (m : Matcher) (y : List Char) : (m.push y).tools = m.tools := rfl
@[simp] theorem Matcher.push_partialBuf (m : Matcher) (y : List Char) : (m.push y).partialBuf = m.partialBuf ++ y := rfl
@[simp] theorem Matcher.push_push (m : Matcher) (x y : List Char) : (m.push x).push y = m.push (x ++ y) := by
  simp [Matcher.push]
@[simp] theorem Matcher.push_nil (m : Matcher) : m.push [] = m := by simp [Matcher.push]

/-- What a state watches for. -/
inductive Watch where
  | free (trigger : List Char) (next : State)
  | fixed (alternatives : List (List Char × State))
  | name (idx : Option ℕ) (candidates : List (ℕ × List Char)) (settled next : ℕ → State)

def State.watch (tools : List ToolSchema) : State → Watch
  | .out => .free openToolCalls .inToolCalls
  | .inToolCalls => .fixed Matcher.toolCallsAlternatives
  | .inInvokeName toolIdx =>
    .name toolIdx (toolCandidates tools toolIdx) (fun i => .inInvokeName (some i)) fun i => .inInvokeBody i []
  | .inInvokeBody toolIdx emittedParams => .fixed (Matcher.invokeBodyAlternatives tools toolIdx emittedParams)
  | .inParamName toolIdx paramIdx emittedParams =>
    .name paramIdx (paramCandidates (toolAt tools toolIdx) emittedParams paramIdx)
      (fun i => .inParamName toolIdx (some i) emittedParams) fun i => .inParamAttr toolIdx i emittedParams
  | .inParamAttr toolIdx paramIdx emittedParams => .fixed (Matcher.attrAlternatives toolIdx paramIdx emittedParams)
  | .inParamBody toolIdx paramIdx emittedParams =>
    .free closeParam (.inInvokeBody toolIdx (Matcher.addEmitted emittedParams paramIdx))

def Watch.transition (m : Matcher) : Watch → Transition × Matcher
  | .free trigger next => m.transitionFromFree trigger next
  | .fixed alternatives => m.transitionFromAlternatives alternatives
  | .name idx candidates settled next => m.transitionName idx candidates settled next

/-- The markers of a state. -/
def Watch.markers : Watch → List (List Char)
  | .free trigger _ => [trigger]
  | .fixed alternatives => alternatives.map Prod.fst
  | .name _ candidates _ _ => candidates.map Prod.snd

/-- Leading space that the state drops. -/
def Matcher.atSpace (m : Matcher) : Prop :=
  Matcher.stateAllowsLeadingWs m.state = true ∧ m.partialBuf.takeWhile Matcher.isWs ≠ []

section Watch
variable {tools : List ToolSchema} {m m' : Matcher} {σ : State}

theorem transitionOnce_space (h : m.atSpace) :
    m.transitionOnce = (.advanced, { m with partialBuf := m.partialBuf.dropWhile Matcher.isWs }) := by
  rw [Matcher.transitionOnce]
  exact if_pos h

theorem transitionOnce_watch (h : ¬ m.atSpace) : m.transitionOnce = (m.state.watch m.tools).transition m := by
  rw [Matcher.transitionOnce]
  refine (if_neg h).trans ?_
  cases m.state <;> rfl

/-- No marker is empty. -/
theorem markers_nonempty (tools : List ToolSchema) (σ : State) : ∀ marker ∈ (σ.watch tools).markers, marker ≠ [] := by
  cases σ with
  | out => exact (by decide : ∀ marker ∈ [openToolCalls], marker ≠ [])
  | inToolCalls => exact (by decide : ∀ marker ∈ Matcher.toolCallsAlternatives.map Prod.fst, marker ≠ [])
  | inParamAttr toolIdx paramIdx emittedParams =>
    exact (by decide : ∀ marker ∈ [attrStringTrue, attrStringFalse], marker ≠ [])
  | inParamBody toolIdx paramIdx emittedParams => exact (by decide : ∀ marker ∈ [closeParam], marker ≠ [])
  | inInvokeBody toolIdx emittedParams =>
    have hall : ∀ marker ∈ [openParam, closeInvoke, closeToolVariant], marker ≠ [] := by decide
    intro marker hmem
    refine hall marker ?_
    rw [State.watch, Watch.markers, Matcher.invokeBodyAlternatives] at hmem
    split at hmem
    · exact hmem
    · exact List.mem_of_mem_head? (List.mem_singleton.1 hmem ▸ rfl)
  | inInvokeName toolIdx =>
    intro marker hmem
    obtain ⟨c, hc, rfl⟩ := List.mem_map.1 hmem
    cases toolIdx with
    | none =>
      obtain ⟨i, -, rfl⟩ := List.mem_map.1 hc
      simp [nameEnd]
    | some i =>
      rw [List.mem_singleton.1 hc]
      simp [nameEnd]
  | inParamName toolIdx paramIdx emittedParams =>
    intro marker hmem
    obtain ⟨c, hc, rfl⟩ := List.mem_map.1 hmem
    cases paramIdx with
    | none =>
      obtain ⟨i, -, rfl⟩ := List.mem_map.1 hc
      simp [paramNameEnd]
    | some i =>
      rw [List.mem_singleton.1 hc]
      simp [paramNameEnd]

/-- The marker of the state is complete, and the buffer goes on behind it. -/
def Matcher.past (m : Matcher) (marker : List Char) (next : State) : Matcher :=
  { m with state := next, partialBuf := m.partialBuf.drop marker.length }

theorem transitionFromFree_advanced {trigger : List Char} {next : State}
    (h : m.transitionFromFree trigger next = (.advanced, m')) :
    ∃ i, memmem m.partialBuf trigger = some i ∧
      m' = { m with state := next, partialBuf := m.partialBuf.drop (i + trigger.length) } := by
  rw [Matcher.transitionFromFree] at h
  split at h
  · rename_i i hi
    exact ⟨i, hi, (Prod.mk.inj h).2.symm⟩
  · cases h

theorem transitionFromAlternatives_advanced {alts : List (List Char × State)}
    (h : m.transitionFromAlternatives alts = (.advanced, m')) :
    ∃ a, alts.find? (fun a => a.1.isPrefixOf m.partialBuf) = some a ∧ m' = m.past a.1 a.2 := by
  rw [Matcher.transitionFromAlternatives] at h
  split at h
  · rename_i needle next hfind
    exact ⟨_, hfind, (Prod.mk.inj h).2.symm⟩
  · split at h
    · cases h
    · cases h

theorem transitionName_advanced {idx : Option ℕ} {candidates : List (ℕ × List Char)} {settled next : ℕ → State}
    (h : m.transitionName idx candidates settled next = (.advanced, m')) :
    (∃ c, candidates.find? (fun c => c.2.isPrefixOf m.partialBuf) = some c ∧ m' = m.past c.2 (next c.1)) ∨
      (idx = none ∧ candidates.find? (fun c => c.2.isPrefixOf m.partialBuf) = none ∧
        ∃ c, candidates.filter (fun c => m.partialBuf.isPrefixOf c.2) = [c] ∧ m' = { m with state := settled c.1 }) := by
  cases hfind : candidates.find? fun c => c.2.isPrefixOf m.partialBuf with
  | some c =>
    simp only [Matcher.transitionName, hfind] at h
    exact .inl ⟨c, rfl, (Prod.mk.inj h).2.symm⟩
  | none =>
    simp only [Matcher.transitionName, hfind] at h
    generalize hfilter : candidates.filter (fun c => m.partialBuf.isPrefixOf c.2) = matching at h ⊢
    rcases matching with _ | ⟨c, _ | ⟨d, matching⟩⟩
    · cases idx <;> cases h
    · cases idx with
      | none => exact .inr ⟨rfl, rfl, c, rfl, (Prod.mk.inj h).2.symm⟩
      | some i => cases h
    · cases idx <;> cases h

/-- The state settled on watches for its one candidate. -/
theorem watch_settled {candidates : List (ℕ × List Char)} {settled next : ℕ → State} {c : ℕ × List Char}
    (h : σ.watch tools = .name none candidates settled next) (hc : c ∈ candidates) :
    (settled c.1).watch tools = .name (some c.1) [c] settled next ∧
      Matcher.stateAllowsLeadingWs (settled c.1) = false ∧ (settled c.1).isUnsettled = false ∧ σ.isUnsettled = true := by
  cases σ with
  | inInvokeName toolIdx =>
    cases toolIdx with
    | none =>
      cases h
      obtain ⟨i, -, rfl⟩ := List.mem_map.1 hc
      exact ⟨rfl, rfl, rfl, rfl⟩
    | some i => cases h
  | inParamName toolIdx paramIdx emittedParams =>
    cases paramIdx with
    | none =>
      cases h
      obtain ⟨i, -, rfl⟩ := List.mem_map.1 hc
      exact ⟨rfl, rfl, rfl, rfl⟩
    | some i => cases h
  | out => cases h
  | inToolCalls => cases h
  | inInvokeBody toolIdx emittedParams => cases h
  | inParamAttr toolIdx paramIdx emittedParams => cases h
  | inParamBody toolIdx paramIdx emittedParams => cases h

end Watch

section Size
variable {m m' : Matcher}

private theorem size_bounds (m : Matcher) : 2 * m.partialBuf.length ≤ m.size ∧ m.size ≤ 2 * m.partialBuf.length + 1 := by
  rw [Matcher.size]
  cases m.state.isUnsettled <;> simp

private theorem size_past {marker : List Char} (hne : marker ≠ []) (hin : marker <+: m.partialBuf) (next : State) :
    (m.past marker next).size < m.size := by
  have := List.length_pos_iff.2 hne
  have := hin.length_le
  have hafter := (size_bounds (m.past marker next)).2
  have hbefore := (size_bounds m).1
  have hlen : (m.past marker next).partialBuf.length = m.partialBuf.length - marker.length := List.length_drop
  omega

/-- A transition that goes on shortens the buffer or settles on a name. -/
theorem transitionOnce_size (h : m.transitionOnce = (.advanced, m')) : m'.size < m.size := by
  by_cases hspace : m.atSpace
  · rw [transitionOnce_space hspace] at h
    rw [← (Prod.mk.inj h).2]
    have hsplit := congrArg List.length (List.takeWhile_append_dropWhile (p := Matcher.isWs) (l := m.partialBuf))
    have := List.length_pos_iff.2 hspace.2
    rw [List.length_append] at hsplit
    simp only [Matcher.size]
    omega
  · rw [transitionOnce_watch hspace] at h
    have hne := markers_nonempty m.tools m.state
    cases hwatch : m.state.watch m.tools with
    | free trigger next =>
      rw [hwatch] at h hne
      obtain ⟨i, hi, rfl⟩ := transitionFromFree_advanced h
      have htrigger : trigger ≠ [] := hne trigger (List.mem_singleton_self _)
      have := List.length_pos_iff.2 htrigger
      obtain ⟨-, hfit, -⟩ := memmem_some htrigger hi
      have hafter := (size_bounds { m with state := next, partialBuf := m.partialBuf.drop (i + trigger.length) }).2
      have hbefore := (size_bounds m).1
      simp only [List.length_drop] at hafter
      omega
    | fixed alternatives =>
      rw [hwatch] at h hne
      obtain ⟨a, hfind, rfl⟩ := transitionFromAlternatives_advanced h
      have hin := List.find?_some hfind
      exact size_past (hne a.1 (List.mem_map_of_mem (List.mem_of_find?_eq_some hfind)))
        (List.isPrefixOf_iff_prefix.1 hin) a.2
    | name idx candidates settled next =>
      rw [hwatch] at h hne
      rcases transitionName_advanced h with ⟨c, hfind, rfl⟩ | ⟨rfl, -, c, hfilter, rfl⟩
      · have hin := List.find?_some hfind
        exact size_past (hne c.2 (List.mem_map_of_mem (List.mem_of_find?_eq_some hfind)))
          (List.isPrefixOf_iff_prefix.1 hin) (next c.1)
      · have hc : c ∈ candidates := (List.mem_filter.1 (hfilter ▸ List.mem_singleton_self c)).1
        obtain ⟨-, -, hset, hun⟩ := watch_settled hwatch hc
        simp only [Matcher.size, hset, hun, if_true]
        simp

theorem settles_settle {rounds : ℕ} (h : m.size < rounds) : Settles m (m.settle rounds) := by
  induction rounds generalizing m with
  | zero => exact absurd h (Nat.not_lt_zero _)
  | succ rounds ih =>
    rw [Matcher.settle]
    rcases hstep : m.transitionOnce with ⟨transition, m'⟩
    cases transition with
    | stay => exact .stay hstep
    | recovered => exact .recover hstep
    | advanced =>
      have := transitionOnce_size hstep
      exact .advance hstep (ih (by omega))

theorem Settles.unique {r r' : Matcher × Bool} (h : Settles m r) (h' : Settles m r') : r = r' := by
  induction h with
  | stay h =>
    cases h' with
    | stay h' => rw [(Prod.mk.inj (h.symm.trans h')).2]
    | recover h' => cases h.symm.trans h'
    | advance h' hr' => cases h.symm.trans h'
  | recover h =>
    cases h' with
    | stay h' => cases h.symm.trans h'
    | recover h' => rw [(Prod.mk.inj (h.symm.trans h')).2]
    | advance h' hr' => cases h.symm.trans h'
  | advance h hr ih =>
    cases h' with
    | stay h' => cases h.symm.trans h'
    | recover h' => cases h.symm.trans h'
    | advance h' hr' =>
      rw [← (Prod.mk.inj (h.symm.trans h')).2] at hr'
      exact ih hr'

end Size

section Free
variable {trigger x y k : List Char} {i : ℕ}

/-- What is kept of a text without the trigger finds it at the same place when the text goes on. -/
theorem memmem_keepTail (ht : trigger ≠ []) (hnone : memmem x trigger = none) (y : List Char) :
    ∃ d, x = d ++ Matcher.keepTail trigger x ∧
      memmem (x ++ y) trigger = (memmem (Matcher.keepTail trigger x ++ y) trigger).map (d.length + ·) := by
  obtain ⟨d, hd⟩ := keepTail_suffix trigger x
  refine ⟨d, hd.symm, ?_⟩
  conv_lhs => rw [← hd]
  exact memmem_kept ht (hd.symm ▸ hnone) (fun t hsuffix hbegins hne => keepTail_longest (hd ▸ hsuffix) hbegins hne) y

/-- Keeping twice keeps the same. -/
theorem keepTail_kept (hnone : memmem (x ++ y) trigger = none) :
    Matcher.keepTail trigger (Matcher.keepTail trigger x ++ y) = Matcher.keepTail trigger (x ++ y) := by
  have habsent := memmem_none hnone
  obtain ⟨d, hd⟩ := keepTail_suffix trigger x
  have hwhole : d ++ (Matcher.keepTail trigger x ++ y) = x ++ y := by rw [← List.append_assoc, hd]
  have hproper : ∀ {s}, s <:+ x ++ y → s ≠ trigger := by
    rintro s hs rfl
    refine habsent ((x ++ y).length - s.length) ?_
    rw [← List.suffix_iff_eq_drop.1 hs]
  have hsub : Matcher.keepTail trigger x ++ y <:+ x ++ y := ⟨d, hwhole⟩
  have hleft := keepTail_suffix trigger (Matcher.keepTail trigger x ++ y)
  have hright := keepTail_suffix trigger (x ++ y)
  refine (keepTail_longest (hleft.trans hsub) (keepTail_begins _ _) (hproper (hleft.trans hsub))).eq_of_length_le ?_
  -- a tail that begins the trigger and reaches back into `x` does so inside what is kept of `x`
  have hback : Matcher.keepTail trigger (x ++ y) <:+ Matcher.keepTail trigger x ++ y := by
    rcases Nat.lt_or_ge y.length (Matcher.keepTail trigger (x ++ y)).length with hlt | hge
    · obtain ⟨t, ht⟩ : y <:+ Matcher.keepTail trigger (x ++ y) :=
        List.suffix_of_suffix_length_le (List.suffix_append x y) hright hlt.le
      have hbegins : t <+: trigger := (List.prefix_append t y).trans (ht ▸ keepTail_begins trigger (x ++ y))
      obtain ⟨e, he⟩ := hright
      rw [← ht, ← List.append_assoc, List.append_left_inj] at he
      have htx : t <:+ x := ⟨e, he⟩
      have hne : t ≠ trigger := by
        rintro rfl
        obtain ⟨i, hi⟩ := infix_iff_drop.1 (htx.isInfix.trans (List.prefix_append x y).isInfix)
        exact habsent i hi
      obtain ⟨f, hf⟩ := keepTail_longest htx hbegins hne
      exact ⟨f, by rw [← ht, ← List.append_assoc, hf]⟩
    · exact List.suffix_of_suffix_length_le hright ((List.suffix_append _ y).trans hsub) hge |>.trans (List.suffix_append _ y)
  exact (keepTail_longest hback (keepTail_begins _ _) (hproper hright)).length_le

end Free
/-- No marker of a state begins another. -/
def PrefixFree (tools : List ToolSchema) : Prop :=
  ∀ σ : State, ∀ a ∈ (σ.watch tools).markers, ∀ b ∈ (σ.watch tools).markers, a <+: b → a = b

/-- No marker of a state begins one listed before it. -/
def InOrder (tools : List ToolSchema) : Prop :=
  ∀ σ : State, (σ.watch tools).markers.Pairwise fun a b => b <+: a → a = b

theorem PrefixFree.inOrder {tools : List ToolSchema} (h : PrefixFree tools) : InOrder tools := fun σ =>
  List.pairwise_of_forall_mem_list fun a ha b hb hin => (h σ b hb a ha hin).symm

section Push
variable {m m' : Matcher} {r : Matcher × Bool} {y : List Char}

theorem Settles.of_advance (h : Settles m r) (hadv : m.transitionOnce = (.advanced, m')) : Settles m' r := by
  cases h with
  | stay h => cases h.symm.trans hadv
  | recover h => cases h.symm.trans hadv
  | advance h hr => exact (Prod.mk.inj (h.symm.trans hadv)).2 ▸ hr

private theorem not_atSpace_push (h : ¬ m.atSpace)
    (hm : Matcher.stateAllowsLeadingWs m.state = false ∨ m.partialBuf ≠ []) (y : List Char) : ¬ (m.push y).atSpace := by
  rintro ⟨hσ, hne⟩
  rcases hm with hm | hm
  · exact absurd (hσ.symm.trans hm) (by decide)
  · obtain ⟨c, buf, hbuf⟩ := List.exists_cons_of_ne_nil hm
    refine h ⟨hσ, ?_⟩
    rw [Matcher.push_partialBuf, hbuf, List.cons_append, List.takeWhile_cons] at hne
    rw [hbuf, List.takeWhile_cons]
    split at hne
    · rename_i hc
      rw [if_pos hc]
      exact List.cons_ne_nil _ _
    · exact absurd rfl hne

/-- Dropping space in one go or in two. -/
private theorem push_space (h : m.atSpace)
    (hr : Settles ((⟨m.state, m.partialBuf.dropWhile Matcher.isWs, m.tools⟩ : Matcher).push y) r) :
    Settles (m.push y) r := by
  obtain ⟨c, buf, hbuf⟩ := List.exists_cons_of_ne_nil (fun hnil => h.2 (by rw [hnil]; rfl) : m.partialBuf ≠ [])
  have hc : Matcher.isWs c = true := by
    by_contra hc
    exact h.2 (by rw [hbuf, List.takeWhile_cons_of_neg hc])
  have hspace : (m.push y).atSpace := by
    refine ⟨h.1, ?_⟩
    rw [Matcher.push_partialBuf, hbuf, List.cons_append, List.takeWhile_cons_of_pos hc]
    exact List.cons_ne_nil _ _
  refine .advance (transitionOnce_space hspace) ?_
  simp only [Matcher.push_partialBuf, List.dropWhile_append]
  split
  · rename_i hempty
    rw [List.isEmpty_iff.1 hempty] at hr
    by_cases hy : (⟨m.state, y, m.tools⟩ : Matcher).atSpace
    · exact hr.of_advance (transitionOnce_space hy)
    · have hsame : y.dropWhile Matcher.isWs = y := by
        have hnone : y.takeWhile Matcher.isWs = [] := by
          by_contra hne
          exact hy ⟨h.1, hne⟩
        have hsplit := List.takeWhile_append_dropWhile (p := Matcher.isWs) (l := y)
        rwa [hnone] at hsplit
      rw [hsame]
      exact hr
  · exact hr

private theorem push_free {trigger : List Char} {next : State} {tr : Transition} (hspace : ¬ m.atSpace)
    (hwatch : m.state.watch m.tools = .free trigger next) (h : m.transitionFromFree trigger next = (tr, m'))
    (hr : Settles (m'.push y) r) : Settles (m.push y) r := by
  have hws : Matcher.stateAllowsLeadingWs m.state = false := by
    cases hσ : m.state <;> rw [hσ] at hwatch <;> first | rfl | cases hwatch
  have ht : trigger ≠ [] := markers_nonempty m.tools m.state trigger (hwatch ▸ List.mem_singleton_self _)
  have hstep : (m.push y).transitionOnce = (m.push y).transitionFromFree trigger next := by
    rw [transitionOnce_watch (not_atSpace_push hspace (.inl hws) y), Matcher.push_state, Matcher.push_tools, hwatch]
    rfl
  cases hfind : memmem m.partialBuf trigger with
  | some i =>
    simp only [Matcher.transitionFromFree, hfind] at h
    obtain ⟨-, rfl⟩ := Prod.mk.inj h
    obtain ⟨-, hfit, -⟩ := memmem_some ht hfind
    refine .advance (hstep.trans ?_) hr
    simp only [Matcher.transitionFromFree, Matcher.push_partialBuf, memmem_append ht hfind,
      List.drop_append_of_le_length hfit]
    rfl
  | none =>
    simp only [Matcher.transitionFromFree, hfind] at h
    obtain ⟨-, rfl⟩ := Prod.mk.inj h
    have hstep' : ((⟨m.state, Matcher.keepTail trigger m.partialBuf, m.tools⟩ : Matcher).push y).transitionOnce =
        ((⟨m.state, Matcher.keepTail trigger m.partialBuf, m.tools⟩ : Matcher).push y).transitionFromFree trigger next := by
      rw [transitionOnce_watch, Matcher.push_state, Matcher.push_tools, hwatch]
      · rfl
      · exact fun hs => absurd (hs.1.symm.trans hws) (by decide)
    obtain ⟨d, hd, hkept⟩ := memmem_keepTail ht hfind y
    cases hlater : memmem (Matcher.keepTail trigger m.partialBuf ++ y) trigger with
    | some i =>
      rw [hlater] at hkept
      simp only [Matcher.transitionFromFree, Matcher.push_partialBuf, hlater] at hstep'
      refine .advance (hstep.trans ?_) (hr.of_advance hstep')
      simp only [Matcher.transitionFromFree, Matcher.push_partialBuf, hkept, Option.map_some]
      rw [Nat.add_assoc, ← List.drop_drop]
      conv_lhs => rw [hd, List.append_assoc, List.drop_left]
      rfl
    | none =>
      rw [hlater] at hkept
      simp only [Matcher.transitionFromFree, Matcher.push_partialBuf, hlater] at hstep'
      have hstay := hstep
      simp only [Matcher.transitionFromFree, Matcher.push_partialBuf, hkept, Option.map_none] at hstay
      rw [hr.unique (.stay hstep'), keepTail_kept hkept]
      exact .stay hstay

private theorem push_past {marker : List Char} {next : State} (hin : marker <+: m.partialBuf) (y : List Char) :
    (m.push y).past marker next = (m.past marker next).push y := by
  simp only [Matcher.past, Matcher.push, List.drop_append_of_le_length hin.length_le]

private theorem push_fixed {alternatives : List (List Char × State)} {tr : Transition} (horder : InOrder m.tools)
    (hspace : ¬ m.atSpace) (hwatch : m.state.watch m.tools = .fixed alternatives)
    (h : m.transitionFromAlternatives alternatives = (tr, m')) (htr : tr ≠ .recovered) (hr : Settles (m'.push y) r) :
    Settles (m.push y) r := by
  have horder := horder m.state
  rw [hwatch] at horder
  cases hfind : alternatives.find? fun a => a.1.isPrefixOf m.partialBuf with
  | some a =>
    have hin : a.1 <+: m.partialBuf := List.isPrefixOf_iff_prefix.1 (by simpa using List.find?_some hfind)
    have hne : a.1 ≠ [] := markers_nonempty m.tools m.state a.1
      (hwatch ▸ List.mem_map_of_mem (List.mem_of_find?_eq_some hfind))
    have hbuf : m.partialBuf ≠ [] := fun hnil => hne (List.prefix_nil.1 (hnil ▸ hin))
    simp only [Matcher.transitionFromAlternatives, hfind] at h
    obtain ⟨-, rfl⟩ := Prod.mk.inj h
    refine .advance (n := (m.push y).past a.1 a.2) ?_ ?_
    · rw [transitionOnce_watch (not_atSpace_push hspace (.inr hbuf) y), Matcher.push_state, Matcher.push_tools, hwatch,
        Watch.transition, Matcher.transitionFromAlternatives, Matcher.push_partialBuf, find_append horder hfind]
      rfl
    · rw [push_past hin]
      exact hr
  | none =>
    simp only [Matcher.transitionFromAlternatives, hfind] at h
    split at h
    · obtain ⟨-, rfl⟩ := Prod.mk.inj h
      exact hr
    · exact absurd (Prod.mk.inj h).1.symm htr

/-- The one candidate left stays the only one, or none stays. -/
private theorem push_settled {candidates : List (ℕ × List Char)} {settled next : ℕ → State} {c : ℕ × List Char}
    (hwatch : m.state.watch m.tools = .name none candidates settled next) (hc : c ∈ candidates)
    (hfind : candidates.find? (fun c => c.2.isPrefixOf m.partialBuf) = none)
    (hfilter : candidates.filter (fun c => m.partialBuf.isPrefixOf c.2) = [c])
    (hstep : (m.push y).transitionOnce = (m.push y).transitionName none candidates settled next)
    (hr : Settles (({ m with state := settled c.1 } : Matcher).push y) r) : Settles (m.push y) r := by
  obtain ⟨hwatch', hws', -, -⟩ := watch_settled hwatch hc
  have hstep' : (({ m with state := settled c.1 } : Matcher).push y).transitionOnce =
      (({ m with state := settled c.1 } : Matcher).push y).transitionName (some c.1) [c] settled next := by
    rw [transitionOnce_watch, Matcher.push_state, Matcher.push_tools, hwatch']
    · rfl
    · exact fun hs => absurd (hs.1.symm.trans hws') (by decide)
  cases hlong : candidates.find? fun c => c.2.isPrefixOf (m.partialBuf ++ y) with
  | some d =>
    have hd := List.mem_of_find?_eq_some hlong
    have hin : d.2 <+: m.partialBuf ++ y := List.isPrefixOf_iff_prefix.1 (by simpa using List.find?_some hlong)
    have hshort : m.partialBuf <+: d.2 := by
      refine (List.prefix_or_prefix_of_prefix (List.prefix_append _ y) hin).resolve_right fun h => ?_
      exact List.find?_eq_none.1 hfind d hd (List.isPrefixOf_iff_prefix.2 h)
    obtain rfl : d = c := by
      have : d ∈ candidates.filter fun c => m.partialBuf.isPrefixOf c.2 :=
        List.mem_filter.2 ⟨hd, List.isPrefixOf_iff_prefix.2 hshort⟩
      rwa [hfilter, List.mem_singleton] at this
    have hone : [d].find? (fun c => c.2.isPrefixOf (m.partialBuf ++ y)) = some d :=
      List.find?_cons_of_pos (List.isPrefixOf_iff_prefix.2 hin)
    simp only [Matcher.transitionName, Matcher.push_partialBuf, hlong] at hstep
    simp only [Matcher.transitionName, Matcher.push_partialBuf, hone] at hstep'
    exact .advance hstep (hr.of_advance hstep')
  | none =>
    have hfewer : candidates.filter (fun c => (m.partialBuf ++ y).isPrefixOf c.2) =
        [c].filter fun c => (m.partialBuf ++ y).isPrefixOf c.2 := by
      rw [← hfilter, List.filter_filter]
      refine List.filter_congr fun d _ => ?_
      rw [Bool.eq_iff_iff, Bool.and_eq_true, List.isPrefixOf_iff_prefix, List.isPrefixOf_iff_prefix]
      exact ⟨fun h => ⟨h, (List.prefix_append _ y).trans h⟩, fun h => h.1⟩
    have hone : [c].find? (fun c => c.2.isPrefixOf (m.partialBuf ++ y)) = none :=
      List.find?_cons_of_neg (List.find?_eq_none.1 hlong c hc)
    by_cases hin : m.partialBuf ++ y <+: c.2
    · have hsame : [c].filter (fun c => (m.partialBuf ++ y).isPrefixOf c.2) = [c] :=
        List.filter_cons_of_pos (List.isPrefixOf_iff_prefix.2 hin)
      simp only [Matcher.transitionName, Matcher.push_partialBuf, hlong, hfewer, hsame] at hstep
      exact .advance hstep hr
    · have hgone : [c].filter (fun c => (m.partialBuf ++ y).isPrefixOf c.2) = [] :=
        List.filter_cons_of_neg (fun h => hin (List.isPrefixOf_iff_prefix.1 h))
      simp only [Matcher.transitionName, Matcher.push_partialBuf, hlong, hfewer, hgone] at hstep
      simp only [Matcher.transitionName, Matcher.push_partialBuf, hone, hgone] at hstep'
      rw [hr.unique (.recover hstep')]
      exact .recover hstep

private theorem push_name {idx : Option ℕ} {candidates : List (ℕ × List Char)} {settled next : ℕ → State} {tr : Transition}
    (horder : InOrder m.tools) (hspace : ¬ m.atSpace)
    (hwatch : m.state.watch m.tools = .name idx candidates settled next)
    (h : m.transitionName idx candidates settled next = (tr, m')) (htr : tr ≠ .recovered) (hr : Settles (m'.push y) r) :
    Settles (m.push y) r := by
  have hws : Matcher.stateAllowsLeadingWs m.state = false := by
    cases hσ : m.state <;> rw [hσ] at hwatch <;> first | rfl | cases hwatch
  have horder := horder m.state
  rw [hwatch] at horder
  have hstep : (m.push y).transitionOnce = (m.push y).transitionName idx candidates settled next := by
    rw [transitionOnce_watch (not_atSpace_push hspace (.inl hws) y), Matcher.push_state, Matcher.push_tools, hwatch]
    rfl
  cases hfind : candidates.find? fun c => c.2.isPrefixOf m.partialBuf with
  | some c =>
    have hin : c.2 <+: m.partialBuf := List.isPrefixOf_iff_prefix.1 (by simpa using List.find?_some hfind)
    simp only [Matcher.transitionName, hfind] at h
    obtain ⟨-, rfl⟩ := Prod.mk.inj h
    refine .advance (n := (m.push y).past c.2 (next c.1)) ?_ ?_
    · rw [hstep]
      simp only [Matcher.transitionName, Matcher.push_partialBuf, find_append horder hfind]
      rfl
    · rw [push_past hin]
      exact hr
  | none =>
    cases tr with
    | recovered => exact absurd rfl htr
    | stay =>
      simp only [Matcher.transitionName, hfind] at h
      split at h
      · cases h
      · cases h
      · obtain ⟨-, rfl⟩ := Prod.mk.inj h
        exact hr
    | advanced =>
      rcases transitionName_advanced h with ⟨c, hsome, -⟩ | ⟨rfl, -, c, hfilter, rfl⟩
      · cases hfind.symm.trans hsome
      have hc : c ∈ candidates := (List.mem_filter.1 (hfilter ▸ List.mem_singleton_self c)).1
      exact push_settled hwatch hc hfind hfilter hstep hr

/-- A step on a buffer is a step of the longer buffer too. -/
theorem Settles.push_of_step {tr : Transition} (horder : InOrder m.tools) (h : m.transitionOnce = (tr, m'))
    (htr : tr ≠ .recovered) (hr : Settles (m'.push y) r) : Settles (m.push y) r := by
  by_cases hspace : m.atSpace
  · rw [transitionOnce_space hspace] at h
    obtain ⟨-, rfl⟩ := Prod.mk.inj h
    exact push_space hspace hr
  · rw [transitionOnce_watch hspace] at h
    cases hwatch : m.state.watch m.tools with
    | free trigger next =>
      rw [hwatch] at h
      exact push_free hspace hwatch h hr
    | fixed alternatives =>
      rw [hwatch] at h
      exact push_fixed horder hspace hwatch h htr hr
    | name idx candidates settled next =>
      rw [hwatch] at h
      exact push_name horder hspace hwatch h htr hr

theorem transitionOnce_tools {tr : Transition} (h : m.transitionOnce = (tr, m')) : m'.tools = m.tools := by
  have hwatch : ∀ w : Watch, (w.transition m).2.tools = m.tools := by
    intro w
    cases w with
    | free trigger next =>
      rw [Watch.transition, Matcher.transitionFromFree]
      split <;> rfl
    | fixed alternatives =>
      rw [Watch.transition, Matcher.transitionFromAlternatives]
      split
      · rfl
      · split <;> rfl
    | name idx candidates settled next =>
      simp only [Watch.transition, Matcher.transitionName]
      generalize candidates.filter (fun c => m.partialBuf.isPrefixOf c.2) = matching
      generalize candidates.find? (fun c => c.2.isPrefixOf m.partialBuf) = found
      cases found with
      | some c => rfl
      | none => rcases matching with _ | ⟨c, _ | ⟨d, matching⟩⟩ <;> cases idx <;> rfl
  have hout : m.transitionOnce.2 = m' := congrArg Prod.snd h
  rw [← hout]
  by_cases hspace : m.atSpace
  · rw [transitionOnce_space hspace]
  · rw [transitionOnce_watch hspace]
    exact hwatch _

theorem Settles.tools (h : Settles m r) : r.1.tools = m.tools := by
  induction h with
  | stay h => exact transitionOnce_tools h
  | recover h => exact transitionOnce_tools h
  | advance h _ ih => exact ih.trans (transitionOnce_tools h)

/-- A text settled on and the rest behind it settle like the whole. -/
theorem Settles.push (horder : InOrder m.tools) (h : Settles m (m', false)) (hr : Settles (m'.push y) r) :
    Settles (m.push y) r := by
  generalize hout : (m', false) = out at h
  induction h with
  | stay h =>
    cases hout
    exact Settles.push_of_step horder h (by decide) hr
  | recover h => cases hout
  | advance h _ ih =>
    exact Settles.push_of_step horder h (by decide) (ih (transitionOnce_tools h ▸ horder) hout)

theorem advance_settles (hy : y ≠ []) : Settles (m.push y) (m.advance y) := by
  rw [Matcher.advance, if_neg hy]
  exact settles_settle (by have := size_bounds (m.push y); rw [Matcher.push_partialBuf] at this; omega)

theorem advance_tools (m : Matcher) (y : List Char) : (m.advance y).1.tools = m.tools := by
  by_cases hy : y = []
  · rw [Matcher.advance, if_pos hy]
  · exact (advance_settles hy).tools

end Push

/-- The matcher after all tokens. -/
def Matcher.advanceAll (m : Matcher) (tokens : List (List Char)) : Matcher :=
  tokens.foldl (fun m t => (m.advance t).1) m

theorem advanceAll_tools (m : Matcher) (tokens : List (List Char)) : (m.advanceAll tokens).tools = m.tools := by
  induction tokens generalizing m with
  | nil => rfl
  | cons t tokens ih => exact (ih (m.advance t).1).trans (advance_tools m t)

/-- Some token makes the matcher fall back. -/
def Matcher.recovers (m : Matcher) : List (List Char) → Bool
  | [] => false
  | t :: ts => (m.advance t).2 || (m.advance t).1.recovers ts

/-- A text as tokens of one character. -/
def letters (text : List Char) : List (List Char) := text.map fun c => [c]

section Letters
variable {m : Matcher} {text : List Char} {tokens : List (List Char)}

theorem letters_append (s t : List Char) : letters (s ++ t) = letters s ++ letters t := List.map_append

theorem recovers_append (m : Matcher) (s t : List (List Char)) :
    m.recovers (s ++ t) = (m.recovers s || (m.advanceAll s).recovers t) := by
  induction s generalizing m with
  | nil => rfl
  | cons x s ih => rw [List.cons_append, Matcher.recovers, Matcher.recovers, ih, Bool.or_assoc]; rfl

theorem advanceAll_append (m : Matcher) (s t : List (List Char)) : m.advanceAll (s ++ t) = (m.advanceAll s).advanceAll t :=
  List.foldl_append

/-- Fed at once or letter by letter, the matcher ends the same. -/
theorem advance_letters (horder : InOrder m.tools) (ht : text ≠ []) (h : m.recovers (letters text) = false) :
    m.advance text = (m.advanceAll (letters text), false) := by
  induction text generalizing m with
  | nil => exact absurd rfl ht
  | cons c text ih =>
    have hsplit : letters (c :: text) = [c] :: letters text := rfl
    rw [hsplit, Matcher.recovers, Bool.or_eq_false_iff] at h
    obtain ⟨hc, hrest⟩ := h
    have hone : m.advance [c] = ((m.advance [c]).1, false) := Prod.ext rfl hc
    cases text with
    | nil => exact hone
    | cons d text =>
      have hstep := advance_settles (m := m) (List.cons_ne_nil c [])
      rw [hone] at hstep
      have hmore := advance_settles (m := (m.advance [c]).1) (List.cons_ne_nil d text)
      have hlater := ih (advance_tools m [c] ▸ horder) (List.cons_ne_nil d text) hrest
      have hwhole := Settles.push (y := d :: text) (by exact horder) hstep hmore
      rw [Matcher.push_push, List.singleton_append] at hwhole
      rw [hsplit, (advance_settles (List.cons_ne_nil _ _)).unique hwhole, hlater]
      rfl

/-- However a text is cut, the matcher does not fall back if it does not letter by letter. -/
theorem recovers_letters (horder : InOrder m.tools) (h : m.recovers (letters tokens.flatten) = false) :
    m.recovers tokens = false ∧ m.advanceAll tokens = m.advanceAll (letters tokens.flatten) := by
  induction tokens generalizing m with
  | nil => exact ⟨rfl, rfl⟩
  | cons t tokens ih =>
    rw [List.flatten_cons, letters_append] at h ⊢
    rw [recovers_append, Bool.or_eq_false_iff] at h
    have hadvance : m.advance t = (m.advanceAll (letters t), false) := by
      by_cases ht : t = []
      · subst ht
        rfl
      · exact advance_letters horder ht h.1
    have htools : (m.advanceAll (letters t)).tools = m.tools := by
      have := advance_tools m t
      rwa [hadvance] at this
    obtain ⟨hnone, hend⟩ := ih (htools ▸ horder) h.2
    rw [advanceAll_append, ← hend, Matcher.recovers, hadvance, hnone]
    refine ⟨rfl, ?_⟩
    rw [Matcher.advanceAll, List.foldl_cons, hadvance]
    rfl

end Letters
end Hipscope.Dsml.Grammar
