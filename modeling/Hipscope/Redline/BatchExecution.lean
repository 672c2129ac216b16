import Hipscope.Redline.BatchOrder

/-! Executions of a published batch: phases and tokens run one after the other,
the final signal covers every packet, and the packet budget is met exactly. -/
namespace Hipscope.Redline.Aql
open Queue

/-- A slot of a batch with these phases and tokens. -/
def Slot.InBatch (phases : List TwoQueuePhase) (tokenCount : ℕ) (slot : Slot) : Prop :=
  slot.token < tokenCount ∧ slot.lane < 2 ∧
    ∃ phase, phases[slot.phase]? = some phase ∧ slot.index < (phase.get slot.lane).length

/-- An earlier phase of the same token, or an earlier token. -/
def Slot.Earlier (a b : Slot) : Prop := a.token < b.token ∨ a.token = b.token ∧ a.phase < b.phase

theorem nodup_flatMap_of_key {α β κ : Type} {l : List α} {f : α → List β} (key : β → κ) (k : α → κ)
    (hk : (l.map k).Nodup) (hf : ∀ a ∈ l, ∀ b ∈ f a, key b = k a) (hn : ∀ a ∈ l, (f a).Nodup) :
    (l.flatMap f).Nodup := by
  refine List.nodup_flatMap.mpr ⟨hn, ?_⟩
  rw [List.Nodup, List.pairwise_map] at hk
  refine hk.imp_of_mem fun {a b} ha hb hab => ?_
  intro x hxa hxb
  exact hab ((hf a ha x hxa).symm.trans (hf b hb x hxb))

section Keys
variable {phases : List TwoQueuePhase} {policies : TwoQueueDerivedPolicies} {tokenCount : ℕ}

/-- Tokens and phases with their headers, in publication order. -/
private def stageKeys (phases : List TwoQueuePhase) (policies : TwoQueueDerivedPolicies)
    (tokenCount : ℕ) : List (ℕ × (TwoQueuePhase × TwoLanes (List HeaderPolicy)) × ℕ) :=
  (List.range tokenCount).flatMap fun token =>
    (phases.zip (headersFor policies token)).zipIdx.map fun x => (token, x)

private theorem batchStages_eq : batchStages phases policies tokenCount =
    (stageKeys phases policies tokenCount).map (fun k =>
      batchStage phases policies tokenCount k.1 k.2.2 k.2.1) ++
      [finalStage phases policies tokenCount] := by
  rw [batchStages, stageKeys, List.map_flatMap]
  congr 1
  refine List.flatMap_congr fun token _ => ?_
  rw [tokenStages, List.map_map]
  rfl

private theorem mem_stageKeys {k : ℕ × (TwoQueuePhase × TwoLanes (List HeaderPolicy)) × ℕ} :
    k ∈ stageKeys phases policies tokenCount ↔ k.1 < tokenCount ∧
      (phases.zip (headersFor policies k.1))[k.2.2]? = some k.2.1 := by
  simp only [stageKeys, List.mem_flatMap, List.mem_range, List.mem_map]
  constructor
  · rintro ⟨token, ht, x, hx, rfl⟩
    exact ⟨ht, List.mk_mem_zipIdx_iff_getElem?.mp hx⟩
  · rintro ⟨ht, hx⟩
    exact ⟨k.1, ht, k.2, List.mk_mem_zipIdx_iff_getElem?.mpr hx, rfl⟩

private theorem zipIdx_sorted {α : Type} (l : List α) : l.zipIdx.Pairwise fun x y => x.2 < y.2 := by
  rw [← List.pairwise_map (f := Prod.snd) (R := (· < ·)), List.zipIdx_map_snd, ← List.range_eq_range']
  exact List.pairwise_lt_range

private theorem stageKeys_sorted : (stageKeys phases policies tokenCount).Pairwise fun a b =>
    a.1 < b.1 ∨ a.1 = b.1 ∧ a.2.2 < b.2.2 := by
  refine List.pairwise_flatMap.mpr ⟨fun token _ => ?_, ?_⟩
  · exact List.pairwise_map.mpr ((zipIdx_sorted _).imp fun h => .inr ⟨rfl, h⟩)
  · refine List.pairwise_lt_range.imp fun h x hx y hy => .inl ?_
    obtain ⟨_, -, rfl⟩ := List.mem_map.mp hx
    obtain ⟨_, -, rfl⟩ := List.mem_map.mp hy
    exact h

end Keys

section Distinct
variable {phases : List TwoQueuePhase} {policies : TwoQueueDerivedPolicies} {tokenCount : ℕ}

private def slotRow (token phase lane n : ℕ) : List Slot :=
  (List.range n).map fun i => ⟨token, phase, lane, i⟩

private theorem slotRow_nodup (token phase lane n : ℕ) : (slotRow token phase lane n).Nodup :=
  List.nodup_range.map fun i j h => by simpa using h

private theorem slotRow_zipIdx {α : Type} (token phase lane : ℕ) (l : List α) :
    slotRow token phase lane l.length = l.zipIdx.map fun x => ⟨token, phase, lane, x.2⟩ := by
  rw [slotRow, List.range_eq_range', ← List.zipIdx_map_snd 0 l, List.map_map]
  rfl

private theorem jobs_kernelPackets {token phase lane : ℕ} {dispatches : List RecordedDispatch}
    {headers : List HeaderPolicy} :
    jobs (publish (kernelPackets phases policies tokenCount token phase lane dispatches headers)) =
      slotRow token phase lane (dispatches.zip headers).length := by
  rw [slotRow_zipIdx, jobs, publish, kernelPackets, List.filterMap_flatMap, List.flatMap_map,
    List.map_eq_flatMap]
  refine List.flatMap_congr fun x _ => ?_
  exact (jobs_append _ _).trans (by rw [jobs_barrierEntries]; rfl)

private theorem cells_kernelPackets {token phase lane : ℕ} {dispatches : List RecordedDispatch}
    {headers : List HeaderPolicy} :
    (writes (publish (kernelPackets phases policies tokenCount token phase lane dispatches
      headers))).map Prod.fst = (slotRow token phase lane (dispatches.zip headers).length).filterMap
        (profilingSignal phases policies tokenCount dispatches.length) := by
  rw [slotRow_zipIdx, writes, publish, kernelPackets, List.filterMap_flatMap, List.flatMap_map,
    List.filterMap_map, List.map_flatMap, List.filterMap_eq_flatMap_toList]
  refine List.flatMap_congr fun x _ => ?_
  refine (congrArg (List.map Prod.fst) (writes_append _ _)).trans ?_
  rw [writes_barrierEntries]
  cases h : profilingSignal phases policies tokenCount dispatches.length ⟨token, phase, lane, x.2⟩ <;>
    simp [writes, Cmd.write, Cmd.isAsync, Cmd.finishWrite, h]

private theorem jobs_laneBatch {token phase lane : ℕ} {dispatches : List RecordedDispatch}
    {headers : List HeaderPolicy} :
    jobs (publish (laneBatch phases policies tokenCount token phase lane dispatches headers)) =
      slotRow token phase lane (dispatches.zip headers).length := by
  rw [laneBatch, publish_append, jobs_append, jobs_kernelPackets, publish, List.flatMap_singleton,
    jobs_barrierAnd, List.append_nil]

private theorem cells_laneBatch {token phase lane : ℕ} {dispatches : List RecordedDispatch}
    {headers : List HeaderPolicy} :
    (writes (publish (laneBatch phases policies tokenCount token phase lane dispatches
      headers))).map Prod.fst = (slotRow token phase lane (dispatches.zip headers).length).filterMap
        (profilingSignal phases policies tokenCount dispatches.length) ++ [.tail token phase lane] := by
  rw [laneBatch, publish_append, writes_append, List.map_append, cells_kernelPackets, publish,
    List.flatMap_singleton, writes_barrierAnd]
  rfl

private theorem joins_silent {token phase : ℕ} :
    jobs (publish (priorPackets phases policies token phase)) = [] ∧
      writes (publish (priorPackets phases policies token phase)) = [] := by
  have hpair (t p : ℕ) : jobs (publish (joinPackets policies t p)) = [] ∧
      writes (publish (joinPackets policies t p)) = [] := by
    simp [joinPackets, publish, jobs_barrierAnd, writes_barrierAnd]
  unfold priorPackets
  split_ifs
  · exact hpair _ _
  · exact hpair _ _
  · exact ⟨rfl, rfl⟩

private theorem jobs_batchStage {token phase : ℕ} {x : TwoQueuePhase × TwoLanes (List HeaderPolicy)} :
    jobs (batchStage phases policies tokenCount token phase x).log =
      slotRow token phase 0 (x.1.zero.zip x.2.zero).length ++
        slotRow token phase 1 (x.1.one.zip x.2.one).length := by
  simp [batchStage, stageBatch, joins_silent, jobs_laneBatch]

private theorem cells_batchStage {token phase : ℕ} {x : TwoQueuePhase × TwoLanes (List HeaderPolicy)} :
    (writes (batchStage phases policies tokenCount token phase x).log).map Prod.fst =
      ((slotRow token phase 0 (x.1.zero.zip x.2.zero).length).filterMap
        (profilingSignal phases policies tokenCount x.1.zero.length) ++ [.tail token phase 0]) ++
      ((slotRow token phase 1 (x.1.one.zip x.2.one).length).filterMap
        (profilingSignal phases policies tokenCount x.1.one.length) ++ [.tail token phase 1]) := by
  simp only [batchStage, stageBatch, publish_append, writes_append, joins_silent, List.nil_append,
    List.map_append, cells_laneBatch]

private theorem mem_slotRow {token phase lane n : ℕ} {slot : Slot} :
    slot ∈ slotRow token phase lane n ↔
      slot.token = token ∧ slot.phase = phase ∧ slot.lane = lane ∧ slot.index < n := by
  obtain ⟨t, p, l, i⟩ := slot
  simp only [slotRow, List.mem_map, List.mem_range, Slot.mk.injEq]
  constructor
  · rintro ⟨j, hj, rfl, rfl, rfl, rfl⟩
    exact ⟨rfl, rfl, rfl, hj⟩
  · rintro ⟨rfl, rfl, rfl, hi⟩
    exact ⟨i, hi, rfl, rfl, rfl, rfl⟩

private theorem profilingSignal_eq {n : ℕ} {slot : Slot} {signal : BatchSignal}
    (h : profilingSignal phases policies tokenCount n slot = some signal) :
    signal = .profiling slot := by
  unfold profilingSignal at h
  split_ifs at h <;> simp_all

/-- The token and phase that own a signal. -/
private def owner : BatchSignal → Option (ℕ × ℕ)
  | .tail token phase _ => some (token, phase)
  | .profiling slot => some (slot.token, slot.phase)
  | .final => none

private theorem laneCells_owner {token phase lane n m : ℕ} {signal : BatchSignal}
    (h : signal ∈ (slotRow token phase lane n).filterMap (profilingSignal phases policies tokenCount m) ++
      [.tail token phase lane]) : signal = .tail token phase lane ∨
        ∃ slot, signal = .profiling slot ∧ slot.token = token ∧ slot.phase = phase ∧ slot.lane = lane := by
  rcases List.mem_append.mp h with h | h
  · obtain ⟨slot, hslot, hs⟩ := List.mem_filterMap.mp h
    obtain ⟨ht, hp, hl, -⟩ := mem_slotRow.mp hslot
    exact .inr ⟨slot, profilingSignal_eq hs, ht, hp, hl⟩
  · exact .inl (List.mem_singleton.mp h)

private theorem laneCells_nodup {token phase lane n m : ℕ} :
    ((slotRow token phase lane n).filterMap (profilingSignal phases policies tokenCount m) ++
      [BatchSignal.tail token phase lane]).Nodup := by
  refine List.nodup_append.mpr ⟨?_, List.nodup_singleton _, ?_⟩
  · refine (slotRow_nodup token phase lane n).filterMap fun a b c ha hb => ?_
    have hab := (profilingSignal_eq ha).symm.trans (profilingSignal_eq hb)
    simpa using hab
  · intro a ha b hb
    obtain ⟨slot, -, hs⟩ := List.mem_filterMap.mp ha
    rw [profilingSignal_eq hs, List.mem_singleton.mp hb]
    simp

private theorem stageKeys_nodup : ((stageKeys phases policies tokenCount).map fun k =>
    (k.1, k.2.2)).Nodup := by
  refine List.pairwise_map.mpr (stageKeys_sorted.imp fun {a b} h hab => ?_)
  obtain ⟨ht, hp⟩ := Prod.mk.inj hab
  omega

private theorem stageLog_batchStages : stageLog (batchStages phases policies tokenCount) =
    ((stageKeys phases policies tokenCount).flatMap fun k =>
      (batchStage phases policies tokenCount k.1 k.2.2 k.2.1).log) ++
      (finalStage phases policies tokenCount).log := by
  rw [batchStages_eq, stageLog, List.flatMap_append, List.flatMap_map, List.flatMap_singleton]

private theorem jobs_finalStage : jobs (finalStage phases policies tokenCount).log = [] := by
  simp [finalStage, publish, jobs_barrierAnd]

private theorem cells_finalStage :
    (writes (finalStage phases policies tokenCount).log).map Prod.fst = [.final] := by
  simp [finalStage, publish, writes_barrierAnd]

/-- No slot is launched twice. -/
theorem batch_jobs_nodup : (jobs (stageLog (batchStages phases policies tokenCount))).Nodup := by
  rw [stageLog_batchStages, jobs_append, jobs_finalStage, List.append_nil, jobs, List.filterMap_flatMap]
  refine nodup_flatMap_of_key (fun slot : Slot => (slot.token, slot.phase)) _ stageKeys_nodup ?_ ?_
  · intro k _ slot hslot
    change slot ∈ jobs _ at hslot
    rw [jobs_batchStage, List.mem_append, mem_slotRow, mem_slotRow] at hslot
    rcases hslot with ⟨ht, hp, -, -⟩ | ⟨ht, hp, -, -⟩ <;> rw [ht, hp]
  · intro k _
    change (jobs _).Nodup
    rw [jobs_batchStage]
    refine (slotRow_nodup _ _ _ _).append (slotRow_nodup _ _ _ _) fun slot h0 h1 => ?_
    have hl := (mem_slotRow.mp h0).2.2.1.symm.trans (mem_slotRow.mp h1).2.2.1
    cases hl

theorem batch_once (slot : Slot) :
    Once (stageLog (batchStages phases policies tokenCount)) (some slot) :=
  once_job batch_jobs_nodup slot

/-- No signal is written twice. -/
theorem batch_oneShot : OneShot (stageLog (batchStages phases policies tokenCount)) := by
  have howner : ∀ k ∈ stageKeys phases policies tokenCount,
      ∀ signal ∈ (writes (batchStage phases policies tokenCount k.1 k.2.2 k.2.1).log).map Prod.fst,
        owner signal = some (k.1, k.2.2) := by
    intro k _ signal hs
    rw [cells_batchStage, List.mem_append] at hs
    rcases hs with hs | hs <;>
      rcases laneCells_owner hs with rfl | ⟨slot, rfl, ht, hp, -⟩ <;> simp [owner, *]
  rw [OneShot, stageLog_batchStages, writes_append, List.map_append, cells_finalStage]
  refine List.Nodup.append ?_ (List.nodup_singleton _) ?_
  · rw [writes, List.filterMap_flatMap, List.map_flatMap]
    refine nodup_flatMap_of_key owner (fun k => some (k.1, k.2.2)) ?_ howner fun k _ => ?_
    · have hkeys : ((stageKeys phases policies tokenCount).map fun k => (k.1, k.2.2)).Nodup :=
        stageKeys_nodup
      have hsome := hkeys.map (Option.some_injective (ℕ × ℕ))
      rwa [List.map_map] at hsome
    · change ((writes _).map Prod.fst).Nodup
      rw [cells_batchStage]
      refine laneCells_nodup.append laneCells_nodup fun signal h0 h1 => ?_
      rcases laneCells_owner h0 with rfl | ⟨slot, rfl, -, -, hl⟩ <;>
        rcases laneCells_owner h1 with h | ⟨slot', h, -, -, hl'⟩ <;> simp_all
  · intro signal hs hf
    rw [writes, List.filterMap_flatMap, List.map_flatMap] at hs
    obtain ⟨k, hk, hs⟩ := List.mem_flatMap.mp hs
    have := howner k hk signal hs
    rw [List.mem_singleton.mp hf] at this
    cases this

/-- Signals a batch allocates for ordering, as opposed to profiling. -/
def BatchSignal.orders : BatchSignal → Bool
  | .profiling _ => false
  | _ => true

private theorem laneCells_orders {token phase lane n m : ℕ} :
    ((slotRow token phase lane n).filterMap (profilingSignal phases policies tokenCount m) ++
      [BatchSignal.tail token phase lane]).filter BatchSignal.orders = [.tail token phase lane] := by
  have hprofiling : ((slotRow token phase lane n).filterMap
      (profilingSignal phases policies tokenCount m)).filter BatchSignal.orders = [] := by
    refine List.filter_eq_nil_iff.mpr fun signal hs => ?_
    obtain ⟨slot, -, hs⟩ := List.mem_filterMap.mp hs
    simp [profilingSignal_eq hs, BatchSignal.orders]
  rw [List.filter_append, hprofiling]
  rfl

private theorem stageKeys_length (hshape : Shaped phases policies) :
    (stageKeys phases policies tokenCount).length = tokenCount * phases.length := by
  rw [stageKeys, List.length_flatMap]
  simp [hshape.length]

/-- Two tails for every phase and token and one final signal are written. -/
theorem batch_signals (hshape : Shaped phases policies) :
    (((writes (stageLog (batchStages phases policies tokenCount))).map Prod.fst).filter
      BatchSignal.orders).length = phases.length * tokenCount * 2 + 1 := by
  have hstage (k : ℕ × (TwoQueuePhase × TwoLanes (List HeaderPolicy)) × ℕ) :
      (((writes (batchStage phases policies tokenCount k.1 k.2.2 k.2.1).log).map Prod.fst).filter
        BatchSignal.orders).length = 2 := by
    rw [cells_batchStage, List.filter_append, laneCells_orders, laneCells_orders]
    rfl
  rw [stageLog_batchStages, writes_append, List.map_append, cells_finalStage, List.filter_append,
    List.length_append, writes, List.filterMap_flatMap, List.map_flatMap, List.filter_flatMap,
    List.length_flatMap]
  change ((stageKeys phases policies tokenCount).map fun k => (((writes (batchStage phases policies
    tokenCount k.1 k.2.2 k.2.1).log).map Prod.fst).filter BatchSignal.orders).length).sum + 1 = _
  simp only [hstage, List.map_const', List.sum_replicate, stageKeys_length hshape, smul_eq_mul]
  ring

end Distinct

section Order
variable {phases : List TwoQueuePhase} {policies : TwoQueueDerivedPolicies} {tokenCount : ℕ}

/-- The stage that launches a slot. -/
private theorem slot_stage (hshape : Shaped phases policies) (tokenCount : ℕ) {slot : Slot}
    (h : slot.InBatch phases tokenCount) : ∃ x, (slot.token, x, slot.phase) ∈
      stageKeys phases policies tokenCount ∧ ∃ e ∈ (batchStage phases policies tokenCount slot.token
        slot.phase x).log, e.tag = some slot ∧ ∃ done, e.cmd = .launch done := by
  obtain ⟨ht, hl, phase, hphase, hi⟩ := h
  obtain ⟨headers, hheaders⟩ : ∃ headers, (headersFor policies slot.token)[slot.phase]? = some headers := by
    have hlt := (List.getElem?_eq_some_iff.mp hphase).1
    rw [← hshape.length slot.token] at hlt
    exact ⟨_, List.getElem?_eq_getElem hlt⟩
  have hzip : (phases.zip (headersFor policies slot.token))[slot.phase]? = some (phase, headers) :=
    List.getElem?_zip_eq_some.mpr ⟨hphase, hheaders⟩
  obtain ⟨hz, ho⟩ := hshape.lanes _ _ (List.mem_of_getElem? hzip)
  refine ⟨(phase, headers), mem_stageKeys.mpr ⟨ht, hzip⟩, ?_⟩
  have hjob : slot ∈ jobs (batchStage phases policies tokenCount slot.token slot.phase
      (phase, headers)).log := by
    rw [jobs_batchStage, List.mem_append, mem_slotRow, mem_slotRow]
    simp only [List.length_zip, hz, ho, Nat.min_self, true_and]
    obtain hlane | hlane : slot.lane = 0 ∨ slot.lane = 1 := by omega
    · rw [hlane] at hi
      exact .inl ⟨hlane, hi⟩
    · rw [hlane] at hi
      exact .inr ⟨hlane, hi⟩
  obtain ⟨e, he, htag⟩ := List.mem_filterMap.mp hjob
  exact ⟨e, he, htag, (tagged_iff_launch he).mp ⟨slot, htag⟩⟩

/-- Every slot of the batch is launched, and nothing else. -/
theorem mem_batch_jobs (hshape : Shaped phases policies) (tokenCount : ℕ) (slot : Slot) :
    slot ∈ jobs (stageLog (batchStages phases policies tokenCount)) ↔
      slot.InBatch phases tokenCount := by
  constructor
  · intro h
    rw [stageLog_batchStages, jobs_append, jobs_finalStage, List.append_nil, jobs,
      List.filterMap_flatMap] at h
    obtain ⟨k, hk, h⟩ := List.mem_flatMap.mp h
    change slot ∈ jobs _ at h
    obtain ⟨hkt, hkx⟩ := mem_stageKeys.mp hk
    obtain ⟨hz, ho⟩ := hshape.lanes _ _ (List.mem_of_getElem? hkx)
    obtain ⟨hphase, -⟩ := List.getElem?_zip_eq_some.mp hkx
    rw [jobs_batchStage, List.mem_append, mem_slotRow, mem_slotRow, List.length_zip,
      List.length_zip, hz, ho, Nat.min_self, Nat.min_self] at h
    rcases h with ⟨ht, hp, hl, hi⟩ | ⟨ht, hp, hl, hi⟩
    · exact ⟨ht ▸ hkt, by omega, k.2.1.1, hp ▸ hphase, hl ▸ hi⟩
    · exact ⟨ht ▸ hkt, by omega, k.2.1.1, hp ▸ hphase, hl ▸ hi⟩
  · intro h
    obtain ⟨x, hx, e, he, htag, -⟩ := slot_stage hshape tokenCount h
    refine List.mem_filterMap.mpr ⟨e, ?_, htag⟩
    rw [stageLog_batchStages]
    exact List.mem_append_left _ (List.mem_flatMap.mpr ⟨_, hx, he⟩)

private theorem joins_zero {st : Stage ℕ (Option Slot) BatchSignal ℕ}
    (h : st ∈ batchStages phases policies tokenCount) : ∀ j ∈ st.joins, (1 : ℕ) ≠ j.2 := by
  intro j hj
  rw [batchStages_eq, List.mem_append, List.mem_map, List.mem_singleton] at h
  rcases h with ⟨k, -, rfl⟩ | rfl
  · simp only [batchStage, joinCells, List.mem_cons, List.not_mem_nil, or_false] at hj
    rcases hj with rfl | rfl <;> exact Nat.one_ne_zero
  · rw [List.mem_singleton.mp hj]
    decide

private theorem slot_pair {a b : ℕ × (TwoQueuePhase × TwoLanes (List HeaderPolicy)) × ℕ}
    (ha : a ∈ stageKeys phases policies tokenCount) (hb : b ∈ stageKeys phases policies tokenCount)
    (hab : a.1 < b.1 ∨ a.1 = b.1 ∧ a.2.2 < b.2.2) :
    [batchStage phases policies tokenCount a.1 a.2.2 a.2.1,
      batchStage phases policies tokenCount b.1 b.2.2 b.2.1].Sublist
        (batchStages phases policies tokenCount) := by
  rw [batchStages_eq]
  have hpair := pair_sublist_of_pairwise (fun x y hxy hyx => by omega) stageKeys_sorted ha hb hab
  exact (hpair.map (fun k => batchStage phases policies tokenCount k.1 k.2.2 k.2.1)).trans
    (List.sublist_append_left _ _)

/-- Work of an earlier phase or token has finished when later work starts. -/
theorem batch_finishesBefore (hb : policies.consolidation.barrier = true)
    (hshape : Shaped phases policies) (hne : phases ≠ []) (ht : tokenCount ≠ 0) {a b : Slot}
    (ha : a.InBatch phases tokenCount) (hb' : b.InBatch phases tokenCount) (hab : a.Earlier b) :
    FinishesBefore (stageLog (batchStages phases policies tokenCount)) (fun _ => 1) (some a) (some b) := by
  obtain ⟨x, hx, e, he, het, done, hec⟩ := slot_stage hshape tokenCount ha
  obtain ⟨y, hy, f, hf, hft, hfc⟩ := slot_stage hshape tokenCount hb'
  have hfin : FinishesBefore (stageLog (batchStages phases policies tokenCount)) (fun _ => 1) e.tag f.tag :=
    ((batchStages_chained hb hshape hne ht).ordered (List.Sublist.refl _) batch_oneShot
      (fun st hst => joins_zero hst) (slot_pair hx hy hab) he hec (het ▸ batch_once a)).2 f hf hfc
        (hft ▸ batch_once b)
  rwa [het, hft] at hfin

/-- The last stage before the final one is the last phase of the last token. -/
private theorem batchStages_last (hshape : Shaped phases policies) (hne : phases ≠ [])
    (ht : tokenCount ≠ 0) : ∃ x, [batchStage phases policies tokenCount (tokenCount - 1)
      (phases.length - 1) x, finalStage phases policies tokenCount].IsSuffix
        (batchStages phases policies tokenCount) := by
  obtain ⟨n, hn⟩ : ∃ n, tokenCount = n + 1 := ⟨tokenCount - 1, by omega⟩
  have hlen : (phases.zip (headersFor policies n)).length = phases.length := by
    rw [List.length_zip, hshape.length, Nat.min_self]
  rcases List.eq_nil_or_concat (phases.zip (headersFor policies n)) with hnil | ⟨l, x, hl⟩
  · rw [hnil] at hlen
    exact absurd (List.eq_nil_of_length_eq_zero hlen.symm) hne
  · have hl' : phases.length - 1 = l.length := by
      rw [← hlen, hl]
      simp
    have htoken : [batchStage phases policies tokenCount n l.length x].IsSuffix
        (tokenStages phases policies tokenCount n) := by
      rw [tokenStages, hl, List.concat_eq_append, List.zipIdx_append, List.map_append]
      simp
    obtain ⟨front, hfront⟩ := htoken
    refine ⟨x, (List.range n).flatMap (tokenStages phases policies tokenCount) ++ front, ?_⟩
    have hn' : tokenCount - 1 = n := by omega
    rw [hn', hl', batchStages]
    conv_rhs => rw [hn, List.range_succ, ← hn]
    rw [List.flatMap_append, List.flatMap_singleton, ← hfront]
    simp

/-- A launched slot is guarded by the final signal. -/
private theorem final_guards (hb : policies.consolidation.barrier = true)
    (hshape : Shaped phases policies) (hne : phases ≠ []) (ht : tokenCount ≠ 0)
    {e : Entry ℕ (Option Slot) BatchSignal ℕ} {done : Option (BatchSignal × ℕ)}
    (he : e ∈ stageLog (batchStages phases policies tokenCount)) (hc : e.cmd = .launch done) :
    Guards (stageLog (batchStages phases policies tokenCount)) (fun _ => 1) .final 0 e.tag := by
  rw [stageLog_batchStages, List.mem_append] at he
  rcases he with he | he
  · obtain ⟨k, hk, he⟩ := List.mem_flatMap.mp he
    obtain ⟨slot, hslot⟩ := (tagged_iff_launch he).mpr ⟨done, hc⟩
    have hpair : [batchStage phases policies tokenCount k.1 k.2.2 k.2.1,
        finalStage phases policies tokenCount].Sublist (batchStages phases policies tokenCount) := by
      rw [batchStages_eq]
      exact (List.singleton_sublist.mpr (List.mem_map_of_mem (f := fun k => batchStage phases policies
        tokenCount k.1 k.2.2 k.2.1) hk)).append (List.Sublist.refl _)
    exact ((batchStages_chained hb hshape hne ht).ordered (List.Sublist.refl _) batch_oneShot
      (fun st hst => joins_zero hst) hpair he hc (hslot ▸ batch_once slot)).1 (.final, 0)
        List.mem_cons_self
  · obtain ⟨slot, hslot⟩ := (tagged_iff_launch he).mpr ⟨done, hc⟩
    have hjob : slot ∈ jobs (finalStage phases policies tokenCount).log :=
      List.mem_filterMap.mpr ⟨e, he, hslot⟩
    rw [jobs_finalStage] at hjob
    simp at hjob

private theorem stage_queue (hb : policies.consolidation.barrier = true)
    {st : Stage ℕ (Option Slot) BatchSignal ℕ} (h : st ∈ batchStages phases policies tokenCount)
    {e : Entry ℕ (Option Slot) BatchSignal ℕ} (he : e ∈ st.log) : e.queue ∈ [0, 1] := by
  rw [batchStages_eq, List.mem_append, List.mem_map, List.mem_singleton] at h
  rcases h with ⟨k, -, rfl⟩ | rfl
  · exact (batchStage_end hb).1 e he
  · rw [finalStage_log, List.mem_append, List.mem_append, List.mem_map, List.mem_singleton] at he
    rcases he with (he | ⟨c, -, rfl⟩) | rfl
    · simp [Packet.mem_barrierEntries he]
    · simp
    · simp

/-- Queue one ends with its last tail, and queue zero waits for it before the
final signal. -/
private theorem batch_closing (hb : policies.consolidation.barrier = true)
    (hshape : Shaped phases policies) (hne : phases ≠ []) (ht : tokenCount ≠ 0) :
    ∃ front middle, ∃ tail : BatchSignal, stageLog (batchStages phases policies tokenCount) =
      front ++ ⟨1, none, .store tail 0⟩ :: (middle ++ [⟨0, none, .store .final 0⟩]) ∧
      (∀ e ∈ front, e.queue ∈ [0, 1]) ∧ (∀ e ∈ middle, e.queue = 0) ∧
      (⟨0, none, .await tail 0⟩ : Entry ℕ (Option Slot) BatchSignal ℕ) ∈ middle := by
  obtain ⟨x, pre, hpre⟩ := batchStages_last hshape hne ht
  have hend : [⟨1, none, .store (.tail (tokenCount - 1) (phases.length - 1) 1) 0⟩].IsSuffix
      (batchStage phases policies tokenCount (tokenCount - 1) (phases.length - 1) x).log :=
    (batchStage_end hb).2
  obtain ⟨front, hfront⟩ := hend
  refine ⟨stageLog pre ++ front, Packet.barrierEntries 0 policies.terminal ++
    (joinCells (tokenCount - 1) (phases.length - 1)).map fun c => ⟨0, none, .await c.1 c.2⟩,
    .tail (tokenCount - 1) (phases.length - 1) 1, ?_, ?_, ?_, ?_⟩
  · rw [← hpre, stageLog, List.flatMap_append]
    simp only [List.flatMap_cons, List.flatMap_nil, List.append_nil, ← hfront, finalStage_log]
    simp [stageLog]
  · intro e he
    rcases List.mem_append.mp he with he | he
    · obtain ⟨st, hst, he⟩ := List.mem_flatMap.mp he
      exact stage_queue hb (hpre ▸ List.mem_append_left _ hst) he
    · exact stage_queue hb (hpre ▸ List.mem_append_right _ List.mem_cons_self)
        (hfront ▸ List.mem_append_left _ he)
  · intro e he
    rcases List.mem_append.mp he with he | he
    · rw [Packet.mem_barrierEntries he]
    · obtain ⟨c, -, rfl⟩ := List.mem_map.mp he
      rfl
  · exact List.mem_append_right _ (List.mem_map.mpr
      ⟨(.tail (tokenCount - 1) (phases.length - 1) 1, 0), by simp [joinCells], rfl⟩)

/-- When the final signal has fired, both queues have been read to their end. -/
private theorem final_issued (hb : policies.consolidation.barrier = true)
    (hshape : Shaped phases policies) (hne : phases ≠ []) (ht : tokenCount ≠ 0)
    {s : State BatchSignal ℕ}
    (hs : Reachable (stageLog (batchStages phases policies tokenCount)) (fun _ => 1) s)
    (hf : s.mem .final = 0) {k : ℕ} {e : Entry ℕ (Option Slot) BatchSignal ℕ}
    (hk : (stageLog (batchStages phases policies tokenCount))[k]? = some e) : s.issued k = true := by
  obtain ⟨front, middle, tail, hlog, hfront, hmiddle, hawait⟩ := batch_closing hb hshape hne ht
  have hone : OneShot (stageLog (batchStages phases policies tokenCount)) := batch_oneShot
  rw [hlog] at hs hk hone
  have hx : (front ++ ⟨1, none, .store tail 0⟩ :: (middle ++ [⟨0, none, .store .final 0⟩] :
      List (Entry ℕ (Option Slot) BatchSignal ℕ)))[front.length]? = some ⟨1, none, .store tail 0⟩ := by
    simp
  have hz : (front ++ ⟨1, none, .store tail 0⟩ :: (middle ++ [⟨0, none, .store .final 0⟩] :
      List (Entry ℕ (Option Slot) BatchSignal ℕ)))[front.length + (middle.length + 1)]? =
        some ⟨0, none, .store .final 0⟩ := by
    rw [List.getElem?_append_right (by omega)]
    simp
  have hzi : s.issued (front.length + (middle.length + 1)) = true := by
    obtain ⟨j, d, hd, hw, hset⟩ := hs.mem_origin (by decide) hf
    obtain rfl := hone.sole hd hz hw rfl
    exact hs.settled_issued hset
  have hxi : s.issued front.length = true := by
    obtain ⟨i, hi⟩ := List.mem_iff_getElem?.mp hawait
    have hil := (List.getElem?_eq_some_iff.mp hi).1
    have hw : (front ++ ⟨1, none, .store tail 0⟩ :: (middle ++ [⟨0, none, .store .final 0⟩] :
        List (Entry ℕ (Option Slot) BatchSignal ℕ)))[front.length + (i + 1)]? =
          some ⟨0, none, .await tail 0⟩ := by
      rw [List.getElem?_append_right (by omega)]
      simp [List.getElem?_append_left hil, hi]
    have hwi := hs.issued_upto hzi hz (by omega) hw rfl
    obtain ⟨j, d, hd, hdw, hset⟩ := hs.await_passed (by decide) hwi hw rfl
    obtain rfl := hone.sole hd hx hdw rfl
    exact hs.settled_issued hset
  have hkl := (List.getElem?_eq_some_iff.mp hk).1
  simp only [List.length_append, List.length_cons, List.length_nil] at hkl
  rcases Nat.lt_trichotomy k front.length with hlt | rfl | hgt
  · have hmem : e.queue ∈ [0, 1] := by
      rw [List.getElem?_append_left hlt] at hk
      exact hfront e (List.mem_of_getElem? hk)
    rcases List.mem_cons.mp hmem with hq | hq
    · exact hs.issued_upto hzi hz (by omega) hk hq
    · exact hs.issued_upto hxi hx (by omega) hk (List.mem_singleton.mp hq)
  · exact hxi
  · have hmem : e ∈ middle ++ [⟨0, none, .store .final 0⟩] := by
      rw [List.getElem?_append_right (by omega)] at hk
      obtain ⟨m, hm⟩ : ∃ m, k - front.length = m + 1 := ⟨k - front.length - 1, by omega⟩
      rw [hm, List.getElem?_cons_succ] at hk
      exact List.mem_of_getElem? hk
    refine hs.issued_upto hzi hz (by omega) hk ?_
    rcases List.mem_append.mp hmem with he | he
    · exact hmiddle e he
    · rw [List.mem_singleton.mp he]

/-- The final signal fires after everything else has taken effect. -/
theorem batch_final (hb : policies.consolidation.barrier = true)
    (hshape : Shaped phases policies) (hne : phases ≠ []) (ht : tokenCount ≠ 0)
    {s : State BatchSignal ℕ}
    (hs : Reachable (stageLog (batchStages phases policies tokenCount)) (fun _ => 1) s)
    (hf : s.mem .final = 0) {k : ℕ} {e : Entry ℕ (Option Slot) BatchSignal ℕ}
    (hk : (stageLog (batchStages phases policies tokenCount))[k]? = some e) :
    settled s k e.cmd = true := by
  by_cases ha : e.cmd.isAsync = true
  · obtain ⟨done, hc⟩ : ∃ done, e.cmd = .launch done := by
      have he := List.mem_of_getElem? hk
      rw [stageLog_batchStages, List.mem_append] at he
      rcases he with he | he
      · obtain ⟨key, -, he⟩ := List.mem_flatMap.mp he
        exact launch_of_isAsync he ha
      · exact launch_of_isAsync he ha
    exact final_guards hb hshape hne ht (List.mem_of_getElem? hk) hc s hs hf k e hk rfl
  · rw [settled, if_neg ha]
    exact final_issued hb hshape hne ht hs hf hk

/-- A stuck batch has fired its final signal. -/
theorem batch_stuck (hb : policies.consolidation.barrier = true)
    (hshape : Shaped phases policies) (hne : phases ≠ []) (ht : tokenCount ≠ 0)
    {s : State BatchSignal ℕ}
    (hs : Reachable (stageLog (batchStages phases policies tokenCount)) (fun _ => 1) s)
    (hstuck : Stuck (stageLog (batchStages phases policies tokenCount)) s) : s.mem .final = 0 := by
  have hj : Justified [] (stageLog (batchStages phases policies tokenCount)) :=
    (batchStages_chained hb hshape hne ht).justified (by simp)
  have hmem : (⟨0, none, .store .final 0⟩ : Entry ℕ (Option Slot) BatchSignal ℕ) ∈
      stageLog (batchStages phases policies tokenCount) := by
    rw [stageLog_batchStages, finalStage_log]
    simp
  obtain ⟨k, hk⟩ := List.mem_iff_getElem?.mp hmem
  exact hs.mem_of_settled hk rfl (fun j d w hd hw => batch_oneShot.sole hd hk hw rfl)
    (hstuck.all_settled hs hj batch_oneShot hk)

end Order

end Hipscope.Redline.Aql
