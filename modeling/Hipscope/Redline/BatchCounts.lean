import Hipscope.Redline.BatchExecution

/-! The packet and signal budget of a batch, computed before any packet is
built, is met exactly. -/
namespace Hipscope.Redline.Aql
open Queue

private theorem checkedAdd_some {a b c : ℕ} (h : checkedAdd a b = some c) : c = a + b := by
  unfold checkedAdd at h
  split_ifs at h
  exact (Option.some.inj h).symm

private theorem checkedMul_some {a b c : ℕ} (h : checkedMul a b = some c) : c = a * b := by
  unfold checkedMul at h
  split_ifs at h
  exact (Option.some.inj h).symm

private theorem checkedSum_some {l : List (TwoLanes ℕ)} {lane start total : ℕ}
    (h : l.foldlM (fun sum phase => checkedAdd sum (phase.get lane)) start = some total) :
    total = start + (l.map fun phase => phase.get lane).sum := by
  induction l generalizing start with
  | nil =>
    cases h
    simp
  | cons phase l ih =>
    rw [List.foldlM_cons, Option.bind_eq_bind, Option.bind_eq_some_iff] at h
    obtain ⟨next, hnext, h⟩ := h
    rw [ih h, checkedAdd_some hnext, List.map_cons, List.sum_cons]
    omega

/-- What the sizing functions compute when nothing overflows. -/
theorem serializedLaneCount_some {phases : List (TwoLanes ℕ)} {tokenCount lane count : ℕ}
    (h : serializedLaneCount phases tokenCount lane = some count) :
    count = (phases.map fun phase => phase.get lane).sum * tokenCount +
      (phases.length - 1) * tokenCount + (tokenCount - 1) + if lane = 0 then 1 else 0 := by
  simp only [serializedLaneCount, Option.bind_eq_bind, Option.bind_eq_some_iff] at h
  obtain ⟨barriers, hb, dispatches, hd, c1, h1, c2, h2, c3, h3, h4⟩ := h
  rw [checkedAdd_some h4, checkedAdd_some h3, checkedAdd_some h2, checkedMul_some h1,
    checkedMul_some hb, checkedSum_some hd, Nat.zero_add]

private theorem derivedPacketCounts_ok {phases : List TwoQueuePhase} {tokenCount : ℕ}
    {counts : TwoLanes ℕ} (h : derivedPacketCounts phases tokenCount = .ok counts) {lane : ℕ}
    (hl : lane < 2) : counts.get lane = (phases.map fun phase => (phase.get lane).length).sum *
      tokenCount + (phases.length - 1) * tokenCount + (tokenCount - 1) + (if lane = 0 then 1 else 0) +
        phases.length * tokenCount := by
  obtain ⟨base, hbase, h⟩ := bind_ok h
  unfold requiredPacketCounts twoQueueSerializedBatchCounts at hbase
  split_ifs at hbase
  split at hbase
  · rename_i laneZero laneOne hz ho
    cases hbase
    split at h
    · rename_i counts' hc
      cases h
      simp only [Option.bind_eq_bind, Option.bind_eq_some_iff] at hc
      obtain ⟨extra, he, z, hzc, o, hoc, hc⟩ := hc
      cases hc
      obtain rfl | rfl : lane = 0 ∨ lane = 1 := by omega
      · rw [TwoLanes.get, checkedAdd_some hzc, checkedMul_some he, serializedLaneCount_some hz,
          List.map_map, List.length_map]
        rfl
      · rw [TwoLanes.get, checkedAdd_some hoc, checkedMul_some he, serializedLaneCount_some ho,
          List.map_map, List.length_map]
        · rfl
        · simp
    · cases h
  · cases hbase

theorem signalCount_ok {phaseCount tokenCount count : ℕ}
    (h : twoQueueSerializedSignalCount phaseCount tokenCount = .ok count) :
    count = phaseCount * tokenCount * 2 + 1 := by
  unfold twoQueueSerializedSignalCount at h
  split_ifs at h
  split at h
  · rename_i n hn
    cases h
    simp only [Option.bind_eq_bind, Option.bind_eq_some_iff] at hn
    obtain ⟨a, ha, b, hb, hc⟩ := hn
    rw [checkedAdd_some hc, checkedMul_some hb, checkedMul_some ha]
  · cases h

section Emitted
variable {phases : List TwoQueuePhase} {policies : TwoQueueDerivedPolicies} {tokenCount : ℕ}

private theorem queueBatch_append (P R : BatchPackets) (lane : ℕ) :
    (queueBatch (P ++ R) lane).length = (queueBatch P lane).length + (queueBatch R lane).length := by
  simp [queueBatch]

private theorem queueBatch_flatMap {α : Type} (l : List α) (f : α → BatchPackets) (lane : ℕ) :
    (queueBatch (l.flatMap f) lane).length = (l.map fun a => (queueBatch (f a) lane).length).sum := by
  induction l with
  | nil => rfl
  | cons a l ih => rw [List.flatMap_cons, queueBatch_append, ih, List.map_cons, List.sum_cons]

private theorem queueBatch_laneBatch {token phase q lane : ℕ} {dispatches : List RecordedDispatch}
    {headers : List HeaderPolicy} (hlen : headers.length = dispatches.length) :
    (queueBatch (laneBatch phases policies tokenCount token phase q dispatches headers) lane).length =
      if q = lane then dispatches.length + 1 else 0 := by
  by_cases hq : q = lane
  · simp [queueBatch, laneBatch, kernelPackets, List.filter_map, Function.comp_def, hq, hlen]
  · simp [queueBatch, laneBatch, kernelPackets, List.filter_map, Function.comp_def, hq]

private theorem queueBatch_joinPackets {token phase lane : ℕ} (hl : lane < 2) :
    (queueBatch (joinPackets policies token phase) lane).length = 1 := by
  obtain rfl | rfl : lane = 0 ∨ lane = 1 := by omega
  · rfl
  · rfl

private theorem queueBatch_stageBatch {token phase lane : ℕ} (hl : lane < 2)
    {x : TwoQueuePhase × TwoLanes (List HeaderPolicy)} (hz : x.2.zero.length = x.1.zero.length)
    (ho : x.2.one.length = x.1.one.length) :
    (queueBatch (stageBatch phases policies tokenCount token phase x) lane).length =
      (if phase ≠ 0 ∨ token ≠ 0 then 1 else 0) + ((x.1.get lane).length + 1) := by
  have hprior : (queueBatch (priorPackets phases policies token phase) lane).length =
      if phase ≠ 0 ∨ token ≠ 0 then 1 else 0 := by
    unfold priorPackets
    by_cases hp : phase = 0 <;> by_cases ht : token = 0 <;>
      simp [hp, ht, queueBatch_joinPackets hl]
    rfl
  rw [stageBatch, queueBatch_append, queueBatch_append, hprior, queueBatch_laneBatch hz,
    queueBatch_laneBatch ho]
  obtain rfl | rfl : lane = 0 ∨ lane = 1 := by omega
  · simp [TwoLanes.get]
  · simp [TwoLanes.get]

private theorem phase_sum {α : Type} {token k : ℕ} (h : k ≠ 0 ∨ token ≠ 0) (l : List α) (n : α → ℕ) :
    ((l.zipIdx k).map fun x => (if x.2 ≠ 0 ∨ token ≠ 0 then 1 else 0) + (n x.1 + 1)).sum =
      (l.map n).sum + 2 * l.length := by
  induction l generalizing k with
  | nil => rfl
  | cons x l ih =>
    rw [List.zipIdx_cons, List.map_cons, List.sum_cons, ih (by omega), if_pos h, List.map_cons,
      List.sum_cons, List.length_cons]
    dsimp only
    omega

/-- The first phase of the first token waits for nothing. -/
private theorem token_sum {α : Type} {token : ℕ} {l : List α} (hne : l ≠ []) (n : α → ℕ) :
    (l.zipIdx.map fun x => (if x.2 ≠ 0 ∨ token ≠ 0 then 1 else 0) + (n x.1 + 1)).sum +
      (if token = 0 then 1 else 0) = (l.map n).sum + 2 * l.length := by
  cases l with
  | nil => exact absurd rfl hne
  | cons x l =>
    rw [List.zipIdx_cons, List.map_cons, List.sum_cons, phase_sum (by omega), List.map_cons,
      List.sum_cons, List.length_cons]
    by_cases ht : token = 0
    · simp only [ht, ne_eq, not_true_eq_false, or_self, if_false, if_true]
      omega
    · simp only [ht, ne_eq, not_false_eq_true, or_true, if_false, if_true]
      omega

private theorem batch_sum {c : ℕ → ℕ} {total : ℕ}
    (h : ∀ token, c token + (if token = 0 then 1 else 0) = total) {n : ℕ} (hn : n ≠ 0) :
    ((List.range n).map c).sum + 1 = n * total := by
  induction n with
  | zero => exact absurd rfl hn
  | succ n ih =>
    rw [List.range_succ, List.map_append, List.sum_append, List.map_singleton, List.sum_singleton]
    have hc := h n
    by_cases h0 : n = 0
    · subst h0
      simpa using hc
    · rw [if_neg h0] at hc
      have := ih h0
      rw [Nat.succ_mul]
      omega

private theorem token_count (tokenCount : ℕ) (hshape : Shaped phases policies) (hne : phases ≠ []) {lane : ℕ}
    (hl : lane < 2) (token : ℕ) :
    (((phases.zip (headersFor policies token)).zipIdx.map fun x =>
      (queueBatch (stageBatch phases policies tokenCount token x.2 x.1) lane).length).sum) +
        (if token = 0 then 1 else 0) =
      (phases.map fun phase => (phase.get lane).length).sum + 2 * phases.length := by
  have hlen : (phases.zip (headersFor policies token)).length = phases.length := by
    rw [List.length_zip, hshape.length, Nat.min_self]
  have hzip : phases.zip (headersFor policies token) ≠ [] := by
    intro hnil
    rw [hnil] at hlen
    exact hne (List.eq_nil_of_length_eq_zero hlen.symm)
  have hfst : (phases.zip (headersFor policies token)).map Prod.fst = phases :=
    List.map_fst_zip (hshape.length token).ge
  have hstages : ((phases.zip (headersFor policies token)).zipIdx.map fun x =>
      (queueBatch (stageBatch phases policies tokenCount token x.2 x.1) lane).length) =
      (phases.zip (headersFor policies token)).zipIdx.map fun x =>
        (if x.2 ≠ 0 ∨ token ≠ 0 then 1 else 0) + ((x.1.1.get lane).length + 1) := by
    refine List.map_congr_left fun x hx => ?_
    obtain ⟨hz, ho⟩ := hshape.lanes token x.1 (List.mem_of_getElem?
      (List.mk_mem_zipIdx_iff_getElem?.mp hx))
    exact queueBatch_stageBatch hl hz ho
  rw [hstages, token_sum hzip fun x => (x.1.get lane).length, hlen]
  congr 2
  rw [← hfst, List.map_map, hfst]
  rfl

/-- Every queue receives the computed number of packets. -/
theorem batch_packetCounts (hshape : Shaped phases policies) (hne : phases ≠ [])
    (ht : tokenCount ≠ 0) {packets : BatchPackets}
    (h : batchPackets phases policies tokenCount = .ok packets) {counts : TwoLanes ℕ}
    (hc : derivedPacketCounts phases tokenCount = .ok counts) {lane : ℕ} (hl : lane < 2) :
    (queueBatch packets lane).length = counts.get lane := by
  have hfinal : (queueBatch [(0, Packet.barrierAnd policies.terminal
      [BatchSignal.tail (tokenCount - 1) (phases.length - 1) 0,
        .tail (tokenCount - 1) (phases.length - 1) 1] (some .final))] lane).length =
      if lane = 0 then 1 else 0 := by
    obtain rfl | rfl : lane = 0 ∨ lane = 1 := by omega
    · rfl
    · rfl
  have hsum := batch_sum (token_count tokenCount hshape hne hl) ht
  rw [batchPackets_ok hshape hne h, queueBatch_append, hfinal, queueBatch_flatMap,
    derivedPacketCounts_ok hc hl]
  simp only [queueBatch_flatMap]
  obtain ⟨p, hp⟩ : ∃ p, phases.length = p + 1 :=
    ⟨phases.length - 1, by have := List.length_pos_of_ne_nil hne; omega⟩
  obtain ⟨t, rfl⟩ : ∃ t, tokenCount = t + 1 := ⟨tokenCount - 1, by omega⟩
  rw [hp] at hsum ⊢
  generalize (phases.map fun phase => (phase.get lane).length).sum = d at hsum ⊢
  rw [Nat.add_sub_cancel, Nat.add_sub_cancel]
  have hring : (t + 1) * (d + 2 * (p + 1)) = d * (t + 1) + p * (t + 1) + t + (p + 1) * (t + 1) + 1 := by
    ring
  rw [hring] at hsum
  omega

end Emitted

/-- What creation checked and built. -/
theorem createDerived_ok {device : GpuDevice} {capacity : ℕ → ℕ} {tokenCount : ℕ}
    {phases : List TwoQueuePhase} {policies : TwoQueueDerivedPolicies}
    {graph : TwoQueueSerializedBatchGraph}
    (h : createDerived device capacity tokenCount phases policies = .ok graph) :
    phases ≠ [] ∧ tokenCount ≠ 0 ∧ Shaped phases policies ∧
      batchPackets phases policies tokenCount = .ok graph.packets ∧
      derivedPacketCounts phases tokenCount = .ok graph.packetCounts ∧
      twoQueueSerializedSignalCount phases.length tokenCount = .ok graph.signalCount ∧
      graph.phases = phases ∧ graph.tokenCount = tokenCount := by
  unfold createDerived at h
  split at h
  · cases h
  rename_i hne
  split at h
  · cases h
  rename_i ht
  obtain ⟨_, -, h⟩ := bind_ok h
  obtain ⟨_, hshape, h⟩ := bind_ok h
  obtain ⟨counts, hcounts, h⟩ := bind_ok h
  obtain ⟨signals, hsignals, h⟩ := bind_ok h
  split at h
  · cases h
  obtain ⟨packets, hpackets, h⟩ := bind_ok h
  split at h
  · cases h
  · cases h
    exact ⟨hne, ht, validateDerivedPolicyShape_ok hshape, hpackets, hcounts, hsignals, rfl, rfl⟩

end Hipscope.Redline.Aql
