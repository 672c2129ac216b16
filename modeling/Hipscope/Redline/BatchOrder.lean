import Hipscope.Redline.Batch

/-! Executions of a serialized two-queue batch: phases and tokens run one after
the other, and the packet budget is met exactly. -/
namespace Hipscope.Redline.Aql
open Queue Hipscope.Lists

section Stages
variable (phases : List TwoQueuePhase) (policies : TwoQueueDerivedPolicies) (tokenCount : ℕ)

def headersFor (token : ℕ) : List (TwoLanes (List HeaderPolicy)) :=
  if token = 0 then policies.firstDispatches else policies.repeatedDispatches

def kernelPackets (token phase lane : ℕ) (dispatches : List RecordedDispatch)
    (headers : List HeaderPolicy) : BatchPackets :=
  (dispatches.zip headers).zipIdx.map fun x => (lane, .kernel ⟨token, phase, lane, x.2⟩ x.1.1.words x.1.2
    (profilingSignal phases policies tokenCount dispatches.length ⟨token, phase, lane, x.2⟩))

def laneBatch (token phase lane : ℕ) (dispatches : List RecordedDispatch)
    (headers : List HeaderPolicy) : BatchPackets :=
  kernelPackets phases policies tokenCount token phase lane dispatches headers ++
    [(lane, .barrierAnd policies.consolidation [] (some (.tail token phase lane)))]

/-- The cells a phase writes at its end. -/
def joinCells (token phase : ℕ) : List (BatchSignal × ℕ) :=
  [(.tail token phase 0, 0), (.tail token phase 1, 0)]

/-- The cells a phase waits for: the phase before, or the last one of the
token before. -/
def priorCells (token phase : ℕ) : List (BatchSignal × ℕ) :=
  if phase ≠ 0 then joinCells token (phase - 1)
  else if token ≠ 0 then joinCells (token - 1) (phases.length - 1) else []

def priorPackets (token phase : ℕ) : BatchPackets :=
  if phase ≠ 0 then joinPackets policies token (phase - 1)
  else if token ≠ 0 then joinPackets policies (token - 1) (phases.length - 1) else []

def stageBatch (token phase : ℕ) (x : TwoQueuePhase × TwoLanes (List HeaderPolicy)) : BatchPackets :=
  priorPackets phases policies token phase ++
    laneBatch phases policies tokenCount token phase 0 x.1.zero x.2.zero ++
    laneBatch phases policies tokenCount token phase 1 x.1.one x.2.one

def batchStage (token phase : ℕ) (x : TwoQueuePhase × TwoLanes (List HeaderPolicy)) :
    Stage ℕ (Option Slot) BatchSignal ℕ :=
  ⟨publish (stageBatch phases policies tokenCount token phase x), joinCells token phase⟩

def tokenStages (token : ℕ) : List (Stage ℕ (Option Slot) BatchSignal ℕ) :=
  (phases.zip (headersFor policies token)).zipIdx.map fun x =>
    batchStage phases policies tokenCount token x.2 x.1

/-- The final fan-in as a stage of its own. -/
def finalStage : Stage ℕ (Option Slot) BatchSignal ℕ :=
  ⟨publish [(0, .barrierAnd policies.terminal
    [.tail (tokenCount - 1) (phases.length - 1) 0, .tail (tokenCount - 1) (phases.length - 1) 1]
    (some .final))], [(.final, 0)]⟩

def batchStages : List (Stage ℕ (Option Slot) BatchSignal ℕ) :=
  (List.range tokenCount).flatMap (tokenStages phases policies tokenCount) ++
    [finalStage phases policies tokenCount]

end Stages

section Emitted
variable {phases : List TwoQueuePhase} {policies : TwoQueueDerivedPolicies} {tokenCount : ℕ}

private theorem lanePackets_ok {token phase lane : ℕ} {dispatches : List RecordedDispatch}
    {headers : List HeaderPolicy} {packets : BatchPackets}
    (h : lanePackets phases policies tokenCount token phase lane dispatches headers = .ok packets) :
    packets = laneBatch phases policies tokenCount token phase lane dispatches headers := by
  simp only [lanePackets, bind, Except.bind] at h
  split at h
  · cases h
  · rename_i kernels hk
    cases h
    rw [laneBatch, kernelPackets, mapM_ok (fun x p hx => ?_) hk]
    simp only [dispatchPacket] at hx
    split at hx
    · cases hx
    · split at hx
      · cases hx
      · rename_i packet hp
        cases hx
        rw [Packet.newKernel_ok hp, RecordedDispatch.words]

private theorem phasePackets_ok {token phaseIndex : ℕ} {phase : TwoQueuePhase}
    {headers : TwoLanes (List HeaderPolicy)} {packets : BatchPackets}
    (h : phasePackets phases policies tokenCount token phaseIndex phase headers = .ok packets) :
    packets = (if phaseIndex ≠ 0 then joinPackets policies token (phaseIndex - 1) else []) ++
      laneBatch phases policies tokenCount token phaseIndex 0 phase.zero headers.zero ++
      laneBatch phases policies tokenCount token phaseIndex 1 phase.one headers.one := by
  simp only [phasePackets, bind, Except.bind] at h
  split at h
  · cases h
  rename_i zero hz
  split at h
  · cases h
  rename_i one ho
  cases h
  rw [lanePackets_ok hz, lanePackets_ok ho]

/-- A token's barrier belongs to its first phase. -/
private theorem flatten_stage {token : ℕ} {l : List (TwoQueuePhase × TwoLanes (List HeaderPolicy))}
    (hl : l ≠ []) :
    (if token ≠ 0 then joinPackets policies (token - 1) (phases.length - 1) else []) ++
      (l.zipIdx.map fun x =>
        (if x.2 ≠ 0 then joinPackets policies token (x.2 - 1) else []) ++
          laneBatch phases policies tokenCount token x.2 0 x.1.1.zero x.1.2.zero ++
          laneBatch phases policies tokenCount token x.2 1 x.1.1.one x.1.2.one).flatten =
      l.zipIdx.flatMap fun x => stageBatch phases policies tokenCount token x.2 x.1 := by
  cases l with
  | nil => exact absurd rfl hl
  | cons x l =>
    rw [List.zipIdx_cons, List.map_cons, List.flatten_cons, List.flatMap_cons, List.flatMap_def,
      ← List.append_assoc]
    congr 1
    · simp [stageBatch, priorPackets, List.append_assoc]
    · congr 1
      refine List.map_congr_left fun y hy => ?_
      have hpos : y.2 ≠ 0 := by
        obtain ⟨z, k⟩ := y
        have := List.le_snd_of_mem_zipIdx hy
        simp only at this ⊢
        omega
      simp [stageBatch, priorPackets, hpos]

/-- Policy tables as long as the phase list, with a header for every dispatch. -/
structure Shaped (phases : List TwoQueuePhase) (policies : TwoQueueDerivedPolicies) : Prop where
  length : ∀ token, (headersFor policies token).length = phases.length
  lanes : ∀ token, ∀ x ∈ phases.zip (headersFor policies token),
    x.2.zero.length = x.1.zero.length ∧ x.2.one.length = x.1.one.length

private theorem policyShapeError_none {label : String}
    {dispatches : List (TwoLanes (List HeaderPolicy))}
    (h : policyShapeError label phases dispatches = none) : dispatches.length = phases.length ∧
      ∀ x ∈ phases.zip dispatches, x.2.zero.length = x.1.zero.length ∧
        x.2.one.length = x.1.one.length := by
  unfold policyShapeError at h
  split_ifs at h with hlen
  refine ⟨not_not.mp hlen, fun x hx => ?_⟩
  obtain ⟨i, hi⟩ := List.mem_iff_getElem?.mp hx
  have hrow := List.findSome?_eq_none_iff.mp h (x, i) (List.mk_mem_zipIdx_iff_getElem?.mpr hi)
  have hlane (lane : ℕ) (hl : lane ∈ [0, 1]) := List.findSome?_eq_none_iff.mp hrow lane hl
  have h0 := hlane 0 (by simp)
  have h1 := hlane 1 (by simp)
  simp only [TwoLanes.get] at h0 h1
  split_ifs at h0 with e0
  split_ifs at h1 with e1
  exact ⟨not_not.mp e0, not_not.mp e1⟩

theorem validateDerivedPolicyShape_ok (h : validateDerivedPolicyShape phases policies = .ok ()) :
    Shaped phases policies := by
  unfold validateDerivedPolicyShape at h
  split at h
  · cases h
  · rename_i hnone
    obtain ⟨hfirst, hrepeated⟩ := Option.or_eq_none_iff.mp hnone
    have hf := policyShapeError_none hfirst
    have hr := policyShapeError_none hrepeated
    constructor
    · intro token
      unfold headersFor
      split
      · exact hf.1
      · exact hr.1
    · intro token
      unfold headersFor
      split
      · exact hf.2
      · exact hr.2

private theorem tokenPackets_ok (hshape : Shaped phases policies) (hne : phases ≠ []) {token : ℕ}
    {packets : BatchPackets} (h : tokenPackets phases policies tokenCount token = .ok packets) :
    packets = (phases.zip (headersFor policies token)).zipIdx.flatMap fun x =>
      stageBatch phases policies tokenCount token x.2 x.1 := by
  simp only [tokenPackets, bind, Except.bind] at h
  split at h
  · cases h
  · rename_i ps hps
    cases h
    have hzip : phases.zip (headersFor policies token) ≠ [] := by
      intro hnil
      have hlen := congrArg List.length hnil
      rw [List.length_zip, hshape.length, Nat.min_self] at hlen
      exact hne (List.eq_nil_of_length_eq_zero hlen)
    rw [← flatten_stage hzip, mapM_ok (fun x p hx => phasePackets_ok hx) hps]
    rfl

/-- The published packets are the stages, one after the other. -/
theorem batchPackets_ok (hshape : Shaped phases policies) (hne : phases ≠ [])
    {packets : BatchPackets} (h : batchPackets phases policies tokenCount = .ok packets) :
    packets = ((List.range tokenCount).flatMap fun token =>
      (phases.zip (headersFor policies token)).zipIdx.flatMap fun x =>
        stageBatch phases policies tokenCount token x.2 x.1) ++
      [(0, .barrierAnd policies.terminal
        [.tail (tokenCount - 1) (phases.length - 1) 0, .tail (tokenCount - 1) (phases.length - 1) 1]
        (some .final))] := by
  simp only [batchPackets, bind, Except.bind] at h
  split at h
  · cases h
  · rename_i ps hps
    cases h
    rw [mapM_ok (fun token p hp => tokenPackets_ok hshape hne hp) hps, List.flatMap_def]

private theorem kernel_mem_laneBatch {token phase lane queue : ℕ} {dispatches : List RecordedDispatch}
    {headers : List HeaderPolicy} {slot : Slot} {words : KernelWords} {header : HeaderPolicy}
    {completion : Option BatchSignal}
    (h : (queue, Packet.kernel slot words header completion) ∈
      laneBatch phases policies tokenCount token phase lane dispatches headers) :
    slot.token = token ∧ slot.phase = phase ∧ slot.lane = lane ∧ queue = lane ∧
      ∃ dispatch, dispatches[slot.index]? = some dispatch ∧ dispatch.words = words := by
  rcases List.mem_append.mp h with h | h
  · obtain ⟨⟨⟨dispatch, own⟩, i⟩, hrow, heq⟩ := List.mem_map.mp h
    cases heq
    have hzip := List.mk_mem_zipIdx_iff_getElem?.mp hrow
    exact ⟨rfl, rfl, rfl, rfl, dispatch, (List.getElem?_zip_eq_some.mp hzip).1, rfl⟩
  · cases List.mem_singleton.mp h

private theorem kernel_notMem_priorPackets {token phase queue : ℕ} {slot : Slot} {words : KernelWords}
    {header : HeaderPolicy} {completion : Option BatchSignal} :
    (queue, Packet.kernel slot words header completion) ∉ priorPackets phases policies token phase := by
  unfold priorPackets
  split_ifs <;> simp [joinPackets]

/-- A kernel packet runs the code and the kernarg segment of the dispatch whose
place in the phases it names. -/
theorem kernel_mem_batchPackets (hshape : Shaped phases policies) (hne : phases ≠ [])
    {packets : BatchPackets} (h : batchPackets phases policies tokenCount = .ok packets) {queue : ℕ}
    {slot : Slot} {words : KernelWords} {header : HeaderPolicy} {completion : Option BatchSignal}
    (hp : (queue, .kernel slot words header completion) ∈ packets) :
    slot.token < tokenCount ∧ slot.lane < 2 ∧ queue = slot.lane ∧
      ∃ phase, phases[slot.phase]? = some phase ∧
        ∃ dispatch, (phase.get slot.lane)[slot.index]? = some dispatch ∧ dispatch.words = words := by
  rw [batchPackets_ok hshape hne h, List.mem_append] at hp
  rcases hp with hp | hp
  · obtain ⟨token, htoken, hp⟩ := List.mem_flatMap.mp hp
    obtain ⟨⟨⟨phase, headers⟩, k⟩, hrow, hp⟩ := List.mem_flatMap.mp hp
    have hphase := (List.getElem?_zip_eq_some.mp (List.mk_mem_zipIdx_iff_getElem?.mp hrow)).1
    obtain ⟨lane, hl, hk⟩ : ∃ lane < 2, (queue, Packet.kernel slot words header completion) ∈
        laneBatch phases policies tokenCount token k lane (phase.get lane) (headers.get lane) := by
      rcases List.mem_append.mp hp with hp | hp
      · rcases List.mem_append.mp hp with hp | hp
        · exact absurd hp kernel_notMem_priorPackets
        · exact ⟨0, by decide, hp⟩
      · exact ⟨1, by decide, hp⟩
    obtain ⟨rfl, rfl, rfl, rfl, hrun⟩ := kernel_mem_laneBatch hk
    exact ⟨List.mem_range.mp htoken, hl, rfl, phase, hphase, hrun⟩
  · cases List.mem_singleton.mp hp

private theorem publish_flatMap {α K S : Type} (l : List α) (f : α → List (ℕ × Packet K S)) :
    publish (l.flatMap f) = l.flatMap fun a => publish (f a) :=
  List.flatMap_assoc

theorem publish_batchPackets (hshape : Shaped phases policies) (hne : phases ≠ [])
    {packets : BatchPackets} (h : batchPackets phases policies tokenCount = .ok packets) :
    publish packets = stageLog (batchStages phases policies tokenCount) := by
  rw [batchPackets_ok hshape hne h, publish_append, publish_flatMap, batchStages, stageLog,
    List.flatMap_append, List.flatMap_assoc]
  congr 1
  · refine List.flatMap_congr fun token _ => ?_
    rw [publish_flatMap, tokenStages, List.flatMap_map]
    rfl
  · simp [finalStage]

end Emitted

section Links
variable {phases : List TwoQueuePhase} {policies : TwoQueueDerivedPolicies} {tokenCount : ℕ}

/-- Entries of a kernel packet sequence: barrier bits and launches of one lane. -/
private theorem mem_kernelPackets {token phase lane : ℕ} {dispatches : List RecordedDispatch}
    {headers : List HeaderPolicy} {e : Entry ℕ (Option Slot) BatchSignal ℕ}
    (he : e ∈ publish (kernelPackets phases policies tokenCount token phase lane dispatches headers)) :
    e.queue = lane ∧ (e.cmd = .drain ∨ ∃ i < (dispatches.zip headers).length,
      e = ⟨lane, some ⟨token, phase, lane, i⟩, .launch ((profilingSignal phases policies tokenCount
        dispatches.length ⟨token, phase, lane, i⟩).map fun s => (s, 0))⟩) := by
  simp only [publish, kernelPackets, List.mem_flatMap, List.mem_map] at he
  obtain ⟨_, ⟨x, hx, rfl⟩, he⟩ := he
  simp only [Packet.entries, List.mem_append, List.mem_singleton] at he
  rcases he with he | rfl
  · rw [Packet.mem_barrierEntries he]
    exact ⟨rfl, .inl rfl⟩
  · refine ⟨rfl, .inr ⟨x.2, ?_, rfl⟩⟩
    exact (List.getElem?_eq_some_iff.mp (List.mk_mem_zipIdx_iff_getElem?.mp hx)).1

private theorem publish_laneBatch {token phase lane : ℕ} {dispatches : List RecordedDispatch}
    {headers : List HeaderPolicy} (hb : policies.consolidation.barrier = true) :
    publish (laneBatch phases policies tokenCount token phase lane dispatches headers) =
      publish (kernelPackets phases policies tokenCount token phase lane dispatches headers) ++
        [⟨lane, none, .drain⟩, ⟨lane, none, .store (.tail token phase lane) 0⟩] := by
  rw [laneBatch, publish_append]
  simp [publish, Packet.entries, Packet.barrierEntries, hb]

private theorem mem_joinPackets {token phase : ℕ} {e : Entry ℕ (Option Slot) BatchSignal ℕ}
    (he : e ∈ publish (joinPackets policies token phase)) :
    e.cmd = .drain ∨ ∃ c ∈ joinCells token phase, e.cmd = .await c.1 c.2 := by
  simp only [publish, joinPackets, List.mem_flatMap, List.mem_map] at he
  obtain ⟨_, ⟨lane, -, rfl⟩, he⟩ := he
  rcases Packet.mem_barrierAnd he with rfl | ⟨s, hs, rfl⟩ | ⟨s, hs, -⟩
  · exact .inl rfl
  · refine .inr ⟨(s, 0), ?_, rfl⟩
    simpa [joinCells] using hs
  · cases hs

private theorem await_mem_joinPackets {token phase lane : ℕ} (hl : lane ∈ [0, 1])
    {c : BatchSignal × ℕ} (hc : c ∈ joinCells token phase) :
    (⟨lane, none, .await c.1 c.2⟩ : Entry ℕ (Option Slot) BatchSignal ℕ) ∈
      publish (joinPackets policies token phase) := by
  refine List.mem_flatMap.mpr ⟨_, List.mem_map_of_mem hl, ?_⟩
  simp only [joinCells, List.mem_cons, List.not_mem_nil, or_false] at hc
  rcases hc with rfl | rfl <;> simp [Packet.entries]

/-- The two lanes' own commands of a stage. -/
private def laneLog (phases : List TwoQueuePhase) (policies : TwoQueueDerivedPolicies)
    (tokenCount token phase : ℕ) (x : TwoQueuePhase × TwoLanes (List HeaderPolicy)) :
    List (Entry ℕ (Option Slot) BatchSignal ℕ) :=
  publish (laneBatch phases policies tokenCount token phase 0 x.1.zero x.2.zero) ++
    publish (laneBatch phases policies tokenCount token phase 1 x.1.one x.2.one)

private theorem batchStage_log {token phase : ℕ} {x : TwoQueuePhase × TwoLanes (List HeaderPolicy)} :
    (batchStage phases policies tokenCount token phase x).log =
      publish (priorPackets phases policies token phase) ++
        laneLog phases policies tokenCount token phase x := by
  simp [batchStage, stageBatch, laneLog]

private theorem mem_priorPackets {token phase : ℕ} {e : Entry ℕ (Option Slot) BatchSignal ℕ}
    (he : e ∈ publish (priorPackets phases policies token phase)) :
    e.cmd = .drain ∨ ∃ c ∈ priorCells phases token phase, e.cmd = .await c.1 c.2 := by
  unfold priorPackets at he
  unfold priorCells
  split_ifs at he ⊢
  · exact mem_joinPackets he
  · exact mem_joinPackets he
  · simp [publish] at he

private theorem await_mem_priorPackets {token phase lane : ℕ} (hl : lane ∈ [0, 1])
    {c : BatchSignal × ℕ} (hc : c ∈ priorCells phases token phase) :
    (⟨lane, none, .await c.1 c.2⟩ : Entry ℕ (Option Slot) BatchSignal ℕ) ∈
      publish (priorPackets phases policies token phase) := by
  unfold priorCells at hc
  unfold priorPackets
  split_ifs at hc ⊢
  · exact await_mem_joinPackets hl hc
  · exact await_mem_joinPackets hl hc
  · simp at hc

private theorem mem_laneBatch (hb : policies.consolidation.barrier = true)
    {token phase lane : ℕ} {dispatches : List RecordedDispatch} {headers : List HeaderPolicy}
    {e : Entry ℕ (Option Slot) BatchSignal ℕ}
    (he : e ∈ publish (laneBatch phases policies tokenCount token phase lane dispatches headers)) :
    e.queue = lane ∧ (∀ c v, e.cmd ≠ .await c v) ∧ (∀ done, e.cmd = .launch done →
      e ∈ publish (kernelPackets phases policies tokenCount token phase lane dispatches headers)) := by
  rw [publish_laneBatch hb, List.mem_append] at he
  rcases he with he | he
  · obtain ⟨hq, hc⟩ := mem_kernelPackets he
    refine ⟨hq, ?_, fun _ _ => he⟩
    rcases hc with hc | ⟨i, -, rfl⟩ <;> simp [*]
  · simp only [List.mem_cons, List.not_mem_nil, or_false] at he
    rcases he with rfl | rfl <;> exact ⟨rfl, by simp, by simp⟩

private theorem mem_laneLog (hb : policies.consolidation.barrier = true) {token phase : ℕ}
    {x : TwoQueuePhase × TwoLanes (List HeaderPolicy)} {e : Entry ℕ (Option Slot) BatchSignal ℕ}
    (he : e ∈ laneLog phases policies tokenCount token phase x) :
    e.queue ∈ [0, 1] ∧ ∀ c v, e.cmd ≠ .await c v := by
  rcases List.mem_append.mp he with he | he
  · obtain ⟨hq, hc, -⟩ := mem_laneBatch hb he
    exact ⟨by simp [hq], hc⟩
  · obtain ⟨hq, hc, -⟩ := mem_laneBatch hb he
    exact ⟨by simp [hq], hc⟩

private theorem laneBatch_joined (hb : policies.consolidation.barrier = true) {token phase lane : ℕ}
    {dispatches : List RecordedDispatch} {headers : List HeaderPolicy}
    {a : Entry ℕ (Option Slot) BatchSignal ℕ} {done : Option (BatchSignal × ℕ)}
    (ha : a ∈ publish (laneBatch phases policies tokenCount token phase lane dispatches headers))
    (hac : a.cmd = .launch done) : a.queue = lane ∧
      [a, ⟨lane, none, .drain⟩, ⟨lane, none, .store (.tail token phase lane) 0⟩].Sublist
        (publish (laneBatch phases policies tokenCount token phase lane dispatches headers)) := by
  obtain ⟨hq, -, hk⟩ := mem_laneBatch hb ha
  refine ⟨hq, ?_⟩
  rw [publish_laneBatch hb]
  exact (List.singleton_sublist.mpr (hk done hac)).append (List.Sublist.refl _)

theorem batchStage_links (hb : policies.consolidation.barrier = true) {token phase : ℕ}
    {x : TwoQueuePhase × TwoLanes (List HeaderPolicy)} :
    (batchStage phases policies tokenCount token phase x).Links (priorCells phases token phase) where
  follows y hy hgov c v hc := by
    rw [batchStage_log] at hy ⊢
    rcases List.mem_append.mp hy with hy | hy
    · have hcmd := mem_priorPackets hy
      rcases hgov with ⟨done, hd⟩ | ⟨j, -, hw⟩
      · rcases hcmd with h | ⟨_, -, h⟩ <;> rw [hd] at h <;> cases h
      · rcases hcmd with h | ⟨_, -, h⟩ <;> rw [h] at hw <;> simp at hw
    · refine ⟨⟨y.queue, none, .await c v⟩, ?_, rfl, rfl⟩
      exact (List.singleton_sublist.mpr (await_mem_priorPackets (mem_laneLog hb hy).1 hc)).append
        (List.singleton_sublist.mpr hy)
  joined a ha done hac := by
    rw [batchStage_log] at ha ⊢
    rcases List.mem_append.mp ha with ha | ha
    · rcases mem_priorPackets ha with h | ⟨_, -, h⟩ <;> rw [hac] at h <;> cases h
    · rcases List.mem_append.mp ha with ha | ha
      · obtain ⟨hq, hsub⟩ := laneBatch_joined hb ha hac
        exact ⟨_, _, _, _, by simp [batchStage, joinCells], hsub.trans
          ((List.sublist_append_left _ _).trans (List.sublist_append_right _ _)), rfl, hq, rfl, rfl⟩
      · obtain ⟨hq, hsub⟩ := laneBatch_joined hb ha hac
        exact ⟨_, _, _, _, by simp [batchStage, joinCells], hsub.trans
          ((List.sublist_append_right _ _).trans (List.sublist_append_right _ _)), rfl, hq, rfl, rfl⟩
  joins_ne := by simp [batchStage, joinCells]
  joins_written j hj := by
    rw [batchStage_log, mem_writes]
    simp only [batchStage, joinCells, List.mem_cons, List.not_mem_nil, or_false] at hj
    rcases hj with rfl | rfl
    · exact ⟨⟨0, none, .store (.tail token phase 0) 0⟩, by simp [laneLog, publish_laneBatch hb], rfl⟩
    · exact ⟨⟨1, none, .store (.tail token phase 1) 0⟩, by simp [laneLog, publish_laneBatch hb], rfl⟩
  awaits_prior e he c v hc := by
    rw [batchStage_log] at he
    rcases List.mem_append.mp he with he | he
    · rcases mem_priorPackets he with h | ⟨w, hw, h⟩
      · rw [hc] at h
        cases h
      · rw [hc] at h
        cases h
        exact hw
    · exact absurd hc ((mem_laneLog hb he).2 c v)

/-- A stage uses the two queues and ends with the tail of queue one. -/
theorem batchStage_end (hb : policies.consolidation.barrier = true) {token phase : ℕ}
    {x : TwoQueuePhase × TwoLanes (List HeaderPolicy)} :
    (∀ e ∈ (batchStage phases policies tokenCount token phase x).log, e.queue ∈ [0, 1]) ∧
      [⟨1, none, .store (.tail token phase 1) 0⟩].IsSuffix
        (batchStage phases policies tokenCount token phase x).log := by
  have hjoin (t p : ℕ) (e : Entry ℕ (Option Slot) BatchSignal ℕ)
      (he : e ∈ publish (joinPackets policies t p)) : e.queue ∈ [0, 1] := by
    simp only [publish, joinPackets, List.mem_flatMap, List.mem_map] at he
    obtain ⟨_, ⟨lane, hl, rfl⟩, he⟩ := he
    rcases Packet.mem_barrierAnd he with rfl | ⟨s, -, rfl⟩ | ⟨s, -, rfl⟩ <;> exact hl
  constructor
  · intro e he
    rw [batchStage_log, List.mem_append] at he
    rcases he with he | he
    · unfold priorPackets at he
      split_ifs at he
      · exact hjoin _ _ e he
      · exact hjoin _ _ e he
      · simp [publish] at he
    · exact (mem_laneLog hb he).1
  · rw [batchStage_log, laneLog, publish_laneBatch hb, publish_laneBatch hb]
    exact (List.suffix_cons _ _).trans ((List.suffix_append _ _).trans
      ((List.suffix_append _ _).trans (List.suffix_append _ _)))

theorem finalStage_log : (finalStage phases policies tokenCount).log =
    Packet.barrierEntries 0 policies.terminal ++
      ((joinCells (tokenCount - 1) (phases.length - 1)).map fun c => ⟨0, none, .await c.1 c.2⟩) ++
      [⟨0, none, .store .final 0⟩] := by
  simp [finalStage, publish, Packet.entries, joinCells]

private theorem mem_finalStage {e : Entry ℕ (Option Slot) BatchSignal ℕ}
    (he : e ∈ (finalStage phases policies tokenCount).log) : e = ⟨0, none, .drain⟩ ∨
      (∃ c ∈ joinCells (tokenCount - 1) (phases.length - 1), e = ⟨0, none, .await c.1 c.2⟩) ∨
      e = ⟨0, none, .store .final 0⟩ := by
  rw [finalStage_log, List.mem_append, List.mem_append, List.mem_map, List.mem_singleton] at he
  rcases he with (he | ⟨c, hc, rfl⟩) | rfl
  · exact .inl (Packet.mem_barrierEntries he)
  · exact .inr (.inl ⟨c, hc, rfl⟩)
  · exact .inr (.inr rfl)

theorem finalStage_links : (finalStage phases policies tokenCount).Links
    (joinCells (tokenCount - 1) (phases.length - 1)) where
  follows y hy hgov c v hc := by
    have hstore : y = ⟨0, none, .store .final 0⟩ := by
      rcases mem_finalStage hy with rfl | ⟨w, -, rfl⟩ | rfl
      · rcases hgov with ⟨_, h⟩ | ⟨_, -, h⟩ <;> cases h
      · rcases hgov with ⟨_, h⟩ | ⟨_, -, h⟩ <;> cases h
      · rfl
    subst hstore
    refine ⟨⟨0, none, .await c v⟩, ?_, rfl, rfl⟩
    rw [finalStage_log]
    refine (List.singleton_sublist.mpr (List.mem_append_right _ ?_)).append (List.Sublist.refl _)
    exact List.mem_map.mpr ⟨(c, v), hc, rfl⟩
  joined a ha done hac := by
    rcases mem_finalStage ha with rfl | ⟨w, -, rfl⟩ | rfl <;> cases hac
  joins_ne := by simp [finalStage]
  joins_written j hj := by
    rw [mem_writes, finalStage_log]
    obtain rfl : j = (.final, 0) := by simpa [finalStage] using hj
    exact ⟨⟨0, none, .store .final 0⟩, by simp, rfl⟩
  awaits_prior e he c v hc := by
    rcases mem_finalStage he with rfl | ⟨w, hw, rfl⟩ | rfl
    · cases hc
    · cases hc
      exact hw
    · cases hc

variable (phases tokenCount) in
private theorem zipIdx_chained (hb : policies.consolidation.barrier = true) (token k : ℕ)
    (l : List (TwoQueuePhase × TwoLanes (List HeaderPolicy))) :
    Chained (priorCells phases token k)
        ((l.zipIdx k).map fun x => batchStage phases policies tokenCount token x.2 x.1) ∧
      lastJoins (priorCells phases token k)
        ((l.zipIdx k).map fun x => batchStage phases policies tokenCount token x.2 x.1) =
        priorCells phases token (k + l.length) := by
  induction l generalizing k with
  | nil => exact ⟨trivial, rfl⟩
  | cons x l ih =>
    have hnext : (batchStage phases policies tokenCount token k x).joins =
        priorCells phases token (k + 1) := by
      simp [priorCells, batchStage]
    obtain ⟨hchain, hlast⟩ := ih (k + 1)
    rw [List.zipIdx_cons, List.map_cons]
    refine ⟨⟨batchStage_links hb, hnext ▸ hchain⟩, ?_⟩
    rw [lastJoins, List.foldl_cons, hnext]
    refine hlast.trans ?_
    rw [List.length_cons]
    congr 1
    omega

/-- All stages of a batch form one chain. -/
theorem batchStages_chained (hb : policies.consolidation.barrier = true)
    (hshape : Shaped phases policies) (hne : phases ≠ []) (ht : tokenCount ≠ 0) :
    Chained [] (batchStages phases policies tokenCount) := by
  have hlen : phases.length ≠ 0 := fun h => hne (List.eq_nil_of_length_eq_zero h)
  have htokens (n : ℕ) :
      Chained [] ((List.range n).flatMap (tokenStages phases policies tokenCount)) ∧
        lastJoins [] ((List.range n).flatMap (tokenStages phases policies tokenCount)) =
          priorCells phases n 0 := by
    induction n with
    | zero => exact ⟨trivial, by simp [lastJoins, priorCells]⟩
    | succ n ih =>
      obtain ⟨hchain, hlast⟩ := zipIdx_chained phases tokenCount hb n 0
        (phases.zip (headersFor policies n))
      rw [List.length_zip, hshape.length, Nat.min_self, Nat.zero_add] at hlast
      rw [List.range_succ, List.flatMap_append, List.flatMap_singleton, lastJoins_append, ih.2]
      refine ⟨chained_append ih.1 (ih.2 ▸ hchain), hlast.trans ?_⟩
      simp [priorCells, hlen]
  refine chained_append (htokens tokenCount).1 ⟨?_, trivial⟩
  rw [(htokens tokenCount).2]
  simpa [priorCells, ht] using finalStage_links

end Links
end Hipscope.Redline.Aql
