import Hipscope.Redline.PreparedOrder

/-! Whether a token reads what the token before it has written. -/
namespace Hipscope.Redline.CompiledPlan

/-- Some dispatch of the list writes byte `n` of resource `r`. -/
def Writes (dispatches : List PlannedDispatch) (r : ResourceId) (n : ℕ) : Prop :=
  ∃ dispatch ∈ dispatches, ∃ access ∈ dispatch.accesses, access.mode = .write ∧ access.region.Contains r n

instance (dispatches : List PlannedDispatch) (r : ResourceId) (n : ℕ) : Decidable (Writes dispatches r n) :=
  inferInstanceAs (Decidable (∃ dispatch ∈ dispatches, ∃ access ∈ dispatch.accesses, access.mode = .write ∧
    access.region.resource = r ∧ access.region.offset ≤ n ∧ n < access.region.end))

/-- A read of dispatch `i` takes a byte that the plan writes, but not before `i`. -/
structure Exposes (plan : CompiledPlan) (i : ℕ) (read : Access) (r : ResourceId) (n : ℕ) : Prop where
  reads : ∃ dispatch, plan.dispatches[i]? = some dispatch ∧ read ∈ dispatch.accesses ∧ read.mode = .read
  contains : read.region.Contains r n
  not_before : ¬ Writes (plan.dispatches.take i) r n
  written : Writes plan.dispatches r n

/-- No byte of the region is written in the list. -/
def Untouched (dispatches : List PlannedDispatch) (region : DeviceRegion) : Prop :=
  ∀ r n, region.Contains r n → ¬ Writes dispatches r n

variable {plan : CompiledPlan} {dispatches : List PlannedDispatch} {region : DeviceRegion}

theorem overlapsWrite_iff : overlapsWrite dispatches region = true ↔
    ∃ r n, region.Contains r n ∧ Writes dispatches r n := by
  simp only [overlapsWrite, List.any_eq_true, Bool.and_eq_true, decide_eq_true_eq, DeviceRegion.overlaps_iff]
  constructor
  · rintro ⟨dispatch, hdispatch, access, haccess, hmode, r, n, hwritten, hread⟩
    exact ⟨r, n, hread, dispatch, hdispatch, access, haccess, hmode, hwritten⟩
  · rintro ⟨r, n, hread, dispatch, hdispatch, access, haccess, hmode, hwritten⟩
    exact ⟨dispatch, hdispatch, access, haccess, hmode, r, n, hwritten, hread⟩

theorem overlapsWrite_eq_false_iff : overlapsWrite dispatches region = false ↔ Untouched dispatches region := by
  rw [← Bool.not_eq_true, overlapsWrite_iff]
  constructor
  · intro h r n hread hwritten
    exact h ⟨r, n, hread, hwritten⟩
  · rintro h ⟨r, n, hread, hwritten⟩
    exact h r n hread hwritten

/-- What the search finds is an exposed byte whose whole read is free of earlier writes. -/
theorem hasCrossTokenRaw_iff_untouched : plan.hasCrossTokenRaw = true ↔
    ∃ i read r n, plan.Exposes i read r n ∧ Untouched (plan.dispatches.take i) read.region := by
  simp only [hasCrossTokenRaw, List.any_eq_true, Bool.and_eq_true, Bool.not_eq_true', decide_eq_true_eq,
    overlapsWrite_eq_false_iff, Prod.exists]
  constructor
  · rintro ⟨dispatch, i, hdispatch, read, hread, ⟨hmode, hfree⟩, hwritten⟩
    obtain ⟨r, n, hcontains, hwrites⟩ := overlapsWrite_iff.1 hwritten
    have hget := List.mk_mem_zipIdx_iff_getElem?.1 hdispatch
    exact ⟨i, read, r, n, ⟨⟨dispatch, hget, hread, hmode⟩, hcontains, hfree r n hcontains, hwrites⟩, hfree⟩
  · rintro ⟨i, read, r, n, h, hfree⟩
    obtain ⟨dispatch, hget, hread, hmode⟩ := h.reads
    refine ⟨dispatch, i, List.mk_mem_zipIdx_iff_getElem?.2 hget, read, hread, ⟨hmode, hfree⟩, ?_⟩
    exact overlapsWrite_iff.2 ⟨r, n, h.contains, h.written⟩

/-- Detection is exact on the plans where some exposed byte, if there is one, is read through an access that
no earlier write touches. -/
theorem hasCrossTokenRaw_exact_iff (plan : CompiledPlan) :
    (plan.hasCrossTokenRaw = true ↔ ∃ i read r n, plan.Exposes i read r n) ↔
      ((∃ i read r n, plan.Exposes i read r n) →
        ∃ i read r n, plan.Exposes i read r n ∧ Untouched (plan.dispatches.take i) read.region) := by
  rw [hasCrossTokenRaw_iff_untouched]
  constructor
  · exact fun h => h.2
  · intro h
    refine ⟨?_, h⟩
    rintro ⟨i, read, r, n, hexposes, -⟩
    exact ⟨i, read, r, n, hexposes⟩

/-- Half of what is read is written before, the other half after. -/
def halvesCalls : List Recorder.Call :=
  let access (offset len : ℕ) (mode : AccessMode) : List Access :=
    ((DeviceRegion.new ⟨0, 0⟩ offset len).toOption.map fun region => ⟨region, mode⟩).toList
  let launch : KernelLaunch := ⟨"step", ⟨1, 1, 1⟩, ⟨32, 1, 1⟩, 0, [], none, none, .one⟩
  [.resource "state" 8, .dispatch launch (access 0 4 .write), .dispatch launch (access 0 8 .read),
    .dispatch launch (access 4 4 .write), .dependsOn ⟨0, 1⟩ ⟨0, 0⟩, .dependsOn ⟨0, 2⟩ ⟨0, 1⟩]

/-- Byte 4 is read before the token writes it, yet nothing is detected. -/
theorem halves_undetected : ∃ plan,
    compile (fun _ => Aql.zeroDigest) (.run 0 halvesCalls) ⟨⟨2, by decide, by decide⟩, .tokenLatency⟩ = .ok plan ∧
      plan.hasCrossTokenRaw = false ∧ ∃ i read r n, plan.Exposes i read r n := by
  refine ⟨_, rfl, by decide +kernel, 1, ⟨⟨⟨0, 0⟩, 0, 8, by decide, by decide⟩, .read⟩, ⟨0, 0⟩, 4, ?_⟩
  constructor
  case reads => exact ⟨_, rfl, by decide +kernel, rfl⟩
  case contains => exact ⟨rfl, by decide, by decide⟩
  case not_before => decide +kernel
  case written => decide +kernel

end Hipscope.Redline.CompiledPlan

/-! Entry visibility of prepared plans. The deriver gives the entry fence to the
first dispatch of a lane in plan order, the batch publishes by level. -/
namespace Hipscope.Redline.Aql
open Queue Hipscope.Graph Visibility Hipscope.Lists

section Levels
variable {plan : CompiledPlan} {r : Recorder}

/-- The first level holds the dispatches without dependencies. -/
theorem level_eq_zero_iff (hv : r.Valid) (hs : plan.Schedules r) {d : PlannedDispatch}
    (hd : d ∈ plan.dispatches) :
    (levels plan.dispatches).level d.node = 0 ↔ d.dependencies = [] := by
  rw [(levels_spec (hs.nodes_nodup hv) hs.earlier hd).1]
  constructor
  · intro h0
    refine List.eq_nil_iff_forall_not_mem.mpr fun a ha => ?_
    have hlt := level_lt_levelOf (levels plan.dispatches).level ha
    omega
  · intro hnil
    rw [levelOf, hnil]
    rfl

/-- A dispatch without dependencies consumes nothing of the plan. -/
private theorem acquireReasons_root (hv : r.Valid) (hs : plan.Schedules r) {d : PlannedDispatch}
    (hd : d ∈ plan.dispatches) (hroot : d.dependencies = []) (before : List PlannedDispatch) :
    acquireReasons (reachability plan.dispatches) before d = [] := by
  refine List.flatMap_eq_nil_iff.mpr fun first _ => ?_
  have hreach : reachability plan.dispatches first.node d.node ≠ true := by
    intro hr
    obtain ⟨a, -, hedge⟩ := Relation.TransGen.tail'_iff.mp ((reachability_iff hv hs _ _).mp hr)
    have hmem := (hs.dependencies d hd a).mpr hedge
    rw [hroot] at hmem
    simp at hmem
  rw [rawOverlaps, if_neg hreach]
  rfl

private theorem deriveAqlVisibility_dispatches {boundary : ApiBoundary} {v : DerivedVisibilityPlan}
    (h : deriveAqlVisibility plan boundary = .ok v) :
    v.dispatches = (derivePolicies boundary (reachability plan.dispatches)
      (laneByNode plan.dispatches) emptyLanes [] plan.dispatches).2 := by
  simp only [deriveAqlVisibility] at h
  split at h
  · cases h
  split at h
  · cases h
  · cases h
    rfl

/-- The acquire scope of a dispatch without dependencies. -/
theorem root_acquire (hv : r.Valid) (hs : plan.Schedules r) {boundary : ApiBoundary}
    {v : DerivedVisibilityPlan} (h : deriveAqlVisibility plan boundary = .ok v)
    {before after : List PlannedDispatch} {d : PlannedDispatch}
    (hsplit : plan.dispatches = before ++ d :: after) (hroot : d.dependencies = [])
    {p : DerivedDispatchPolicy} (hp : p ∈ v.dispatches) (hpn : p.node = d.node) :
    p.header.acquire = if ∀ e ∈ before, e.lane ≠ d.lane then entryScope boundary.entry else .none := by
  obtain ⟨lanes, P, Q, hpol, -, hnodes⟩ := derivePolicies_split boundary
    (reachability plan.dispatches) (laneByNode plan.dispatches) emptyLanes [] before d after
  have hraw := acquireReasons_root hv hs (by simp [hsplit]) hroot before
  rw [← hsplit, ← deriveAqlVisibility_dispatches h] at hpol
  have hnodup : (v.dispatches.map DerivedDispatchPolicy.node).Nodup := by
    rw [deriveAqlVisibility_dispatches h, derivePolicies_nodes]
    exact hs.nodes_nodup hv
  obtain rfl := List.inj_on_of_nodup_map hnodup hp
    (hpol ▸ List.mem_append_right _ List.mem_cons_self) hpn
  have hfirst : lanes.nodes d.lane = [] ↔ ∀ e ∈ before, e.lane ≠ d.lane := by
    rw [hnodes]
    simp [emptyLanes]
  simp only [derivePolicy, List.nil_append, hraw, if_true, hfirst]
  split
  · cases boundary.entry <;> rfl
  · rfl

end Levels

def kernelHeader {K S : Type} : Packet K S → Option HeaderPolicy
  | .kernel _ _ header _ => some header
  | .barrierAnd _ _ _ => none

/-- The header of the first kernel packet a queue receives. -/
def firstKernel (packets : BatchPackets) (lane : ℕ) : Option HeaderPolicy :=
  (queueBatch packets lane).findSome? kernelHeader

section Published
variable {phases : List TwoQueuePhase} {policies : TwoQueueDerivedPolicies} {tokenCount : ℕ}

private theorem firstKernel_append {P R : BatchPackets} {lane : ℕ} :
    firstKernel (P ++ R) lane = (firstKernel P lane).or (firstKernel R lane) := by
  simp [firstKernel, queueBatch, List.findSome?_append]

private theorem firstKernel_laneBatch {token phase q lane : ℕ} {dispatches : List RecordedDispatch}
    {headers : List HeaderPolicy} (hlen : headers.length = dispatches.length) :
    firstKernel (laneBatch phases policies tokenCount token phase q dispatches headers) lane =
      if q = lane then headers.head? else none := by
  rw [laneBatch, firstKernel_append]
  have hcons : firstKernel [(q, Packet.barrierAnd policies.consolidation []
      (some (BatchSignal.tail token phase q)))] lane = none := by
    by_cases hq : q = lane <;> simp [firstKernel, queueBatch, kernelHeader, hq]
  rw [hcons, Option.or_none]
  split
  · rename_i hq
    subst hq
    cases dispatches with
    | nil =>
      rw [List.eq_nil_of_length_eq_zero hlen]
      rfl
    | cons d ds =>
      cases headers with
      | nil => simp at hlen
      | cons header headers =>
        rw [firstKernel, queueBatch, kernelPackets, List.zip_cons_cons, List.zipIdx_cons, List.map_cons,
          List.filter_cons_of_pos (by simp), List.map_cons, List.findSome?_cons]
        rfl
  · rename_i hq
    simp [firstKernel, queueBatch, kernelPackets, List.filter_map, Function.comp_def, hq]

/-- The first kernel packets are the first dispatches of the first phase. -/
theorem firstKernel_batch (hshape : Shaped phases policies) (hne : phases ≠ []) (ht : tokenCount ≠ 0)
    {packets : BatchPackets} (h : batchPackets phases policies tokenCount = .ok packets)
    {phase : TwoQueuePhase} (hphase : phases[0]? = some phase) {lane : ℕ} (hl : lane < 2)
    (hlane : phase.get lane ≠ []) : ∃ headers header, policies.firstDispatches[0]? = some headers ∧
      (headers.get lane).head? = some header ∧ firstKernel packets lane = some header := by
  obtain ⟨n, rfl⟩ : ∃ n, tokenCount = n + 1 := ⟨tokenCount - 1, by omega⟩
  obtain ⟨headers, hheaders⟩ : ∃ headers, policies.firstDispatches[0]? = some headers := by
    have hlen : 0 < policies.firstDispatches.length := by
      have := hshape.length 0
      rw [headersFor, if_pos rfl] at this
      rw [this]
      exact List.length_pos_of_ne_nil hne
    exact ⟨_, List.getElem?_eq_getElem hlen⟩
  have hzip : (phases.zip (headersFor policies 0))[0]? = some (phase, headers) :=
    List.getElem?_zip_eq_some.mpr ⟨hphase, by rwa [headersFor, if_pos rfl]⟩
  obtain ⟨hz, ho⟩ := hshape.lanes 0 _ (List.mem_of_getElem? hzip)
  obtain ⟨rest, hrest⟩ : ∃ rest, phases.zip (headersFor policies 0) = (phase, headers) :: rest := by
    cases hl : phases.zip (headersFor policies 0) with
    | nil => simp [hl] at hzip
    | cons x rest =>
      rw [hl] at hzip
      exact ⟨rest, by simpa using hzip⟩
  have hstage : firstKernel (stageBatch phases policies (n + 1) 0 0 (phase, headers)) lane =
      (headers.get lane).head? := by
    rw [stageBatch, firstKernel_append, firstKernel_append, firstKernel_laneBatch hz,
      firstKernel_laneBatch ho]
    obtain rfl | rfl : lane = 0 ∨ lane = 1 := by omega
    · simp [priorPackets, firstKernel, queueBatch, TwoLanes.get]
    · simp [priorPackets, firstKernel, queueBatch, TwoLanes.get]
  obtain ⟨header, hheader⟩ : ∃ header, (headers.get lane).head? = some header := by
    have hlen : (headers.get lane).length = (phase.get lane).length := by
      obtain rfl | rfl : lane = 0 ∨ lane = 1 := by omega
      · exact hz
      · exact ho
    cases hh : headers.get lane with
    | nil =>
      rw [hh] at hlen
      exact absurd (List.eq_nil_of_length_eq_zero hlen.symm) hlane
    | cons header rest => exact ⟨header, rfl⟩
  refine ⟨headers, header, hheaders, hheader, ?_⟩
  rw [batchPackets_ok hshape hne h, List.range_succ_eq_map, List.flatMap_cons, hrest,
    List.zipIdx_cons, List.flatMap_cons, List.append_assoc, List.append_assoc, firstKernel_append,
    hstage, hheader]
  rfl

end Published

section Prepared
variable {prepared : PreparedAqlPlan} {device : GpuDevice} {pool : KernargPool}
  {bindings : ReplayBindings} {kernels : AqlKernelCatalog} {plan : CompiledPlan} {tokenCount : ℕ}
  {boundary : ApiBoundary} {lowered : List (PlannedDispatch × RecordedDispatch)}
  {policies : TwoQueueDerivedPolicies} {r : Recorder}

private theorem phaseHeaders_lane {v : DerivedVisibilityPlan}
    {header : DerivedDispatchPolicy → HeaderPolicy} {nodes : TwoLanes (List NodeId)}
    {headers : TwoLanes (List HeaderPolicy)} (h : phaseHeaders v header nodes = .ok headers) {lane : ℕ}
    (hl : lane < 2) : laneHeaders v header (nodes.get lane) = .ok (headers.get lane) := by
  obtain ⟨zero, hz, h⟩ := bind_ok h
  obtain ⟨one, ho, h⟩ := bind_ok h
  cases h
  obtain rfl | rfl : lane = 0 ∨ lane = 1 := by omega
  · exact hz
  · exact ho

private theorem laneHeaders_get {v : DerivedVisibilityPlan}
    {header : DerivedDispatchPolicy → HeaderPolicy} {nodes : List NodeId} {headers : List HeaderPolicy}
    (h : laneHeaders v header nodes = .ok headers) {i : ℕ} {hd : HeaderPolicy}
    (hi : headers[i]? = some hd) :
    ∃ p ∈ v.dispatches, nodes[i]? = some p.node ∧ hd = header p := by
  obtain ⟨node, hnode, hfind⟩ := mapM_getElem? h hi
  split at hfind
  · cases hfind
  · rename_i p hp
    cases hfind
    have hpn := List.find?_some hp
    rw [decide_eq_true_eq] at hpn
    exact ⟨p, List.mem_of_find?_eq_some hp, hpn ▸ hnode, rfl⟩

/-- The first dispatch of the first phase of a lane. -/
private theorem Lowers.root_head
    (h : Lowers prepared device pool bindings kernels plan tokenCount boundary lowered policies)
    (hv : r.Valid) (hs : plan.Schedules r) (lane : ℕ) :
    plan.dispatches.find? (fun d => d.dependencies = [] ∧ d.lane = lane) =
      (onLane (levels plan.dispatches) 0 lane lowered).head?.map Prod.fst := by
  have hfilter : onLane (levels plan.dispatches) 0 lane lowered =
      lowered.filter fun x => x.1.dependencies = [] ∧ x.1.lane = lane := by
    refine List.filter_congr fun x hx => ?_
    rw [decide_eq_decide, level_eq_zero_iff hv hs (h.mem_dispatches hx)]
  rw [hfilter, List.head?_filter]
  conv_lhs => rw [← h.source.dispatches, List.find?_map]
  rfl

/-- The first kernel packet of a queue carries the derived header of the first
dispatch, in plan order, that has no dependencies and runs on that lane. -/
theorem Lowers.firstKernel_root
    (h : Lowers prepared device pool bindings kernels plan tokenCount boundary lowered policies)
    (hv : r.Valid) (hs : plan.Schedules r) {lane : ℕ} (hl : lane < 2) :
    ∃ d, plan.dispatches.find? (fun d => d.dependencies = [] ∧ d.lane = lane) = some d ∧
      ∃ p ∈ prepared.visibility.dispatches, p.node = d.node ∧
        firstKernel prepared.graph.packets lane = some p.header := by
  have hhead := h.root_head hv hs lane
  cases hx : onLane (levels plan.dispatches) 0 lane lowered with
  | nil => exact absurd hx (h.lanes_nonempty 0 (Nat.zero_le _) lane hl)
  | cons x rest =>
    rw [hx] at hhead
    obtain ⟨cap, profile, hcreated⟩ := h.created
    obtain ⟨hne, htoken, hshape, hpackets, -⟩ := createDerived_ok hcreated
    have hphase : prepared.graph.phases[0]? = some (lanesOf (levels plan.dispatches) lowered 0) := by
      rw [h.phases_eq]
      simp
    obtain ⟨headers, header, hfirst, hheader, hkernel⟩ := firstKernel_batch hshape hne htoken hpackets
      hphase hl (by rw [get_lanesOf hl, hx]; simp)
    obtain ⟨nodes, hnodes, hphaseHeaders⟩ := mapM_getElem? h.first_headers hfirst
    obtain ⟨p, hp, hnode, rfl⟩ := laneHeaders_get (phaseHeaders_lane hphaseHeaders hl) (i := 0)
      (by rw [← List.head?_eq_getElem?]; exact hheader)
    refine ⟨x.1, hhead, p, hp, ?_, hkernel⟩
    have hrow : nodes = phaseNodes (levels plan.dispatches) lowered 0 := by
      rw [h.nodes_eq] at hnodes
      simpa using hnodes.symm
    rw [hrow, get_phaseNodes hl, hx] at hnode
    simpa using hnode.symm

/-- On one queue the entry fence comes first exactly when the lane's first
dispatch in plan order has no dependencies. -/
private theorem Lowers.entry_iff
    (h : Lowers prepared device pool bindings kernels plan tokenCount boundary lowered policies)
    (hv : r.Valid) (hs : plan.Schedules r) {lane : ℕ} (hl : lane < 2) :
    (∃ header, firstKernel prepared.graph.packets lane = some header ∧
      (entryScope boundary.entry).le header.acquire) ↔
      ∀ d, plan.dispatches.find? (fun d => d.lane = lane) = some d → d.dependencies = [] := by
  obtain ⟨root, hroot, p, hp, hpn, hkernel⟩ := h.firstKernel_root hv hs hl
  obtain ⟨hprops, before, after, hsplit, hbefore⟩ := List.find?_eq_some_iff_append.mp hroot
  obtain ⟨hdeps, hlane⟩ := of_decide_eq_true hprops
  constructor
  · rintro ⟨header, hheader, hle⟩ d hd
    obtain rfl : p.header = header := Option.some.inj (hkernel.symm.trans hheader)
    rw [root_acquire hv hs h.derived hsplit hdeps hp hpn] at hle
    split at hle
    · rename_i hfirst
      have hfind : plan.dispatches.find? (fun d => d.lane = lane) = some root :=
        List.find?_eq_some_iff_append.mpr ⟨by simp [hlane], before, after, hsplit,
          fun e he => by simpa [hlane] using hfirst e he⟩
      obtain rfl := Option.some.inj (hfind.symm.trans hd)
      exact hdeps
    · cases hentry : boundary.entry <;> rw [hentry] at hle <;> cases hle
  · intro hall
    refine ⟨p.header, hkernel, ?_⟩
    rw [root_acquire hv hs h.derived hsplit hdeps hp hpn, if_pos ?_]
    · exact Nat.le_refl _
    · -- an earlier dispatch of the lane would be its first one and a root itself
      intro e he helane
      obtain ⟨first, hfirst⟩ := Option.isSome_iff_exists.mp
        (List.find?_isSome (p := fun d : PlannedDispatch => d.lane = lane).mpr
          ⟨e, he, by simp [helane, hlane]⟩)
      have hplan : plan.dispatches.find? (fun d => d.lane = lane) = some first := by
        rw [hsplit, List.find?_append, hfirst]
        rfl
      have hfl : first.lane = lane := by simpa using List.find?_some hfirst
      have hnot := hbefore first (List.mem_of_find?_eq_some hfirst)
      simp [hall first hplan, hfl] at hnot

end Prepared

/-- The first kernel packets published on both queues carry the entry fence if
and only if on each lane the first dispatch in plan order has no dependencies. -/
theorem entry_visibility_iff (sha256 : List UInt8 → Sha256Digest) (owner : ℕ)
    (calls : List Recorder.Call) (options : CompileOptions) (plan : CompiledPlan)
    (device : GpuDevice) (pool : KernargPool) (capacity : ℕ → ℕ → ℕ) (bindings : ReplayBindings)
    (kernels : AqlKernelCatalog) (tokenCount : ℕ) (boundary : ApiBoundary)
    (profileAllDispatches : Bool) (prepared : PreparedAqlPlan)
    (hplan : compile sha256 (.run owner calls) options = .ok plan)
    (hprepare : prepareInternal sha256 device pool capacity plan bindings kernels tokenCount boundary
      profileAllDispatches = .ok prepared) :
    (∀ lane < 2, ∃ header, firstKernel prepared.graph.packets lane = some header ∧
      (entryScope boundary.entry).le header.acquire) ↔
    ∀ lane < 2, ∀ d, plan.dispatches.find? (fun d => d.lane = lane) = some d → d.dependencies = [] := by
  have hv := Recorder.run_valid owner calls
  obtain ⟨hs, -⟩ := compile_schedules hv hplan
  obtain ⟨lowered, policies, h⟩ := prepareInternal_ok hprepare
  exact forall₂_congr fun lane hl => h.entry_iff hv hs hl

/-- The second lane receives a dependent dispatch before an independent one. -/
def lateRoot : List Recorder.Call :=
  [.resource "state" 32,
    .dispatch (pointerLaunch 0 1) (pointerWord 0 .write),
    .dispatch (pointerLaunch 0 9) (pointerWord 0 .read),
    .dispatch (pointerLaunch 0 1) (pointerWord 0 .read),
    .dispatch (pointerLaunch 8 1) (pointerWord 8 .read),
    .dependsOn ⟨0, 1⟩ ⟨0, 0⟩, .dependsOn ⟨0, 2⟩ ⟨0, 0⟩]

theorem lateRoot_no_entry_fence : ∃ plan prepared,
    compile (fun _ => zeroDigest) (.run 0 lateRoot) twoLanes = .ok plan ∧
    prepareInternal (fun _ => zeroDigest) smallDevice smallPool (fun size _ => size) plan
      (boundAt 65536) pointerKernels 1 defaultBoundary false = .ok prepared ∧
    firstKernel prepared.graph.packets 1 = some ⟨false, .none, .none⟩ ∧
    ¬ ∀ lane < 2, ∃ header, firstKernel prepared.graph.packets lane = some header ∧
      (entryScope defaultBoundary.entry).le header.acquire := by
  refine ⟨_, _, rfl, rfl, rfl, fun h => ?_⟩
  obtain ⟨header, hheader, hle⟩ := h 1 (by decide)
  cases hheader
  exact absurd hle (by decide)

theorem twoChains_entry_fence : ∃ plan prepared,
    compile (fun _ => zeroDigest) (.run 0 twoChains) twoLanes = .ok plan ∧
    prepareInternal (fun _ => zeroDigest) smallDevice smallPool (fun size _ => size) plan
      (boundAt 65536) pointerKernels 3 defaultBoundary false = .ok prepared ∧
    ∀ lane < 2, ∃ header, firstKernel prepared.graph.packets lane = some header ∧
      (entryScope defaultBoundary.entry).le header.acquire := by
  refine ⟨_, _, rfl, rfl, (entry_visibility_iff (fun _ => zeroDigest) 0 twoChains twoLanes _
    smallDevice smallPool (fun size _ => size) (boundAt 65536) pointerKernels 3
    defaultBoundary false _ rfl rfl).mpr ?_⟩
  intro lane hl d hd
  obtain rfl | rfl : lane = 0 ∨ lane = 1 := by omega
  · cases hd
    rfl
  · cases hd
    rfl

end Hipscope.Redline.Aql
