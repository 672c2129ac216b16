import Hipscope.Redline.PreparedOrder

/-! Rebinding a prepared plan compared with preparing it again. The refresh
looks dispatches up by insertion index in the plan's topological list. -/
namespace Hipscope.Redline.Aql
open Queue Hipscope.Graph Visibility Hipscope.Lists

/-- The bytes a launch's arguments pack to. -/
def kernargImage (bindings : ReplayBindings) (launch : KernelLaunch) :
    Except GenericAqlError (List UInt8) :=
  match launch.kernargAbi with
  | none => .error (.missingKernargAbi launch.kernel)
  | some abi => (packKernarg launch.arguments abi bindings
      ⟨0, 0, List.replicate abi.segmentSize 0⟩).map KernargBuffer.bytes

def dispatchAt (graph : TwoQueueSerializedBatchGraph) (phase lane index : ℕ) : Option RecordedDispatch :=
  graph.phases[phase]?.bind fun lanes => (lanes.get lane)[index]?

/-- The kernarg bytes at one place of the graph. -/
def kernargAt (graph : TwoQueueSerializedBatchGraph) (phase lane index : ℕ) : Option (List UInt8) :=
  (dispatchAt graph phase lane index).map fun d => d.kernarg.bytes

/-- Packing reads nothing of the buffer but its length. -/
theorem packKernarg_image {bindings : ReplayBindings} {launch : KernelLaunch} {abi : KernargAbi}
    (habi : launch.kernargAbi = some abi) {output result : KernargBuffer}
    (h : packKernarg launch.arguments abi bindings output = .ok result) :
    kernargImage bindings launch = .ok result.bytes := by
  unfold packKernarg at h
  split at h
  · cases h
  rename_i hargs
  split at h
  · cases h
  rename_i hlen
  rw [not_not] at hlen
  obtain ⟨bytes, hbytes, h⟩ := bind_ok h
  cases h
  rw [hlen] at hbytes
  rw [kernargImage, habi]
  simp only [packKernarg, hargs, List.length_replicate, ne_eq, not_true_eq_false, if_false, hbytes]
  rfl

section Patched
variable {graph patched : TwoQueueSerializedBatchGraph}
  {patch : ℕ → ℕ → ℕ → KernargBuffer → Except GenericAqlError KernargBuffer}

private theorem patchLane_get {f : ℕ → KernargBuffer → Except GenericAqlError KernargBuffer}
    {l l' : List RecordedDispatch} (h : patchLane f l = .ok l') {i : ℕ} {d : RecordedDispatch}
    (hi : l[i]? = some d) : ∃ d', l'[i]? = some d' ∧ f i d.kernarg = .ok d'.kernarg := by
  have hzip : l.zipIdx[i]? = some (d, i) := by
    simp [List.getElem?_zipIdx, hi]
  obtain ⟨d', hd', hpatch⟩ := mapM_getElem?_left h hzip
  obtain ⟨kernarg, hk, hpatch⟩ := bind_ok hpatch
  cases hpatch
  exact ⟨_, hd', hk⟩

/-- A patched graph holds at every place what the patch made of it. -/
theorem patchKernargs_at (h : patchKernargs patch graph = .ok patched) {phase lane index : ℕ}
    (hl : lane < 2) {d : RecordedDispatch} (hd : dispatchAt graph phase lane index = some d) :
    ∃ d', dispatchAt patched phase lane index = some d' ∧
      patch phase lane index d.kernarg = .ok d'.kernarg := by
  obtain ⟨phases, hphases, h⟩ := bind_ok h
  cases h
  obtain ⟨lanes, hlanes, hi⟩ := Option.bind_eq_some_iff.mp hd
  have hzip : graph.phases.zipIdx[phase]? = some (lanes, phase) := by
    simp [List.getElem?_zipIdx, hlanes]
  obtain ⟨lanes', hlanes', hpatch⟩ := mapM_getElem?_left hphases hzip
  obtain ⟨zero, hz, hpatch⟩ := bind_ok hpatch
  obtain ⟨one, ho, hpatch⟩ := bind_ok hpatch
  cases hpatch
  have hlane : patchLane (patch phase lane) (lanes.get lane) =
      .ok (TwoLanes.get ⟨zero, one⟩ lane) := by
    obtain rfl | rfl : lane = 0 ∨ lane = 1 := by omega
    · exact hz
    · exact ho
  obtain ⟨d', hd', hk⟩ := patchLane_get hlane hi
  exact ⟨d', Option.bind_eq_some_iff.mpr ⟨_, hlanes', hd'⟩, hk⟩

end Patched

section Lowers
variable {prepared : PreparedAqlPlan} {device : GpuDevice} {pool : KernargPool}
  {bindings : ReplayBindings} {kernels : AqlKernelCatalog} {plan : CompiledPlan} {tokenCount : ℕ}
  {boundary : ApiBoundary} {lowered : List (PlannedDispatch × RecordedDispatch)}
  {policies : TwoQueueDerivedPolicies} {r : Recorder}

private theorem resolveKernel_abi {launch : KernelLaunch} {x : AqlKernelBinding × KernargAbi}
    (h : resolveKernel kernels launch = .ok x) : launch.kernargAbi = some x.2 := by
  unfold resolveKernel at h
  split at h
  · cases h
  split at h
  · cases h
  rename_i habi
  split at h
  · cases h
  split at h
  · cases h
  split at h
  · cases h
  · cases h
    exact habi

private theorem new_kernarg {lane : ℕ} {kernel : Kernel} {geometry : LaunchGeometry}
    {kernarg : KernargBuffer} {dispatch : RecordedDispatch}
    (h : RecordedDispatch.new lane kernel geometry kernarg = .ok dispatch) :
    dispatch.kernarg = kernarg := by
  unfold RecordedDispatch.new at h
  split_ifs at h
  cases h
  rfl

private theorem lowerDispatch_image {request : ℕ} {d : PlannedDispatch} {recorded : RecordedDispatch}
    (h : lowerDispatch device pool bindings kernels request d = .ok recorded) :
    kernargImage bindings d.launch = .ok recorded.kernarg.bytes := by
  obtain ⟨⟨registered, abi⟩, hres, h⟩ := bind_ok h
  obtain ⟨buffer, -, h⟩ := bind_ok h
  obtain ⟨kernarg, hpack, h⟩ := bind_ok h
  obtain ⟨geometry, -, h⟩ := bind_ok h
  obtain ⟨dispatch, hnew, h⟩ := bind_ok h
  cases h
  rw [new_kernarg (mapError_ok hnew)]
  exact packKernarg_image (resolveKernel_abi hres) hpack

/-- The place table of a plan does not depend on what was allocated or bound. -/
private theorem phaseNodes_eq {L : Levels} {phase : ℕ} : phaseNodes L lowered phase =
    ⟨((lowered.map Prod.fst).filter fun d => L.level d.node = phase ∧ d.lane = 0).map
        PlannedDispatch.node,
      ((lowered.map Prod.fst).filter fun d => L.level d.node = phase ∧ d.lane = 1).map
        PlannedDispatch.node⟩ := by
  simp [phaseNodes, onLane, List.filter_map, Function.comp_def]

/-- A prepared place holds the packed arguments of its dispatch. -/
theorem Lowers.kernargAt_image
    (h : Lowers prepared device pool bindings kernels plan tokenCount boundary lowered policies)
    {phase lane index : ℕ} (hl : lane < 2) {node : NodeId}
    (hn : nodeAt prepared.phaseNodes phase lane index = some node) :
    ∃ d ∈ plan.dispatches, d.node = node ∧ ∃ recorded,
      dispatchAt prepared.graph phase lane index = some recorded ∧
      kernargImage bindings d.launch = .ok recorded.kernarg.bytes := by
  rw [h.nodes_eq, nodeAt_iff hl] at hn
  obtain ⟨hphase, x, hx, rfl⟩ := hn
  have hmem := (mem_onLane.mp (List.mem_of_getElem? hx)).1
  obtain ⟨request, hlow⟩ := h.source.recorded x hmem
  refine ⟨x.1, h.mem_dispatches hmem, rfl, x.2, ?_, lowerDispatch_image hlow⟩
  refine Option.bind_eq_some_iff.mpr ⟨lanesOf (levels plan.dispatches) lowered phase, ?_, ?_⟩
  · rw [h.phases_eq, List.getElem?_map, List.getElem?_range (by omega)]
    rfl
  · rw [get_lanesOf hl, List.getElem?_map, hx]
    rfl

end Lowers

section Refresh
variable {sha256 : List UInt8 → Sha256Digest} {prepared refreshed : PreparedAqlPlan}
  {device : GpuDevice} {pool : KernargPool} {old bindings : ReplayBindings} {kernels : AqlKernelCatalog}
  {plan : CompiledPlan} {tokenCount : ℕ} {boundary : ApiBoundary}
  {lowered : List (PlannedDispatch × RecordedDispatch)} {policies : TwoQueueDerivedPolicies}
  {r : Recorder} {state : PreparedPlanState}

/-- After a refresh a place holds the arguments of the dispatch that stands, in
plan order, at the insertion index of the place's node. -/
theorem refreshBindings_at
    (h : Lowers prepared device pool old kernels plan tokenCount boundary lowered policies)
    (hr : prepared.refreshBindings sha256 plan bindings kernels = .ok (state, refreshed))
    {phase lane index : ℕ} (hl : lane < 2) {node : NodeId}
    (hn : nodeAt prepared.phaseNodes phase lane index = some node) :
    ∃ e bytes, plan.dispatches[node.index]? = some e ∧ kernargImage bindings e.launch = .ok bytes ∧
      kernargAt refreshed.graph phase lane index = some bytes := by
  obtain ⟨_, -, hr⟩ := bind_ok hr
  obtain ⟨graph, hgraph, hr⟩ := bind_ok hr
  obtain ⟨stamp, -, hr⟩ := bind_ok hr
  cases hr
  obtain ⟨-, -, -, recorded, hrec, -⟩ := h.kernargAt_image hl hn
  obtain ⟨patched, hpatched, hpatch⟩ := patchKernargs_at hgraph hl hrec
  rw [refreshKernarg, hn, Option.bind_some] at hpatch
  split at hpatch
  · cases hpatch
  rename_i e he
  split at hpatch
  · cases hpatch
  rename_i abi habi
  refine ⟨e, patched.kernarg.bytes, he, packKernarg_image habi hpatch, ?_⟩
  rw [kernargAt, hpatched]
  rfl

/-- Looking a node up by insertion index finds a launch with the same image. -/
def ImagesAgree (plan : CompiledPlan) (bindings : ReplayBindings) : Prop :=
  ∀ d ∈ plan.dispatches, ∀ e, plan.dispatches[d.node.index]? = some e →
    kernargImage bindings e.launch = kernargImage bindings d.launch

/-- Plans recorded in plan order agree: every lookup finds the node itself. -/
theorem imagesAgree_of_recording_order
    (h : ∀ (i : ℕ) d, plan.dispatches[i]? = some d → d.node.index = i) : ImagesAgree plan bindings := by
  intro d hd e he
  obtain ⟨i, hi⟩ := List.mem_iff_getElem?.mp hd
  rw [h i d hi, hi] at he
  rw [Option.some.inj he]

end Refresh

/-- After an accepted refresh, every place holds the bytes of its own dispatch
under the new bindings, as a fresh preparation would put there, if and only if
the launch found at a node's insertion index packs like the node's own. -/
theorem refreshBindings_iff (sha256 : List UInt8 → Sha256Digest) (owner : ℕ)
    (calls : List Recorder.Call) (options : CompileOptions) (plan : CompiledPlan)
    (device : GpuDevice) (pool : KernargPool) (capacity : ℕ → ℕ → ℕ) (old bindings : ReplayBindings)
    (kernels : AqlKernelCatalog) (tokenCount : ℕ) (boundary : ApiBoundary)
    (profileAllDispatches : Bool) (prepared refreshed : PreparedAqlPlan) (state : PreparedPlanState)
    (hplan : compile sha256 (.run owner calls) options = .ok plan)
    (hprepare : prepareInternal sha256 device pool capacity plan old kernels tokenCount boundary
      profileAllDispatches = .ok prepared)
    (hrefresh : prepared.refreshBindings sha256 plan bindings kernels = .ok (state, refreshed)) :
    ((∀ phase, ∀ lane < 2, ∀ index, ∀ d ∈ plan.dispatches,
      nodeAt prepared.phaseNodes phase lane index = some d.node →
        ∃ bytes, kernargImage bindings d.launch = .ok bytes ∧
          kernargAt refreshed.graph phase lane index = some bytes) ↔ ImagesAgree plan bindings) ∧
    ∀ pool' fresh, prepareInternal sha256 device pool' capacity plan bindings kernels tokenCount
      boundary profileAllDispatches = .ok fresh →
      ((∀ phase, ∀ lane < 2, ∀ index, ∀ node, nodeAt prepared.phaseNodes phase lane index = some node →
        kernargAt refreshed.graph phase lane index = kernargAt fresh.graph phase lane index) ↔
        ImagesAgree plan bindings) := by
  have hv := Recorder.run_valid owner calls
  obtain ⟨hs, -⟩ := compile_schedules hv hplan
  obtain ⟨lowered, policies, h⟩ := prepareInternal_ok hprepare
  have hplace (d : PlannedDispatch) (hd : d ∈ plan.dispatches) : ∃ slot : Slot, slot.lane < 2 ∧
      nodeAt prepared.phaseNodes slot.phase slot.lane slot.index = some d.node := by
    obtain ⟨slot, ⟨-, hl, hn⟩, -⟩ := h.runs_unique hv hs 0 hd
    exact ⟨slot, hl, hn⟩
  refine ⟨⟨fun hall d hd e he => ?_, fun hagree phase lane hl index d hd hn => ?_⟩,
    fun pool' fresh hfresh => ?_⟩
  · obtain ⟨slot, hl, hn⟩ := hplace d hd
    obtain ⟨bytes, hbytes, hat⟩ := hall slot.phase slot.lane hl slot.index d hd hn
    obtain ⟨e', bytes', he', hbytes', hat'⟩ := refreshBindings_at h hrefresh hl hn
    obtain rfl := Option.some.inj (he'.symm.trans he)
    obtain rfl := Option.some.inj (hat'.symm.trans hat)
    rw [hbytes, hbytes']
  · obtain ⟨e, bytes, he, hbytes, hat⟩ := refreshBindings_at h hrefresh hl hn
    exact ⟨bytes, (hagree d hd e he).symm.trans hbytes, hat⟩
  · obtain ⟨lowered', policies', h'⟩ := prepareInternal_ok hfresh
    have htable : fresh.phaseNodes = prepared.phaseNodes := by
      rw [h.nodes_eq, h'.nodes_eq]
      refine List.map_congr_left fun phase _ => ?_
      rw [phaseNodes_eq, phaseNodes_eq, h.source.dispatches, h'.source.dispatches]
    have hfreshAt {phase lane index : ℕ} (hl : lane < 2) {d : PlannedDispatch}
        (hd : d ∈ plan.dispatches) (hn : nodeAt prepared.phaseNodes phase lane index = some d.node) :
        ∃ bytes, kernargImage bindings d.launch = .ok bytes ∧
          kernargAt fresh.graph phase lane index = some bytes := by
      obtain ⟨d', hd', hnode, recorded, hrec, himage⟩ := h'.kernargAt_image hl (htable ▸ hn)
      obtain rfl := List.inj_on_of_nodup_map (hs.nodes_nodup hv) hd' hd hnode
      exact ⟨_, himage, by rw [kernargAt, hrec]; rfl⟩
    constructor
    · intro hall d hd e he
      obtain ⟨slot, hl, hn⟩ := hplace d hd
      obtain ⟨e', bytes, he', hbytes, hat⟩ := refreshBindings_at h hrefresh hl hn
      obtain ⟨bytes', hbytes', hat'⟩ := hfreshAt hl hd hn
      rw [hall slot.phase slot.lane hl slot.index d.node hn, hat'] at hat
      obtain rfl := Option.some.inj (he'.symm.trans he)
      rw [hbytes, hbytes', Option.some.inj hat]
    · intro hagree phase lane hl index node hn
      obtain ⟨d, hd, rfl, -⟩ := h.kernargAt_image hl hn
      obtain ⟨e, bytes, he, hbytes, hat⟩ := refreshBindings_at h hrefresh hl hn
      obtain ⟨bytes', hbytes', hat'⟩ := hfreshAt hl hd hn
      rw [hagree d hd e he, hbytes'] at hbytes
      rw [hat, hat', Except.ok.inj hbytes]

/-- Consumers recorded before their producers. -/
def reversedChains : List Recorder.Call :=
  [.resource "state" 32,
    .dispatch (pointerLaunch 0 1) (pointerWord 0 .read),
    .dispatch (pointerLaunch 8 1) (pointerWord 8 .read),
    .dispatch (pointerLaunch 16 1) (pointerWord 16 .write),
    .dispatch (pointerLaunch 24 1) (pointerWord 24 .write),
    .dependsOn ⟨0, 0⟩ ⟨0, 2⟩, .dependsOn ⟨0, 1⟩ ⟨0, 3⟩]

theorem reversedChains_misbound : ∃ plan prepared state refreshed,
    compile (fun _ => zeroDigest) (.run 0 reversedChains) twoLanes = .ok plan ∧
    prepareInternal (fun _ => zeroDigest) smallDevice smallPool (fun size _ => size) plan
      (boundAt 65536) pointerKernels 1 defaultBoundary false = .ok prepared ∧
    prepared.refreshBindings (fun _ => zeroDigest) plan (boundAt 131072) pointerKernels =
      .ok (state, refreshed) ∧
    nodeAt prepared.phaseNodes 0 0 0 = some ⟨0, 2⟩ ∧
    kernargAt refreshed.graph 0 0 0 = some (toLeBytes 8 (131072 + 24)) ∧
    ¬ ∀ phase, ∀ lane < 2, ∀ index, ∀ d ∈ plan.dispatches,
      nodeAt prepared.phaseNodes phase lane index = some d.node →
        ∃ bytes, kernargImage (boundAt 131072) d.launch = .ok bytes ∧
          kernargAt refreshed.graph phase lane index = some bytes := by
  refine ⟨_, _, _, _, rfl, rfl, rfl, rfl, rfl, fun h => ?_⟩
  obtain ⟨bytes, himage, hat⟩ := h 0 0 (by decide) 0 _ List.mem_cons_self rfl
  have hown : Except.ok (toLeBytes 8 (131072 + 16)) = (.ok bytes : Except GenericAqlError _) := himage
  have hheld : some (toLeBytes 8 (131072 + 24)) = some bytes := hat
  rw [← Except.ok.inj hown] at hheld
  exact absurd hheld (by decide)

theorem twoChains_rebound : ∃ plan prepared state refreshed,
    compile (fun _ => zeroDigest) (.run 0 twoChains) twoLanes = .ok plan ∧
    prepareInternal (fun _ => zeroDigest) smallDevice smallPool (fun size _ => size) plan
      (boundAt 65536) pointerKernels 3 defaultBoundary false = .ok prepared ∧
    prepared.refreshBindings (fun _ => zeroDigest) plan (boundAt 131072) pointerKernels =
      .ok (state, refreshed) ∧
    ∀ phase, ∀ lane < 2, ∀ index, ∀ d ∈ plan.dispatches,
      nodeAt prepared.phaseNodes phase lane index = some d.node →
        ∃ bytes, kernargImage (boundAt 131072) d.launch = .ok bytes ∧
          kernargAt refreshed.graph phase lane index = some bytes := by
  refine ⟨_, _, _, _, rfl, rfl, rfl, (refreshBindings_iff (fun _ => zeroDigest) 0 twoChains twoLanes _
    smallDevice smallPool (fun size _ => size) (boundAt 65536) (boundAt 131072)
    pointerKernels 3 defaultBoundary false _ _ _ rfl rfl rfl).1.mpr
      (imagesAgree_of_recording_order ?_)⟩
  intro i d hi
  rcases i with _ | _ | _ | _ | i <;> cases hi <;> rfl

end Hipscope.Redline.Aql
