import Hipscope.Redline.Packet

/-! An immutable DAG bound to several queues: cross-queue dependencies become
barrier-AND packets on the consumer's lane, terminal signals are folded on
queue zero into one final signal. -/
namespace Hipscope.Redline.Aql
open Queue Hipscope.Lists

structure GpuDevice where
  agent : ℕ
  workgroupMaxDim : Dim3
  gridMaxDim : Dim3
  workgroupMaxSize : ℕ
  gridMaxSize : ℕ
  queueMinSize : ℕ
  queueMaxSize : ℕ

inductive RuntimeError where
  | hsa (operation : String)
  | zeroQueues
  | invalidRuntimeObject (detail : String)
  | invalidKernargAlignment (alignment : ℕ)
  | kernargAlignmentNotMet (required address : ℕ)
  | kernargSizeOverflow (length : ℕ)
  | workgroupLimit (axis requested maximum : ℕ)
  | gridLimit (axis requested maximum : ℕ)
  | queueFault (lane : ℕ)
  | queueInactive (lane : ℕ)
  | queueCapacityTimeout (lane packets : ℕ)
  | signalTimeout
  | operationAndTeardown (operation teardown : RuntimeError)
  deriving DecidableEq

inductive ReplayError where
  | emptyGraph
  | runtime (error : RuntimeError)
  | packet (error : PacketError)
  | laneOutOfRange (node lane queueCount : ℕ)
  | mixedGpuObjects
  | dependencyNotEarlier (node dependency : ℕ)
  | duplicateDependency (node dependency : ℕ)
  | batchExceedsQueue (lane packets capacity : ℕ)
  | kernargMetadataMismatch (kernel : String) (metadataBytes bufferBytes : ℕ)
  | emptyPhaseLane (lane : ℕ)
  | phaseLaneMismatch (expected actual : ℕ)
  | phaseHasExplicitDependencies (lane : ℕ)
  | emptyPhaseSet
  | emptyTokenBatch
  | batchShapeOverflow
  | invalidBatchShape (detail : String)
  | policyShapeMismatch (label : String) (phase : Option (ℕ × ℕ)) (policies dispatches : ℕ)
  | alreadyInFlight
  | graphInactive
  deriving DecidableEq

def checkedProduct (values : List ℕ) : Option ℕ :=
  values.foldlM (fun total value => if total * value < 2 ^ 64 then some (total * value) else none) 1

def GpuDevice.axisError (device : GpuDevice) (geometry : LaunchGeometry) : Option RuntimeError :=
  ((geometry.workgroup.axes.zip device.workgroupMaxDim.axes).zip
    (geometry.gridWorkitems.axes.zip device.gridMaxDim.axes)).zipIdx.findSome?
      fun (((workgroup, workgroupMax), (grid, gridMax)), axis) =>
        if workgroup > workgroupMax then some (.workgroupLimit axis workgroup workgroupMax)
        else if grid > gridMax then some (.gridLimit axis grid gridMax)
        else none

def GpuDevice.validateGeometry (device : GpuDevice) (geometry : LaunchGeometry) :
    Except RuntimeError Unit :=
  match device.axisError geometry with
  | some error => .error error
  | none =>
    let workgroupTotal := geometry.workgroup.axes.prod
    if workgroupTotal > device.workgroupMaxSize then
      .error (.workgroupLimit 3 (min workgroupTotal (2 ^ 32 - 1)) device.workgroupMaxSize)
    else match checkedProduct geometry.gridWorkitems.axes with
      | none => .error (.gridLimit 3 u64Max device.gridMaxSize)
      | some gridTotal =>
        if gridTotal > device.gridMaxSize then .error (.gridLimit 3 gridTotal device.gridMaxSize)
        else .ok ()

structure Kernel where
  name : String
  agent : ℕ
  metadata : KernelMetadata
  deriving DecidableEq

/-- GPU-visible argument memory owned by one dispatch. -/
structure KernargBuffer where
  agent : ℕ
  address : ℕ
  bytes : List UInt8
  deriving DecidableEq

/-- One dispatch of the graph; dependencies are indices of earlier ones. -/
structure RecordedDispatch where
  lane : ℕ
  kernel : Kernel
  geometry : LaunchGeometry
  kernarg : KernargBuffer
  dynamicGroupBytes : ℕ
  dependencies : List ℕ
  deriving DecidableEq

def RecordedDispatch.words (recorded : RecordedDispatch) : KernelWords :=
  ⟨recorded.kernel.metadata.kernelObject, recorded.kernarg.address⟩

def RecordedDispatch.new (lane : ℕ) (kernel : Kernel) (geometry : LaunchGeometry)
    (kernarg : KernargBuffer) : Except ReplayError RecordedDispatch :=
  if kernarg.bytes.length ≠ kernel.metadata.kernargSegmentSize then
    .error (.kernargMetadataMismatch kernel.name kernel.metadata.kernargSegmentSize
      kernarg.bytes.length)
  else if kernarg.agent ≠ kernel.agent then .error .mixedGpuObjects
  else .ok ⟨lane, kernel, geometry, kernarg, 0, []⟩

/-- The first dependency that is not earlier or was named before. -/
def dependencyError (index : ℕ) : List ℕ → List ℕ → Option ReplayError
  | _, [] => none
  | unique, dependency :: rest =>
    if dependency ≥ index then some (.dependencyNotEarlier index dependency)
    else if dependency ∈ unique then some (.duplicateDependency index dependency)
    else dependencyError index (dependency :: unique) rest

def nodeError (device : GpuDevice) (queueCount index : ℕ) (node : RecordedDispatch) :
    Option ReplayError :=
  if node.lane ≥ queueCount then some (.laneOutOfRange index node.lane queueCount)
  else if node.kernel.agent ≠ device.agent ∨ node.kernarg.agent ≠ device.agent then
    some .mixedGpuObjects
  else match device.validateGeometry node.geometry with
    | .error error => some (.runtime error)
    | .ok () => dependencyError index [] node.dependencies

def validateNodes (device : GpuDevice) (queueCount : ℕ) (nodes : List RecordedDispatch) :
    Except ReplayError Unit :=
  if queueCount = 0 then .error (.runtime .zeroQueues)
  else match nodes.zipIdx.findSome? fun (node, index) => nodeError device queueCount index node with
    | some error => .error error
    | none => .ok ()

/-- The graph's completion signals. -/
inductive Signal where
  | node (index : ℕ)
  | final
  deriving DecidableEq, Repr

abbrev Packets := List (ℕ × Packet ℕ Signal)

/-- Barrier packets over the given signals on one lane. -/
def barrierChunks (lane : ℕ) (signals : List Signal) : Except PacketError Packets :=
  (chunks barrierDependencyCapacity signals).mapM fun chunk => do
    let barrier ← Packet.newBarrierAnd chunk none .crossQueueBarrier
    return (lane, barrier)

def nodePackets (index : ℕ) (recorded : RecordedDispatch) : Except PacketError Packets := do
  let barriers ← barrierChunks recorded.lane (recorded.dependencies.map .node)
  let packet ← Packet.newKernel recorded.kernel.metadata recorded.dynamicGroupBytes
    recorded.kernarg.address index (some (.node index)) .recordedDispatch
  return barriers ++ [(recorded.lane, packet)]

def terminals (nodes : List RecordedDispatch) : List ℕ :=
  (List.range nodes.length).filter fun index => !nodes.any fun node => index ∈ node.dependencies

def graphPackets (nodes : List RecordedDispatch) : Except PacketError Packets := do
  let dispatches ← nodes.zipIdx.mapM fun (recorded, index) => nodePackets index recorded
  let terminals ← barrierChunks 0 ((terminals nodes).map .node)
  let completion ← Packet.newBarrierAnd [] (some .final) .crossQueueBarrier
  return dispatches.flatten ++ terminals ++ [(0, completion)]

/-- The packets of one lane, as its queue receives them. -/
def batch (packets : Packets) (lane : ℕ) : List (Packet ℕ Signal) :=
  (packets.filter fun p => p.1 = lane).map Prod.snd

/-- A prepared graph; each lane's queue receives its own packets in order. -/
structure RecordedGraph where
  nodes : List RecordedDispatch
  terminalNodes : List ℕ
  packets : Packets

/-- `capacity` is the size of each created queue. -/
def RecordedGraph.create (device : GpuDevice) (queueCount : ℕ) (capacity : ℕ → ℕ)
    (nodes : List RecordedDispatch) : Except ReplayError RecordedGraph := do
  if nodes = [] then throw .emptyGraph
  else
    validateNodes device queueCount nodes
    let packets ← (graphPackets nodes).mapError .packet
    match (List.range queueCount).find? fun lane => (batch packets lane).length > capacity lane with
    | some lane => throw (.batchExceedsQueue lane (batch packets lane).length (capacity lane))
    | none => return ⟨nodes, terminals nodes, packets⟩

/-- The packets of one dispatch: its waits, then the kernel. -/
def recordedPackets (index : ℕ) (recorded : RecordedDispatch) : Packets :=
  waitPackets recorded.lane .crossQueueBarrier (recorded.dependencies.map .node) ++
    [(recorded.lane, .kernel index recorded.words .recordedDispatch (some (.node index)))]

def dispatchPackets (nodes : List RecordedDispatch) : Packets :=
  nodes.zipIdx.flatMap fun (recorded, index) => recordedPackets index recorded

def terminalPackets (nodes : List RecordedDispatch) : Packets :=
  waitPackets 0 .crossQueueBarrier ((terminals nodes).map .node) ++
    [(0, .barrierAnd .crossQueueBarrier [] (some .final))]

/-- A chunk never exceeds the capacity of a barrier packet. -/
private theorem barrierChunks_eq (lane : ℕ) (signals : List Signal) :
    barrierChunks lane signals = .ok (waitPackets lane .crossQueueBarrier signals) := by
  refine mapM_pure fun chunk hchunk => ?_
  have hlen := chunks_length (by decide) hchunk
  rw [Packet.newBarrierAnd, if_neg (by omega)]
  rfl

private theorem nodePackets_ok {index : ℕ} {recorded : RecordedDispatch} {packets : Packets}
    (h : nodePackets index recorded = .ok packets) : packets = recordedPackets index recorded := by
  simp only [nodePackets, barrierChunks_eq, bind, Except.bind] at h
  split at h
  · cases h
  · rename_i packet hk
    cases h
    rw [Packet.newKernel_ok hk, recordedPackets, RecordedDispatch.words]

private theorem graphPackets_ok {nodes : List RecordedDispatch} {packets : Packets}
    (h : graphPackets nodes = .ok packets) : packets = dispatchPackets nodes ++ terminalPackets nodes := by
  simp only [graphPackets, barrierChunks_eq, bind, Except.bind] at h
  split at h
  · cases h
  · rename_i dispatches hd
    have hmap := mapM_ok (g := fun x : RecordedDispatch × ℕ => recordedPackets x.2 x.1)
      (fun x ps hx => nodePackets_ok hx) hd
    cases h
    rw [hmap, dispatchPackets, terminalPackets, List.append_assoc, List.flatMap_def]

theorem create_ok {device : GpuDevice} {queueCount : ℕ} {capacity : ℕ → ℕ}
    {nodes : List RecordedDispatch} {graph : RecordedGraph}
    (h : RecordedGraph.create device queueCount capacity nodes = .ok graph) :
    validateNodes device queueCount nodes = .ok () ∧ graph.nodes = nodes ∧
      graph.packets = dispatchPackets nodes ++ terminalPackets nodes := by
  simp only [RecordedGraph.create, bind, Except.bind] at h
  split at h
  · cases h
  split at h
  · cases h
  rename_i hv
  split at h
  · cases h
  rename_i packets hp
  split at h
  · cases h
  · cases h
    refine ⟨hv, rfl, graphPackets_ok ?_⟩
    cases hg : graphPackets nodes with
    | error e => rw [hg] at hp; cases hp
    | ok ps => rw [hg] at hp; cases hp; rfl

/-- A kernel packet runs the code and the kernarg segment of the node whose
index it names, on that node's lane. -/
theorem kernel_mem_graphPackets {nodes : List RecordedDispatch} {lane index : ℕ} {words : KernelWords}
    {header : HeaderPolicy} {completion : Option Signal}
    (h : (lane, Packet.kernel index words header completion) ∈
      dispatchPackets nodes ++ terminalPackets nodes) :
    ∃ recorded, nodes[index]? = some recorded ∧ recorded.lane = lane ∧ recorded.words = words := by
  rcases List.mem_append.mp h with h | h
  · obtain ⟨⟨recorded, i⟩, hrow, h⟩ := List.mem_flatMap.mp h
    rcases List.mem_append.mp h with h | h
    · exact absurd h kernel_notMem_waitPackets
    · cases List.mem_singleton.mp h
      exact ⟨recorded, List.mk_mem_zipIdx_iff_getElem?.mp hrow, rfl, rfl⟩
  · rcases List.mem_append.mp h with h | h
    · exact absurd h kernel_notMem_waitPackets
    · cases List.mem_singleton.mp h

private theorem dependencyError_none {index : ℕ} {unique deps : List ℕ}
    (h : dependencyError index unique deps = none) : ∀ d ∈ deps, d < index := by
  induction deps generalizing unique with
  | nil => simp
  | cons d deps ih =>
    rw [dependencyError] at h
    split_ifs at h with hd hu
    intro e he
    rcases List.mem_cons.mp he with rfl | he
    · omega
    · exact ih h e he

/-- Accepted dependencies are earlier nodes. -/
theorem validateNodes_ok {device : GpuDevice} {queueCount : ℕ} {nodes : List RecordedDispatch}
    (h : validateNodes device queueCount nodes = .ok ()) {i : ℕ} {node : RecordedDispatch}
    (hi : nodes[i]? = some node) : ∀ d ∈ node.dependencies, d < i := by
  unfold validateNodes at h
  split_ifs at h
  split at h
  · cases h
  · rename_i hnone
    have he := List.findSome?_eq_none_iff.mp hnone (node, i) (List.mk_mem_zipIdx_iff_getElem?.mpr hi)
    simp only [nodeError] at he
    split_ifs at he
    split at he
    · cases he
    · exact dependencyError_none he

section Log
variable {nodes : List RecordedDispatch}

private theorem dispatchPackets_snoc (nodes : List RecordedDispatch) (recorded : RecordedDispatch) :
    dispatchPackets (nodes ++ [recorded]) =
      dispatchPackets nodes ++ recordedPackets nodes.length recorded := by
  simp [dispatchPackets, List.zipIdx_append]

private theorem publish_recorded (index : ℕ) (recorded : RecordedDispatch) :
    publish (recordedPackets index recorded) =
      publish (waitPackets recorded.lane .crossQueueBarrier (recorded.dependencies.map .node)) ++
        [⟨recorded.lane, none, .drain⟩, ⟨recorded.lane, some index, .launch (some (.node index, 0))⟩] := by
  rw [recordedPackets, publish_append]
  rfl

private theorem jobs_dispatchPackets (nodes : List RecordedDispatch) :
    jobs (publish (dispatchPackets nodes)) = List.range nodes.length := by
  induction nodes using List.reverseRecOn with
  | nil => rfl
  | append_singleton nodes recorded ih =>
    rw [dispatchPackets_snoc, publish_append, jobs_append, ih, publish_recorded, jobs_append,
      jobs_waitPackets, List.length_append, List.length_singleton, List.range_succ]
    rfl

private theorem writes_dispatchPackets (nodes : List RecordedDispatch) :
    writes (publish (dispatchPackets nodes)) =
      (List.range nodes.length).map fun i => (Signal.node i, 0) := by
  induction nodes using List.reverseRecOn with
  | nil => rfl
  | append_singleton nodes recorded ih =>
    rw [dispatchPackets_snoc, publish_append, writes_append, ih, publish_recorded, writes_append,
      writes_waitPackets, List.length_append, List.length_singleton, List.range_succ, List.map_append]
    rfl

private theorem publish_terminal (nodes : List RecordedDispatch) :
    publish (terminalPackets nodes) =
      publish (waitPackets 0 .crossQueueBarrier ((terminals nodes).map .node)) ++
        [⟨0, none, .drain⟩, ⟨0, none, .store .final 0⟩] := by
  rw [terminalPackets, publish_append]
  rfl

/-- The commands all queues execute. -/
def graphLog (nodes : List RecordedDispatch) : List (Entry ℕ (Option ℕ) Signal ℕ) :=
  publish (dispatchPackets nodes ++ terminalPackets nodes)

private theorem graphLog_eq (nodes : List RecordedDispatch) :
    graphLog nodes = publish (dispatchPackets nodes) ++ publish (terminalPackets nodes) :=
  publish_append _ _

private theorem graphLog_once (nodes : List RecordedDispatch) (i : ℕ) : Once (graphLog nodes) (some i) := by
  refine once_job ?_ i
  rw [graphLog_eq, jobs_append, jobs_dispatchPackets, publish_terminal, jobs_append, jobs_waitPackets]
  simpa [jobs] using List.nodup_range

private theorem graphLog_oneShot (nodes : List RecordedDispatch) : OneShot (graphLog nodes) := by
  have hw : writes (graphLog nodes) =
      ((List.range nodes.length).map fun i => (Signal.node i, 0)) ++ [(.final, 0)] := by
    rw [graphLog_eq, writes_append, writes_dispatchPackets, publish_terminal, writes_append,
      writes_waitPackets]
    rfl
  rw [OneShot, hw, List.map_append, List.map_map, List.nodup_append]
  refine ⟨List.nodup_range.map fun i j hij => Signal.node.inj hij, by simp, ?_⟩
  rintro a ha b hb rfl
  obtain ⟨i, -, rfl⟩ := List.mem_map.mp ha
  simp at hb

private theorem recorded_sublist {i : ℕ} {node : RecordedDispatch} (hi : nodes[i]? = some node) :
    (publish (recordedPackets i node)).Sublist (graphLog nodes) := by
  have hmem : (node, i) ∈ nodes.zipIdx := List.mk_mem_zipIdx_iff_getElem?.mpr hi
  have hsub : (recordedPackets i node).Sublist (dispatchPackets nodes) := by
    rw [dispatchPackets, List.flatMap_def]
    exact List.sublist_flatten_of_mem (List.mem_map_of_mem (f := fun x : RecordedDispatch × ℕ =>
      recordedPackets x.2 x.1) hmem)
  rw [graphLog_eq]
  exact (hsub.flatMap _).trans (List.sublist_append_left _ _)

private theorem launch_mem_graphLog {i : ℕ} {node : RecordedDispatch} (hi : nodes[i]? = some node) :
    (⟨node.lane, some i, .launch (some (.node i, 0))⟩ : Entry ℕ (Option ℕ) Signal ℕ) ∈
      graphLog nodes := by
  refine (recorded_sublist hi).subset ?_
  simp [publish_recorded]

private theorem node_guard {i : ℕ} {node : RecordedDispatch} (hi : nodes[i]? = some node) :
    Guards (graphLog nodes) (fun _ => 1) (.node i) 0 (some i) :=
  guards_of_completion (graphLog_oneShot nodes) (graphLog_once nodes i) (launch_mem_graphLog hi) rfl rfl
    (by decide)

/-- A node starts after each of its dependencies. -/
private theorem dependency_finishes {i d : ℕ} {node dep : RecordedDispatch} (hi : nodes[i]? = some node)
    (hd : nodes[d]? = some dep) (hdep : d ∈ node.dependencies) :
    FinishesBefore (graphLog nodes) (fun _ => 1) (some d) (some i) := by
  refine (node_guard hd).finishesBefore (graphLog_oneShot nodes) (graphLog_once nodes i)
    (w := ⟨node.lane, none, .await (.node d) 0⟩)
    (b := ⟨node.lane, some i, .launch (some (.node i, 0))⟩) ?_ rfl rfl (by decide) rfl
  refine List.Sublist.trans ?_ (recorded_sublist hi)
  rw [publish_recorded]
  refine (List.singleton_sublist.mpr (await_mem_waitPackets ?_)).append
    (List.singleton_sublist.mpr (by simp))
  exact List.mem_map_of_mem hdep

/-- The final signal guards every node: terminals directly, the others through
a later node that depends on them. -/
private theorem final_guard (hearlier : ∀ (i : ℕ) node, nodes[i]? = some node →
    ∀ d ∈ node.dependencies, d < i) {i : ℕ} (hi : i < nodes.length) :
    Guards (graphLog nodes) (fun _ => 1) .final 0 (some i) := by
  induction hn : nodes.length - i using Nat.strong_induction_on generalizing i with
  | _ n ih =>
    have hnode := List.getElem?_eq_getElem hi
    by_cases hterm : i ∈ terminals nodes
    · refine (node_guard hnode).pass (graphLog_oneShot nodes) (w := ⟨0, none, .await (.node i) 0⟩)
        (x := ⟨0, none, .store .final 0⟩) ?_ rfl rfl (by decide) rfl (by decide)
      rw [graphLog_eq, publish_terminal]
      refine List.Sublist.trans ?_ (List.sublist_append_right _ _)
      exact (List.singleton_sublist.mpr (await_mem_waitPackets (List.mem_map_of_mem hterm))).append
        (List.singleton_sublist.mpr (by simp))
    · have hany : nodes.any (fun node => i ∈ node.dependencies) = true := by
        simpa [terminals, hi] using hterm
      obtain ⟨node, hmem, hdep⟩ := List.any_eq_true.mp hany
      obtain ⟨j, hj⟩ := List.mem_iff_getElem?.mp hmem
      have hdep : i ∈ node.dependencies := by simpa using hdep
      have hij := hearlier j node hj i hdep
      have hjl : j < nodes.length := (List.getElem?_eq_some_iff.mp hj).1
      refine (ih (nodes.length - j) (by omega) hjl rfl).of_finishesBefore
        ⟨_, launch_mem_graphLog hj, rfl⟩ (dependency_finishes hj hnode hdep)

private theorem graphLog_justified (hearlier : ∀ (i : ℕ) node, nodes[i]? = some node →
    ∀ d ∈ node.dependencies, d < i) : Justified [] (graphLog nodes) := by
  rw [graphLog_eq]
  refine justified_append ?_ ?_
  · induction nodes using List.reverseRecOn with
    | nil => trivial
    | append_singleton nodes recorded ih =>
      rw [dispatchPackets_snoc, publish_append]
      refine justified_append (ih fun i node hi => hearlier i node ?_) ?_
      · rw [List.getElem?_append_left (List.getElem?_eq_some_iff.mp hi).1]
        exact hi
      · rw [publish_recorded, writes_dispatchPackets]
        refine justified_append (justified_waitPackets fun s hs => ?_)
          (justified_of_awaits_seen fun e he c v hc => ?_)
        · obtain ⟨d, hd, rfl⟩ := List.mem_map.mp hs
          have hlt := hearlier nodes.length recorded (by simp) d hd
          simpa using hlt
        · simp only [List.mem_cons, List.not_mem_nil, or_false] at he
          rcases he with rfl | rfl <;> cases hc
  · rw [publish_terminal, writes_dispatchPackets]
    refine justified_append (justified_waitPackets fun s hs => ?_)
      (justified_of_awaits_seen fun e he c v hc => ?_)
    · obtain ⟨t, ht, rfl⟩ := List.mem_map.mp hs
      have hlt : t < nodes.length := by simpa using (List.mem_filter.mp ht).1
      simpa using hlt
    · simp only [List.mem_cons, List.not_mem_nil, or_false] at he
      rcases he with rfl | rfl <;> cases hc

/-- A stuck state has fired the final signal. -/
private theorem stuck_final (hearlier : ∀ (i : ℕ) node, nodes[i]? = some node →
    ∀ d ∈ node.dependencies, d < i) {s : State Signal ℕ}
    (hs : Reachable (graphLog nodes) (fun _ => 1) s) (hstuck : Stuck (graphLog nodes) s) :
    s.mem .final = 0 := by
  have hmem : (⟨0, none, .store .final 0⟩ : Entry ℕ (Option ℕ) Signal ℕ) ∈ graphLog nodes := by
    simp [graphLog_eq, publish_terminal]
  obtain ⟨k, hk⟩ := List.mem_iff_getElem?.mp hmem
  have hset := hstuck.all_settled hs (graphLog_justified hearlier) (graphLog_oneShot nodes) hk
  exact hs.mem_of_settled hk rfl
    (fun j d w hd hw => (graphLog_oneShot nodes).sole hd hk hw rfl) hset

end Log

/-- Every accepted graph, in every execution of its queues: dependencies finish
before their dependents start, the final signal fires after every node, and
nothing gets stuck before it; the packet of a node runs the node's kernel. -/
theorem create_ordered_deadlockFree (device : GpuDevice) (queueCount : ℕ) (capacity : ℕ → ℕ)
    (nodes : List RecordedDispatch) (graph : RecordedGraph)
    (h : RecordedGraph.create device queueCount capacity nodes = .ok graph) :
    graph.nodes = nodes ∧ jobs (publish graph.packets) = List.range nodes.length ∧
    (∀ (i : ℕ) node, nodes[i]? = some node → ∀ d ∈ node.dependencies,
      FinishesBefore (publish graph.packets) (fun _ => 1) (some d) (some i)) ∧
    (∀ i < nodes.length, Guards (publish graph.packets) (fun _ => 1) .final 0 (some i)) ∧
    (∀ s, Reachable (publish graph.packets) (fun _ => 1) s → Stuck (publish graph.packets) s →
      s.mem .final = 0) ∧
    ∀ lane i words header completion, (lane, .kernel i words header completion) ∈ graph.packets →
      ∃ node, nodes[i]? = some node ∧ node.lane = lane ∧ node.words = words := by
  obtain ⟨hv, hnodes, hpackets⟩ := create_ok h
  have hearlier (i : ℕ) (node : RecordedDispatch) (hi : nodes[i]? = some node) :=
    validateNodes_ok hv hi
  have hlog : publish graph.packets = graphLog nodes := by rw [hpackets, graphLog]
  rw [hlog]
  refine ⟨hnodes, ?_, fun i node hi d hd => ?_, fun i hi => final_guard hearlier hi,
    fun s hs hstuck => stuck_final hearlier hs hstuck,
    fun lane i words header completion hp => kernel_mem_graphPackets (hpackets ▸ hp)⟩
  · rw [graphLog_eq, jobs_append, jobs_dispatchPackets, publish_terminal, jobs_append, jobs_waitPackets]
    simp [jobs]
  · have hlt := hearlier i node hi d hd
    have hdl : d < nodes.length := hlt.trans (List.getElem?_eq_some_iff.mp hi).1
    exact dependency_finishes hi (List.getElem?_eq_getElem hdl) hd

def smallDevice : GpuDevice := ⟨7, ⟨1024, 1024, 1024⟩, ⟨65536, 65536, 65536⟩, 1024, 65536, 16, 1024⟩

def smallDispatch (lane : ℕ) (dependencies : List ℕ) : RecordedDispatch :=
  ⟨lane, ⟨"copy", 7, ⟨1, 0, 16, 0, 0, false⟩⟩, ⟨⟨64, 1, 1⟩, ⟨64, 1, 1⟩, 3⟩, ⟨7, 0, []⟩, 0, dependencies⟩

/-- Six roots on two lanes joined by one node: two barrier packets of fan-in. -/
def fanIn : List RecordedDispatch :=
  (List.range 6).map (fun i => smallDispatch (i % 2) []) ++ [smallDispatch 1 (List.range 6)]

theorem fanIn_ordered : ∃ graph, RecordedGraph.create smallDevice 2 (fun _ => 64) fanIn = .ok graph ∧
    FinishesBefore (publish graph.packets) (fun _ => 1) (some 5) (some 6) ∧
    Guards (publish graph.packets) (fun _ => 1) .final 0 (some 0) := by
  obtain ⟨-, -, hbefore, hfinal, -⟩ :=
    create_ordered_deadlockFree smallDevice 2 (fun _ => 64) fanIn _ rfl
  exact ⟨_, rfl, hbefore 6 _ rfl 5 (by decide), hfinal 0 (by decide)⟩

end Hipscope.Redline.Aql
