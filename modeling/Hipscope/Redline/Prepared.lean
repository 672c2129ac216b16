import Hipscope.Redline.Lowering

/-! Prepared plans: a compiled plan lowered onto two queues, and the refresh of
its kernarg buffers for new bindings. -/
namespace Hipscope.Redline

namespace CompiledPlan

/-- Some dispatch of the list declares a write that overlaps the region. -/
def overlapsWrite (dispatches : List PlannedDispatch) (region : DeviceRegion) : Bool :=
  dispatches.any fun dispatch => dispatch.accesses.any fun access =>
    access.mode = .write && access.region.overlaps region

/-- Some read can observe what the token before wrote. -/
def hasCrossTokenRaw (plan : CompiledPlan) : Bool :=
  plan.dispatches.zipIdx.any fun (dispatch, readIndex) => dispatch.accesses.any fun read =>
    read.mode = .read && !overlapsWrite (plan.dispatches.take readIndex) read.region &&
      overlapsWrite plan.dispatches read.region

end CompiledPlan

namespace Aql
open Visibility

section LowerPolicies

def VisibilityReason.isRawConsumer : VisibilityReason → Bool
  | .rawConsumer _ _ => true
  | _ => false

/-- Later tokens of a batch keep only the fences between their own dispatches. -/
def repeatedHeader (policy : DerivedDispatchPolicy) : HeaderPolicy where
  barrier := policy.header.barrier
  acquire := if policy.acquireReasons.any VisibilityReason.isRawConsumer then .agent else .none
  release := policy.header.release

def laneHeaders (visibility : DerivedVisibilityPlan) (header : DerivedDispatchPolicy → HeaderPolicy)
    (nodes : List NodeId) : Except GenericAqlError (List HeaderPolicy) :=
  nodes.mapM fun node =>
    match visibility.dispatches.find? fun policy => policy.node = node with
    | none => .error (.visibilityNodeMissing node.index)
    | some policy => .ok (header policy)

def phaseHeaders (visibility : DerivedVisibilityPlan) (header : DerivedDispatchPolicy → HeaderPolicy)
    (phase : TwoLanes (List NodeId)) : Except GenericAqlError (TwoLanes (List HeaderPolicy)) := do
  let zero ← laneHeaders visibility header phase.zero
  let one ← laneHeaders visibility header phase.one
  return ⟨zero, one⟩

def lowerPolicies (plan : CompiledPlan) (nodes : List (TwoLanes (List NodeId)))
    (visibility : DerivedVisibilityPlan) : Except GenericAqlError TwoQueueDerivedPolicies := do
  let firstDispatches ← nodes.mapM (phaseHeaders visibility DerivedDispatchPolicy.header)
  let repeatedDispatches ← nodes.mapM (phaseHeaders visibility repeatedHeader)
  match visibility.laneConsolidations.head? with
  | none => throw .missingLaneConsolidation
  | some first =>
    let raw := plan.hasCrossTokenRaw
    return {
      firstDispatches
      repeatedDispatches
      consolidation := { first.header with release := if raw then .agent else first.header.release }
      dependency := { HeaderPolicy.twoQueueDependency with
        acquire := if raw then .agent else HeaderPolicy.twoQueueDependency.acquire }
      terminal := visibility.terminal.header
      profileAllDispatches := false }

end LowerPolicies

/-- The smallest power of two not below, if it fits 32 bits. -/
def checkedNextPowerOfTwo (n : ℕ) : Option ℕ :=
  ((List.range 32).map fun k => 2 ^ k).find? fun p => n ≤ p

def queueSizeFor (device : GpuDevice) (packetCounts : TwoLanes ℕ) : Except GenericAqlError ℕ :=
  let required := max packetCounts.zero packetCounts.one
  if required ≥ 2 ^ 32 then .error .queueSizeOverflow
  else match checkedNextPowerOfTwo (max required device.queueMinSize) with
    | none => .error .queueSizeOverflow
    | some requested =>
      if requested > device.queueMaxSize then .error (.queueCapacity required device.queueMaxSize)
      else .ok requested

structure PreparedAqlPlan where
  graph : TwoQueueSerializedBatchGraph
  stamp : PreparedPlanStamp
  phaseNodes : List (TwoLanes (List NodeId))
  visibility : DerivedVisibilityPlan

section Prepare
variable (sha256 : List UInt8 → Sha256Digest)

/-- Packets per queue, consolidations included. -/
def preparedPacketCounts (phases : List TwoQueuePhase) (tokenCount : ℕ) :
    Except GenericAqlError (TwoLanes ℕ) := do
  let base ← (requiredPacketCounts phases tokenCount).mapError .replay
  match (do
    let consolidations ← checkedMul phases.length tokenCount
    return (⟨← checkedAdd base.zero consolidations, ← checkedAdd base.one consolidations⟩ : TwoLanes ℕ) :
      Option _) with
  | some counts => return counts
  | none => throw .queueSizeOverflow

/-- `capacity` is the size of each queue created for a requested size. -/
def prepareInternal (device : GpuDevice) (pool : KernargPool) (capacity : ℕ → ℕ → ℕ)
    (plan : CompiledPlan) (bindings : ReplayBindings) (kernels : AqlKernelCatalog) (tokenCount : ℕ)
    (boundary : ApiBoundary) (profileAllDispatches : Bool) :
    Except GenericAqlError PreparedAqlPlan :=
  if plan.replayMode ≠ .tokenLatency then .error (.unsupportedReplayMode plan.replayMode)
  else if plan.laneCount.get ≠ 2 then .error (.unsupportedLaneCount plan.laneCount.get)
  else if tokenCount = 0 then .error .emptyTokenBatch
  else do
    (bindings.validate plan).mapError .bindings
    let (phases, nodes) ← lowerPhases device pool bindings kernels plan
    let visibility ← (deriveAqlVisibility plan boundary).mapError .visibility
    let policies ← lowerPolicies plan nodes visibility
    let packetCounts ← preparedPacketCounts phases tokenCount
    let queueSize ← queueSizeFor device packetCounts
    let graph ← (createDerived device (capacity queueSize) tokenCount phases
      { policies with profileAllDispatches }).mapError .replay
    let stamp ← (PreparedPlanStamp.capture sha256 plan bindings).mapError .bindings
    return ⟨graph, stamp, nodes, visibility⟩

def defaultBoundary : ApiBoundary := ⟨.hostToAql, .aqlToHost⟩

def prepare (device : GpuDevice) (pool : KernargPool) (capacity : ℕ → ℕ → ℕ) (plan : CompiledPlan)
    (bindings : ReplayBindings) (kernels : AqlKernelCatalog) (tokenCount : ℕ) :
    Except GenericAqlError PreparedAqlPlan :=
  prepareInternal sha256 device pool capacity plan bindings kernels tokenCount defaultBoundary false

end Prepare

section Refresh
variable (sha256 : List UInt8 → Sha256Digest)

/-- Apply a patch to every kernarg buffer, phase by phase and lane by lane. -/
def patchLane {E : Type} (patch : ℕ → KernargBuffer → Except E KernargBuffer)
    (dispatches : List RecordedDispatch) : Except E (List RecordedDispatch) :=
  dispatches.zipIdx.mapM fun (dispatch, index) => do
    let kernarg ← patch index dispatch.kernarg
    return { dispatch with kernarg }

def patchKernargs {E : Type} (patch : ℕ → ℕ → ℕ → KernargBuffer → Except E KernargBuffer)
    (graph : TwoQueueSerializedBatchGraph) : Except E TwoQueueSerializedBatchGraph := do
  let phases ← graph.phases.zipIdx.mapM fun (phase, index) => do
    let zero ← patchLane (patch index 0) phase.zero
    let one ← patchLane (patch index 1) phase.one
    return (⟨zero, one⟩ : TwoQueuePhase)
  return { graph with phases }

def nodeAt (nodes : List (TwoLanes (List NodeId))) (phase lane index : ℕ) : Option NodeId :=
  nodes[phase]?.bind fun lanes => (lanes.get lane)[index]?

/-- Patch one buffer. The plan's dispatches are looked up by the node's
insertion index; the source panics where a lookup here fails. -/
def refreshKernarg (plan : CompiledPlan) (bindings : ReplayBindings) (node : Option NodeId)
    (kernarg : KernargBuffer) : Except GenericAqlError KernargBuffer :=
  match node.bind fun node => plan.dispatches[node.index]? with
  | none => .error .emptyPlan
  | some dispatch =>
    match dispatch.launch.kernargAbi with
    | none => .error (.missingKernargAbi dispatch.launch.kernel)
    | some abi => packKernarg dispatch.launch.arguments abi bindings kernarg

def PreparedAqlPlan.refreshBindings (prepared : PreparedAqlPlan) (plan : CompiledPlan)
    (bindings : ReplayBindings) (kernels : AqlKernelCatalog) :
    Except GenericAqlError (PreparedPlanState × PreparedAqlPlan) := do
  let state ← (prepared.stamp.validate sha256 plan bindings kernels.identities).mapError .invalidated
  let graph ← patchKernargs (fun phase lane index =>
    refreshKernarg plan bindings (nodeAt prepared.phaseNodes phase lane index)) prepared.graph
  let stamp ← (PreparedPlanStamp.capture sha256 plan bindings).mapError .bindings
  return (state, { prepared with graph, stamp })

end Refresh
end Aql
end Hipscope.Redline
