import Hipscope.Redline.RecordedGraph
import Hipscope.Queue.Stages

/-! Serialized two-queue token batches: every phase ends with one queue-local
consolidation packet per lane, and the next phase of both queues waits for both. -/
namespace Hipscope.Redline.Aql
open Queue

/-- One value for each of the two lanes. -/
structure TwoLanes (α : Type) where
  zero : α
  one : α
  deriving DecidableEq

def TwoLanes.get {α : Type} (l : TwoLanes α) : ℕ → α
  | 0 => l.zero
  | _ => l.one

abbrev TwoQueuePhase := TwoLanes (List RecordedDispatch)

/-- The first dispatch a phase lane cannot hold. -/
def phaseLaneError (lane : ℕ) (dispatches : List RecordedDispatch) : Option ReplayError :=
  if dispatches = [] then some (.emptyPhaseLane lane)
  else dispatches.findSome? fun dispatch =>
    if dispatch.lane ≠ lane then some (.phaseLaneMismatch lane dispatch.lane)
    else if dispatch.dependencies ≠ [] then some (.phaseHasExplicitDependencies lane)
    else none

def TwoQueuePhase.new (laneZero laneOne : List RecordedDispatch) : Except ReplayError TwoQueuePhase :=
  match (phaseLaneError 0 laneZero).or (phaseLaneError 1 laneOne) with
  | some error => .error error
  | none => .ok ⟨laneZero, laneOne⟩

def checkedAdd (a b : ℕ) : Option ℕ := if a + b < 2 ^ 64 then some (a + b) else none

def checkedMul (a b : ℕ) : Option ℕ := if a * b < 2 ^ 64 then some (a * b) else none

/-- Packets of one queue: dispatches, phase and token barriers, and the final
fan-in on queue zero. -/
def serializedLaneCount (phases : List (TwoLanes ℕ)) (tokenCount lane : ℕ) : Option ℕ := do
  let phaseBarriers ← checkedMul (phases.length - 1) tokenCount
  let dispatchesPerToken ← phases.foldlM (fun sum phase => checkedAdd sum (phase.get lane)) 0
  let count ← checkedMul dispatchesPerToken tokenCount
  let count ← checkedAdd count phaseBarriers
  let count ← checkedAdd count (tokenCount - 1)
  checkedAdd count (if lane = 0 then 1 else 0)

def twoQueueSerializedBatchCounts (phases : List (TwoLanes ℕ)) (tokenCount : ℕ) :
    Except ReplayError (TwoLanes ℕ) :=
  if tokenCount = 0 then .error .emptyTokenBatch
  else if phases = [] then .error .emptyPhaseSet
  else match serializedLaneCount phases tokenCount 0, serializedLaneCount phases tokenCount 1 with
    | some laneZero, some laneOne => .ok ⟨laneZero, laneOne⟩
    | _, _ => .error .batchShapeOverflow

def twoQueueSerializedSignalCount (phaseCount tokenCount : ℕ) : Except ReplayError ℕ :=
  if tokenCount = 0 then .error .emptyTokenBatch
  else match (do checkedAdd (← checkedMul (← checkedMul phaseCount tokenCount) 2) 1 : Option ℕ) with
    | some count => .ok count
    | none => .error .batchShapeOverflow

def requiredPacketCounts (phases : List TwoQueuePhase) (tokenCount : ℕ) :
    Except ReplayError (TwoLanes ℕ) :=
  if phases = [] then .error .emptyPhaseSet
  else twoQueueSerializedBatchCounts
    (phases.map fun phase => ⟨phase.zero.length, phase.one.length⟩) tokenCount

structure TwoQueueDerivedPolicies where
  firstDispatches : List (TwoLanes (List HeaderPolicy))
  repeatedDispatches : List (TwoLanes (List HeaderPolicy))
  consolidation : HeaderPolicy
  dependency : HeaderPolicy
  terminal : HeaderPolicy
  profileAllDispatches : Bool
  deriving DecidableEq

/-- The place of one dispatch packet in a batch. -/
structure Slot where
  token : ℕ
  phase : ℕ
  lane : ℕ
  index : ℕ
  deriving DecidableEq, Repr

/-- Tail signals per token, phase and lane, profiling signals (one per
profiled dispatch) and the host-polled final signal. -/
inductive BatchSignal where
  | tail (token phase lane : ℕ)
  | profiling (slot : Slot)
  | final
  deriving DecidableEq, Repr

abbrev BatchPackets := List (ℕ × Packet Slot BatchSignal)

def validateTwoQueuePhases (device : GpuDevice) (phases : List TwoQueuePhase) :
    Except ReplayError Unit :=
  match (phases.flatMap fun phase => phase.zero ++ phase.one).findSome? fun dispatch =>
      if dispatch.kernel.agent ≠ device.agent ∨ dispatch.kernarg.agent ≠ device.agent then
        some ReplayError.mixedGpuObjects
      else match device.validateGeometry dispatch.geometry with
        | .error error => some (.runtime error)
        | .ok () => none with
  | some error => .error error
  | none => .ok ()

/-- The first disagreement of a policy table with the phases. -/
def policyShapeError (label : String) (phases : List TwoQueuePhase)
    (dispatches : List (TwoLanes (List HeaderPolicy))) : Option ReplayError :=
  if dispatches.length ≠ phases.length then
    some (.policyShapeMismatch label none dispatches.length phases.length)
  else (phases.zip dispatches).zipIdx.findSome? fun ((phase, policies), phaseIndex) =>
    [0, 1].findSome? fun lane =>
      if (policies.get lane).length ≠ (phase.get lane).length then
        some (.policyShapeMismatch label (some (phaseIndex, lane)) (policies.get lane).length
          (phase.get lane).length)
      else none

def validateDerivedPolicyShape (phases : List TwoQueuePhase) (policies : TwoQueueDerivedPolicies) :
    Except ReplayError Unit :=
  match (policyShapeError "first-token" phases policies.firstDispatches).or
      (policyShapeError "repeated-token" phases policies.repeatedDispatches) with
  | some error => .error error
  | none => .ok ()

section Emit
variable (phases : List TwoQueuePhase) (policies : TwoQueueDerivedPolicies) (tokenCount : ℕ)

/-- The final dispatch on each lane is barriered and so covers its queue. -/
def coversBatch : Bool :=
  match policies.repeatedDispatches.getLast? with
  | none => false
  | some last => [0, 1].all fun lane => (last.get lane).getLast?.any HeaderPolicy.barrier

def isFirstProfile (slot : Slot) : Bool := slot.token = 0 ∧ slot.phase = 0 ∧ slot.index = 0

def isLastProfile (dispatchCount : ℕ) (slot : Slot) : Bool :=
  slot.token + 1 = tokenCount ∧ slot.phase + 1 = phases.length ∧ slot.index + 1 = dispatchCount

def profilingSignal (dispatchCount : ℕ) (slot : Slot) : Option BatchSignal :=
  if policies.profileAllDispatches then some (.profiling slot)
  else if coversBatch policies ∧ (isFirstProfile slot ∨ isLastProfile phases tokenCount dispatchCount slot)
    then some (.profiling slot)
  else none

def dispatchPacket (dispatchCount : ℕ) (slot : Slot) (dispatch : RecordedDispatch)
    (header : HeaderPolicy) : Except ReplayError (ℕ × Packet Slot BatchSignal) :=
  if isFirstProfile slot ∧ isLastProfile phases tokenCount dispatchCount slot then
    .error (.invalidBatchShape "derived profiling needs distinct first and last dispatches")
  else match Packet.newKernel dispatch.kernel.metadata dispatch.dynamicGroupBytes
      dispatch.kernarg.address slot (profilingSignal phases policies tokenCount dispatchCount slot)
      header with
    | .error error => .error (.packet error)
    | .ok packet => .ok (slot.lane, packet)

/-- Profiling signals to allocate; `none` when their number overflows. -/
def profilingCount : Option ℕ :=
  if policies.profileAllDispatches then
    checkedMul (phases.map fun phase => phase.zero.length + phase.one.length).sum tokenCount
  else some (if coversBatch policies then 4 else 0)

/-- Both queues wait for both tails of an earlier phase. -/
def joinPackets (token phase : ℕ) : BatchPackets :=
  [0, 1].map fun lane =>
    (lane, .barrierAnd policies.dependency [.tail token phase 0, .tail token phase 1] none)

/-- One lane of one phase: its dispatches, then the consolidation packet. -/
def lanePackets (token phase lane : ℕ) (dispatches : List RecordedDispatch)
    (headers : List HeaderPolicy) : Except ReplayError BatchPackets := do
  let packets ← (dispatches.zip headers).zipIdx.mapM fun ((dispatch, header), index) =>
    dispatchPacket phases policies tokenCount dispatches.length ⟨token, phase, lane, index⟩ dispatch header
  return packets ++ [(lane, .barrierAnd policies.consolidation [] (some (.tail token phase lane)))]

def phasePackets (token phaseIndex : ℕ) (phase : TwoQueuePhase)
    (headers : TwoLanes (List HeaderPolicy)) : Except ReplayError BatchPackets := do
  let zero ← lanePackets phases policies tokenCount token phaseIndex 0 phase.zero headers.zero
  let one ← lanePackets phases policies tokenCount token phaseIndex 1 phase.one headers.one
  return (if phaseIndex ≠ 0 then joinPackets policies token (phaseIndex - 1) else []) ++ zero ++ one

def tokenPackets (token : ℕ) : Except ReplayError BatchPackets := do
  let headers := if token = 0 then policies.firstDispatches else policies.repeatedDispatches
  let packets ← (phases.zip headers).zipIdx.mapM fun ((phase, headers), phaseIndex) =>
    phasePackets phases policies tokenCount token phaseIndex phase headers
  return (if token ≠ 0 then joinPackets policies (token - 1) (phases.length - 1) else []) ++
    packets.flatten

def batchPackets : Except ReplayError BatchPackets := do
  let tokens ← (List.range tokenCount).mapM (tokenPackets phases policies tokenCount)
  return tokens.flatten ++ [(0, .barrierAnd policies.terminal
    [.tail (tokenCount - 1) (phases.length - 1) 0, .tail (tokenCount - 1) (phases.length - 1) 1]
    (some .final))]

end Emit

/-- The packets one queue receives, in order. -/
def queueBatch (packets : BatchPackets) (lane : ℕ) : List (Packet Slot BatchSignal) :=
  (packets.filter fun p => p.1 = lane).map Prod.snd

structure TwoQueueSerializedBatchGraph where
  phases : List TwoQueuePhase
  tokenCount : ℕ
  packets : BatchPackets
  packetCounts : TwoLanes ℕ
  signalCount : ℕ

/-- Add one consolidation per phase and token to both queues. -/
def derivedPacketCounts (phases : List TwoQueuePhase) (tokenCount : ℕ) :
    Except ReplayError (TwoLanes ℕ) := do
  let base ← requiredPacketCounts phases tokenCount
  match (do
    let extra ← checkedMul phases.length tokenCount
    return (⟨← checkedAdd base.zero extra, ← checkedAdd base.one extra⟩ : TwoLanes ℕ) : Option _) with
  | some counts => return counts
  | none => throw .batchShapeOverflow

/-- `capacity` is the size of each created queue. -/
def createDerived (device : GpuDevice) (capacity : ℕ → ℕ) (tokenCount : ℕ)
    (phases : List TwoQueuePhase) (policies : TwoQueueDerivedPolicies) :
    Except ReplayError TwoQueueSerializedBatchGraph := do
  if phases = [] then throw .emptyPhaseSet
  else if tokenCount = 0 then throw .emptyTokenBatch
  else
    validateTwoQueuePhases device phases
    validateDerivedPolicyShape phases policies
    let packetCounts ← derivedPacketCounts phases tokenCount
    let signalCount ← twoQueueSerializedSignalCount phases.length tokenCount
    if profilingCount phases policies tokenCount = none then throw .batchShapeOverflow
    else
      let packets ← batchPackets phases policies tokenCount
      match [0, 1].find? fun lane => (queueBatch packets lane).length > capacity lane with
      | some lane => throw (.batchExceedsQueue lane (queueBatch packets lane).length (capacity lane))
      | none => return ⟨phases, tokenCount, packets, packetCounts, signalCount⟩

end Hipscope.Redline.Aql
