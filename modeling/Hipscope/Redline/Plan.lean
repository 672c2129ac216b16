import Hipscope.Redline.Topology

/-! Compilation of a recorded DAG into a plan over deterministic lanes. -/
namespace Hipscope.Redline
open Hipscope.Graph

inductive ReplayMode where
  | tokenLatency
  | throughput (maxTokensInFlight : NonZeroUsize)
  deriving DecidableEq

structure CompileOptions where
  laneCount : NonZeroUsize
  replayMode : ReplayMode
  deriving DecidableEq

structure PlannedResource where
  id : ResourceId
  label : String
  size : ℕ
  deriving DecidableEq

structure PlannedDispatch where
  node : NodeId
  lane : ℕ
  launch : KernelLaunch
  accesses : List Access
  dependencies : List NodeId
  estimatedStart : ℕ
  estimatedEnd : ℕ
  deriving DecidableEq

/-- A validated DAG assigned to logical lanes. -/
structure CompiledPlan where
  resources : List PlannedResource
  dispatches : List PlannedDispatch
  terminals : List NodeId
  laneCount : NonZeroUsize
  replayMode : ReplayMode
  fingerprint : Sha256Digest
  deriving DecidableEq

/-- Scalar slot sizes and kernel identities seen so far. -/
structure Contracts where
  slots : ScalarSlotId → Option ℕ
  kernels : String → Option (Option Sha256Digest × Option KernelArtifactIdentity)

namespace Contracts

def argument (c : Contracts) : KernelArg → Except CompileError Contracts
  | .scalarSlot slot size =>
    let c' := { c with slots := Function.update c.slots slot (some size) }
    match c.slots slot with
    | some previous =>
      if previous ≠ size then .error (.conflictingScalarSlotSize slot previous size) else .ok c'
    | none => .ok c'
  | .scalar _ | .resource _ _ => .ok c

def validateAbi (launch : KernelLaunch) : Except CompileError Unit :=
  match launch.kernargAbi with
  | none => .ok ()
  | some abi => (abi.validateArguments launch.arguments).mapError (.invalidKernargAbi launch.kernel)

def identity (c : Contracts) (launch : KernelLaunch) : Except CompileError Contracts :=
  let identity := (launch.kernargAbi.map KernargAbi.hash, launch.artifactIdentity)
  if (c.kernels launch.kernel).any (· ≠ identity) then
    .error (.conflictingKernelIdentity launch.kernel)
  else .ok { c with kernels := Function.update c.kernels launch.kernel (some identity) }

def launch (c : Contracts) (launch : KernelLaunch) : Except CompileError Contracts := do
  validateAbi launch
  let c ← launch.arguments.foldlM argument c
  c.identity launch

end Contracts

def validateKernelContracts (r : Recorder) : Except CompileError Unit := do
  let _ ← r.nodes.foldlM (fun c node => c.launch node.launch) (⟨fun _ => none, fun _ => none⟩ : Contracts)

/-- The first element whose key is smallest. -/
def minBy {α : Type} (lt : α → α → Bool) : List α → Option α
  | [] => none
  | a :: l => some (l.foldl (fun best x => if lt x best then x else best) a)

/-- A dispatch's possible placement on one lane. -/
structure Placement where
  lane : ℕ
  start : ℕ
  finish : ℕ
  deriving DecidableEq

/-- Lexicographic order of `(end, start, lane)`. -/
def Placement.lt (a b : Placement) : Bool :=
  a.finish < b.finish || (a.finish = b.finish &&
    (a.start < b.start || (a.start = b.start && a.lane < b.lane)))

def choosePlacement (laneAvailable : List ℕ) (dependencyFinish work : ℕ) : Option Placement :=
  minBy Placement.lt (laneAvailable.zipIdx.map fun (available, lane) =>
    let start := max available dependencyFinish
    ⟨lane, start, saturatingAdd start work⟩)

structure Schedule where
  laneAvailable : List ℕ
  nodeFinish : NodeId → ℕ
  dispatches : List PlannedDispatch

/-- Place the next node of the order on the lane where it ends first. Node
identities index the recorded nodes and there is a lane, so both lookups succeed. -/
def Schedule.place (r : Recorder) (s : Schedule) (node : NodeId) : Schedule :=
  match r.nodes[node.index]? with
  | none => s
  | some entry =>
    let dependencies := predecessors r.edges node
    let dependencyFinish := (dependencies.map s.nodeFinish).foldl max 0
    match choosePlacement s.laneAvailable dependencyFinish entry.launch.estimatedWork.get with
    | none => s
    | some p =>
      { laneAvailable := s.laneAvailable.set p.lane p.finish
        nodeFinish := Function.update s.nodeFinish node p.finish
        dispatches := s.dispatches ++ [{
          node, lane := p.lane, launch := entry.launch, accesses := entry.accesses, dependencies
          estimatedStart := p.start, estimatedEnd := p.finish }] }

def schedule (r : Recorder) (order : List NodeId) (laneCount : ℕ) : Schedule :=
  order.foldl (Schedule.place r) ⟨List.replicate laneCount 0, fun _ => 0, []⟩

section Fingerprint

def putBytes (bytes : List UInt8) : List UInt8 := toLeBytes 8 bytes.length ++ bytes

def putDim3 (d : Dim3) : List UInt8 := toLeBytes 4 d.x ++ toLeBytes 4 d.y ++ toLeBytes 4 d.z

def putReplayMode : ReplayMode → List UInt8
  | .tokenLatency => [0]
  | .throughput maxTokensInFlight => 1 :: toLeBytes 8 maxTokensInFlight.get

def putArgument : KernelArg → List UInt8
  | .scalar bytes => 0 :: putBytes bytes
  | .scalarSlot slot size => 1 :: (toLeBytes 4 slot.index ++ toLeBytes 4 size)
  | .resource resource byteOffset => 2 :: (toLeBytes 4 resource.index ++ toLeBytes 8 byteOffset)

def putAccess (a : Access) : List UInt8 :=
  (match a.mode with
    | .read => 0
    | .write => 1) ::
    (toLeBytes 4 a.region.resource.index ++ toLeBytes 8 a.region.offset ++ toLeBytes 8 a.region.len)

def putDispatch (d : PlannedDispatch) : List UInt8 :=
  toLeBytes 4 d.node.index ++ toLeBytes 8 d.lane ++ putBytes d.launch.kernel.toUTF8.toList ++
    putDim3 d.launch.grid ++ putDim3 d.launch.block ++ toLeBytes 4 d.launch.dynamicSharedBytes ++
    toLeBytes 4 d.launch.estimatedWork.get ++
    (match d.launch.kernargAbi with
      | some abi => 1 :: abi.hash.bytes.toList
      | none => [0]) ++
    (match d.launch.artifactIdentity with
      | some identity => 1 :: (identity.codeObject.bytes.toList ++
          identity.symbolText.bytes.toList ++ toLeBytes 8 identity.generation)
      | none => [0]) ++
    toLeBytes 8 d.launch.arguments.length ++ d.launch.arguments.flatMap putArgument ++
    toLeBytes 8 d.accesses.length ++ d.accesses.flatMap putAccess ++
    toLeBytes 8 d.dependencies.length ++ d.dependencies.flatMap fun n => toLeBytes 4 n.index

/-- Bytes hashed into the plan's identity; recorder owners do not occur. -/
def fingerprintInput (plan : CompiledPlan) : List UInt8 :=
  "redline-compiled-plan-v1\x00".toUTF8.toList ++ toLeBytes 8 plan.laneCount.get ++
    putReplayMode plan.replayMode ++ toLeBytes 8 plan.resources.length ++
    (plan.resources.flatMap fun resource => toLeBytes 4 resource.id.index ++
      putBytes resource.label.toUTF8.toList ++ toLeBytes 8 resource.size) ++
    toLeBytes 8 plan.dispatches.length ++ plan.dispatches.flatMap putDispatch ++
    toLeBytes 8 plan.terminals.length ++ plan.terminals.flatMap fun n => toLeBytes 4 n.index

end Fingerprint

def terminalNodes (r : Recorder) : List NodeId :=
  (r.nodes.filter fun node => !r.edges.any fun e => e.1 = node.id).map Node.id

def compile (sha256 : List UInt8 → Sha256Digest) (r : Recorder) (options : CompileOptions) :
    Except CompileError CompiledPlan := do
  validateKernelContracts r
  let order ← r.topologicalOrder
  let hazards := unorderedHazards (r.reachability order) r.nodes
  if hazards ≠ [] then throw (.unorderedHazards hazards)
  else
    let plan : CompiledPlan := {
      resources := r.resources.zipIdx.map fun (resource, index) =>
        ⟨⟨r.owner, index⟩, resource.label, resource.size⟩
      dispatches := (schedule r order options.laneCount.get).dispatches
      terminals := terminalNodes r
      laneCount := options.laneCount
      replayMode := options.replayMode
      fingerprint := ⟨Vector.replicate 32 0⟩ }
    return { plan with fingerprint := sha256 (fingerprintInput plan) }

/-- What a plan promises about the recorder it was compiled from. -/
structure CompiledPlan.Schedules (plan : CompiledPlan) (r : Recorder) : Prop where
  perm : (plan.dispatches.map PlannedDispatch.node).Perm r.ids
  recorded : ∀ d ∈ plan.dispatches, ∃ n ∈ r.nodes, n.id = d.node ∧ d.launch = n.launch ∧
    d.accesses = n.accesses
  dependencies : ∀ d ∈ plan.dispatches, ∀ a, a ∈ d.dependencies ↔ Edge r.edges a d.node
  earlier : ∀ before d after, plan.dispatches = before ++ d :: after → ∀ a ∈ d.dependencies,
    a ∈ before.map PlannedDispatch.node
  lane_lt : ∀ d ∈ plan.dispatches, d.lane < plan.laneCount.get
  lanes_disjoint : plan.dispatches.Pairwise fun d e => d.lane = e.lane →
    d.estimatedEnd ≤ e.estimatedStart
  starts : ∀ d ∈ plan.dispatches, ∀ e ∈ plan.dispatches, e.node ∈ d.dependencies →
    e.estimatedEnd ≤ d.estimatedStart
  terminals : ∀ a, a ∈ plan.terminals ↔ a ∈ r.ids ∧ ∀ b, ¬ Edge r.edges a b
  terminals_nodup : plan.terminals.Nodup

end Hipscope.Redline

/-! Replay-time bindings of symbolic resources and scalar slots, and the stamp
that decides whether a prepared plan may still be used. -/
namespace Hipscope.Redline

section OrderedMap
variable {K V : Type} [DecidableEq K]

/-- Insertion into an ordered map kept as its ascending list of entries. -/
def mapInsert (lt : K → K → Bool) (k : K) (v : V) : List (K × V) → List (K × V)
  | [] => [(k, v)]
  | (k', v') :: l =>
    if k = k' then (k, v) :: l
    else if lt k k' then (k, v) :: (k', v') :: l
    else (k', v') :: mapInsert lt k v l

end OrderedMap

inductive AllocationPolicy where
  | hipCoarse
  | hsaCoarse
  | hsaFine
  | uncached
  | external
  deriving DecidableEq, Repr

def AllocationPolicy.tag : AllocationPolicy → UInt8
  | hipCoarse => 0
  | hsaCoarse => 1
  | hsaFine => 2
  | uncached => 3
  | external => 4

inductive ReplayBindingError where
  | nullResourcePointer
  | emptyResourceBinding
  | resourceAddressOverflow (size : ℕ)
  | resourceNotBound (resource : ResourceId)
  | resourceTooSmall (resource : ResourceId) (required bound : ℕ)
  | aliasingResources (first second : ResourceId)
  | scalarNotBound (slot : ScalarSlotId)
  | scalarSize (slot : ScalarSlotId) (expected actual : ℕ)
  deriving DecidableEq, Repr

/-- A live allocation that does not wrap around the address space. -/
structure ResourceBinding where
  base : ℕ
  size : ℕ
  revision : ℕ
  policy : AllocationPolicy
  nonnull : base ≠ 0
  nonempty : size ≠ 0
  fits : base + size < 2 ^ 64

def ResourceBinding.new (base size revision : ℕ) (policy : AllocationPolicy) :
    Except ReplayBindingError ResourceBinding :=
  if hb : base = 0 then .error .nullResourcePointer
  else if hs : size = 0 then .error .emptyResourceBinding
  else if hf : base + size < 2 ^ 64 then .ok ⟨base, size, revision, policy, hb, hs, hf⟩
  else .error (.resourceAddressOverflow size)

def ResourceBinding.overlaps (a b : ResourceBinding) : Bool :=
  a.base < b.base + b.size && b.base < a.base + a.size

structure ReplayBindings where
  resource : ResourceId → Option ResourceBinding
  scalar : ScalarSlotId → Option (List UInt8)

namespace ReplayBindings

def new : ReplayBindings := ⟨fun _ => none, fun _ => none⟩

def bindResource (b : ReplayBindings) (resource : ResourceId) (binding : ResourceBinding) :
    ReplayBindings :=
  { b with resource := Function.update b.resource resource (some binding) }

def bindScalar (b : ReplayBindings) (slot : ScalarSlotId) (bytes : List UInt8) : ReplayBindings :=
  { b with scalar := Function.update b.scalar slot (some bytes) }

end ReplayBindings

/-- Slot sizes of all launches, ascending; a later launch overwrites. -/
def CompiledPlan.scalarSlots (plan : CompiledPlan) : List (ScalarSlotId × ℕ) :=
  (plan.dispatches.flatMap fun d => d.launch.arguments).foldl (fun slots argument =>
    match argument with
    | .scalarSlot slot size => mapInsert (fun a b => a.index < b.index) slot size slots
    | .scalar _ | .resource _ _ => slots) []

/-- Kernel identities by name, ascending. -/
def CompiledPlan.artifactIdentities (plan : CompiledPlan) : List (String × KernelArtifactIdentity) :=
  plan.dispatches.foldl (fun artifacts d =>
    match d.launch.artifactIdentity with
    | some identity => mapInsert (fun a b => a < b) d.launch.kernel identity artifacts
    | none => artifacts) []

namespace ReplayBindings

def resourceError (b : ReplayBindings) (planned : PlannedResource) : Option ReplayBindingError :=
  match b.resource planned.id with
  | none => some (.resourceNotBound planned.id)
  | some binding =>
    if binding.size < planned.size then
      some (.resourceTooSmall planned.id planned.size binding.size)
    else none

def scalarError (b : ReplayBindings) (slot : ScalarSlotId × ℕ) : Option ReplayBindingError :=
  match b.scalar slot.1 with
  | none => some (.scalarNotBound slot.1)
  | some bytes => if bytes.length ≠ slot.2 then some (.scalarSize slot.1 slot.2 bytes.length) else none

/-- The first two resources, in plan order, bound to overlapping memory. -/
def aliasError (b : ReplayBindings) : List PlannedResource → Option ReplayBindingError
  | [] => none
  | first :: rest => (rest.findSome? fun second =>
      match b.resource first.id, b.resource second.id with
      | some x, some y => if x.overlaps y then some (.aliasingResources first.id second.id) else none
      | _, _ => none).or (b.aliasError rest)

def validate (b : ReplayBindings) (plan : CompiledPlan) : Except ReplayBindingError Unit :=
  match ((plan.resources.findSome? b.resourceError).or (plan.scalarSlots.findSome? b.scalarError)).or
      (b.aliasError plan.resources) with
  | some error => .error error
  | none => .ok ()

/-- Bytes hashed into the layout identity; every planned resource is bound here. -/
def layoutInput (b : ReplayBindings) (plan : CompiledPlan) : List UInt8 :=
  "redline-binding-layout-v1\x00".toUTF8.toList ++ toLeBytes 8 plan.resources.length ++
    (plan.resources.flatMap fun resource => toLeBytes 4 resource.id.index ++
      toLeBytes 8 resource.size ++ ((b.resource resource.id).map fun x => x.policy.tag).toList) ++
    plan.scalarSlots.flatMap fun slot => toLeBytes 4 slot.1.index ++ toLeBytes 4 slot.2

def layoutFingerprint (sha256 : List UInt8 → Sha256Digest) (b : ReplayBindings)
    (plan : CompiledPlan) : Except ReplayBindingError Sha256Digest := do
  b.validate plan
  return sha256 (b.layoutInput plan)

end ReplayBindings

/-- Current identities of the loaded kernels. -/
structure ArtifactCatalog where
  get : String → Option KernelArtifactIdentity

inductive ArtifactCatalogError where
  | emptyKernel
  deriving DecidableEq, Repr

def ArtifactCatalog.insert (c : ArtifactCatalog) (kernel : String)
    (identity : KernelArtifactIdentity) : Except ArtifactCatalogError ArtifactCatalog :=
  if trimIsEmpty kernel then .error .emptyKernel
  else .ok ⟨Function.update c.get kernel (some identity)⟩

inductive PreparedPlanState where
  | current
  | needsRebind (resources : List ResourceId)
  deriving DecidableEq, Repr

inductive PreparedPlanInvalidation where
  | planChanged (prepared current : Sha256Digest)
  | bindings (error : ReplayBindingError)
  | bindingLayoutChanged (prepared current : Sha256Digest)
  | artifactMissing (kernel : String)
  | artifactChanged (kernel : String) (prepared current : KernelArtifactIdentity)
  deriving DecidableEq

structure PreparedPlanStamp where
  plan : Sha256Digest
  bindingLayout : Sha256Digest
  resourceRevisions : ℕ → Option ℕ
  artifacts : List (String × KernelArtifactIdentity)

namespace PreparedPlanStamp

def revision (bindings : ReplayBindings) (resource : PlannedResource) : Option ℕ :=
  (bindings.resource resource.id).map ResourceBinding.revision

def capture (sha256 : List UInt8 → Sha256Digest) (plan : CompiledPlan) (bindings : ReplayBindings) :
    Except ReplayBindingError PreparedPlanStamp := do
  let bindingLayout ← bindings.layoutFingerprint sha256 plan
  return {
    plan := plan.fingerprint
    bindingLayout
    resourceRevisions := plan.resources.foldl (fun revisions resource =>
      Function.update revisions resource.id.index (revision bindings resource)) fun _ => none
    artifacts := plan.artifactIdentities }

def artifactError (artifacts : ArtifactCatalog) (kernel : String × KernelArtifactIdentity) :
    Option PreparedPlanInvalidation :=
  match artifacts.get kernel.1 with
  | none => some (.artifactMissing kernel.1)
  | some current =>
    if kernel.2 ≠ current then some (.artifactChanged kernel.1 kernel.2 current) else none

def validate (sha256 : List UInt8 → Sha256Digest) (stamp : PreparedPlanStamp) (plan : CompiledPlan)
    (bindings : ReplayBindings) (artifacts : ArtifactCatalog) :
    Except PreparedPlanInvalidation PreparedPlanState :=
  if stamp.plan ≠ plan.fingerprint then .error (.planChanged stamp.plan plan.fingerprint)
  else match bindings.layoutFingerprint sha256 plan with
    | .error error => .error (.bindings error)
    | .ok layout =>
      if stamp.bindingLayout ≠ layout then .error (.bindingLayoutChanged stamp.bindingLayout layout)
      else match stamp.artifacts.findSome? (artifactError artifacts) with
        | some error => .error error
        | none =>
          let changed := (plan.resources.filter fun resource =>
            stamp.resourceRevisions resource.id.index ≠ revision bindings resource).map PlannedResource.id
          if changed = [] then .ok .current else .ok (.needsRebind changed)

end PreparedPlanStamp
end Hipscope.Redline
