import Hipscope.Redline.Plan
import Hipscope.Redline.Packet

/-! Cache visibility and queue ordering derived from a compiled plan. -/
namespace Hipscope.Redline.Visibility

/-- API ownership immediately before an AQL plan begins. -/
inductive EntryBoundary where
  | hostToAql
  | hipToAql
  | aqlToAql
  deriving DecidableEq, Repr

/-- API ownership immediately after an AQL plan completes. -/
inductive ExitBoundary where
  | aqlToHost
  | aqlToHip
  | aqlToAql
  deriving DecidableEq, Repr

structure ApiBoundary where
  entry : EntryBoundary
  exit : ExitBoundary
  deriving DecidableEq, Repr

inductive VisibilityReason where
  | entry (boundary : EntryBoundary)
  | rawProducer (consumer : NodeId) (overlap : DeviceRegion)
  | rawConsumer (producer : NodeId) (overlap : DeviceRegion)
  | exit (boundary : ExitBoundary)
  deriving DecidableEq

inductive OrderReason where
  | orderedAfter (node : NodeId)
  | crossLaneDependency (node : NodeId)
  | memoryConflict (other : NodeId) (kind : HazardKind) (overlap : DeviceRegion)
  deriving DecidableEq

/-- Why a dispatch does or does not wait for the open epoch of its queue. -/
inductive BarrierDecision where
  | required (reasons : List OrderReason)
  | elided (adjacentPredecessor : Option NodeId) (independentOfOpenEpoch : List NodeId)
  deriving DecidableEq

structure DerivedDispatchPolicy where
  node : NodeId
  lane : ℕ
  header : HeaderPolicy
  barrier : BarrierDecision
  acquireReasons : List VisibilityReason
  releaseReasons : List VisibilityReason
  deriving DecidableEq

/-- The barriered, fence-free packet that ends a nonempty lane. -/
structure LaneConsolidationPolicy where
  lane : ℕ
  header : HeaderPolicy
  coveredNodes : List NodeId
  deriving DecidableEq

structure TerminalVisibilityPolicy where
  header : HeaderPolicy
  lanes : List ℕ
  reason : VisibilityReason
  deriving DecidableEq

structure DerivedVisibilityPlan where
  boundary : ApiBoundary
  dispatches : List DerivedDispatchPolicy
  laneConsolidations : List LaneConsolidationPolicy
  terminal : TerminalVisibilityPolicy
  deriving DecidableEq

inductive VisibilityError where
  | emptyPlan
  | unorderedConflict (first second : NodeId) (kind : HazardKind) (overlap : DeviceRegion)
  deriving DecidableEq

def entryScope : EntryBoundary → FenceScope
  | .hostToAql | .hipToAql => .system
  | .aqlToAql => .agent

def exitScope : ExitBoundary → FenceScope
  | .aqlToHost | .aqlToHip => .system
  | .aqlToAql => .agent

/-- Walk the plan backwards, adding each dispatch and its descendants to the
rows of its dependencies. -/
def reachability (dispatches : List PlannedDispatch) : NodeId → NodeId → Bool :=
  dispatches.foldr (fun dispatch reach => dispatch.dependencies.foldl (fun reach dependency =>
    Function.update reach dependency fun n =>
      (reach dependency n || n = dispatch.node) || reach dispatch.node n) reach) fun _ _ => false

def conflicts (first second : PlannedDispatch) : List (HazardKind × DeviceRegion) :=
  first.accesses.flatMap fun a => second.accesses.filterMap fun b =>
    (a.region.intersection b.region).bind fun overlap =>
      (hazardKind a.mode b.mode).map fun kind => (kind, overlap)

/-- The first conflict, in plan order, that no dependency path orders. -/
def firstUnordered (reach : NodeId → NodeId → Bool) : List PlannedDispatch → Option VisibilityError
  | [] => none
  | first :: rest => (rest.findSome? fun second =>
      if reach first.node second.node then none
      else (conflicts first second).head?.map fun c =>
        .unorderedConflict first.node second.node c.1 c.2).or (firstUnordered reach rest)

/-- Overlaps of a producer's writes with a reachable consumer's reads. -/
def rawOverlaps (reach : NodeId → NodeId → Bool) (first second : PlannedDispatch) :
    List DeviceRegion :=
  if reach first.node second.node then
    (conflicts first second).filterMap fun c => if c.1 = .readAfterWrite then some c.2 else none
  else []

def acquireReasons (reach : NodeId → NodeId → Bool) (before : List PlannedDispatch)
    (dispatch : PlannedDispatch) : List VisibilityReason :=
  before.flatMap fun first => (rawOverlaps reach first dispatch).map (.rawConsumer first.node)

def releaseReasons (reach : NodeId → NodeId → Bool) (dispatch : PlannedDispatch)
    (after : List PlannedDispatch) : List VisibilityReason :=
  after.flatMap fun second => (rawOverlaps reach dispatch second).map (.rawProducer second.node)

def pushUnique {α : Type} [DecidableEq α] (values : List α) (value : α) : List α :=
  if value ∈ values then values else values ++ [value]

def crossLaneReasons (laneByNode : NodeId → ℕ) (dispatch : PlannedDispatch) : List OrderReason :=
  dispatch.dependencies.filterMap fun dependency =>
    if laneByNode dependency ≠ dispatch.lane then some (.crossLaneDependency dependency) else none

def epochReasons (reach : NodeId → NodeId → Bool) (dispatch prior : PlannedDispatch) :
    List OrderReason :=
  (if reach prior.node dispatch.node then [.orderedAfter prior.node] else []) ++
    (conflicts prior dispatch).map fun c => .memoryConflict prior.node c.1 c.2

def orderReasons (reach : NodeId → NodeId → Bool) (laneByNode : NodeId → ℕ)
    (epoch : List PlannedDispatch) (dispatch : PlannedDispatch) : List OrderReason :=
  (crossLaneReasons laneByNode dispatch ++ epoch.flatMap (epochReasons reach dispatch)).foldl
    pushUnique []

/-- Per-lane bookkeeping: the open epoch, all nodes so far and the last one. -/
structure Lanes where
  epochs : ℕ → List PlannedDispatch
  nodes : ℕ → List NodeId
  previous : ℕ → Option NodeId

/-- The policy of one dispatch given the plan before and after it. -/
def derivePolicy (boundary : ApiBoundary) (reach : NodeId → NodeId → Bool) (laneByNode : NodeId → ℕ)
    (lanes : Lanes) (before : List PlannedDispatch) (dispatch : PlannedDispatch)
    (after : List PlannedDispatch) : DerivedDispatchPolicy :=
  let epoch := lanes.epochs dispatch.lane
  let order := orderReasons reach laneByNode epoch dispatch
  let raw := acquireReasons reach before dispatch
  let release := releaseReasons reach dispatch after
  let acquire := if raw = [] then .none else .agent
  let first := lanes.nodes dispatch.lane = []
  { node := dispatch.node
    lane := dispatch.lane
    header := {
      barrier := order ≠ []
      acquire := if first then maxScope acquire (entryScope boundary.entry) else acquire
      release := if release = [] then .none else .agent }
    barrier := if order = [] then .elided (lanes.previous dispatch.lane) (epoch.map PlannedDispatch.node)
      else .required order
    acquireReasons := if first then .entry boundary.entry :: raw else raw
    releaseReasons := release }

def Lanes.advance (lanes : Lanes) (dispatch : PlannedDispatch) (barrier : Bool) : Lanes where
  epochs := Function.update lanes.epochs dispatch.lane
    ((if barrier then [] else lanes.epochs dispatch.lane) ++ [dispatch])
  nodes := Function.update lanes.nodes dispatch.lane (lanes.nodes dispatch.lane ++ [dispatch.node])
  previous := Function.update lanes.previous dispatch.lane (some dispatch.node)

/-- The deriver's loop over the rest of the plan. -/
def derivePolicies (boundary : ApiBoundary) (reach : NodeId → NodeId → Bool)
    (laneByNode : NodeId → ℕ) :
    Lanes → List PlannedDispatch → List PlannedDispatch → Lanes × List DerivedDispatchPolicy
  | lanes, _, [] => (lanes, [])
  | lanes, before, dispatch :: after =>
    let policy := derivePolicy boundary reach laneByNode lanes before dispatch after
    let rest := derivePolicies boundary reach laneByNode
      (lanes.advance dispatch policy.header.barrier) (before ++ [dispatch]) after
    (rest.1, policy :: rest.2)

def laneByNode (dispatches : List PlannedDispatch) : NodeId → ℕ :=
  dispatches.foldl (fun lane dispatch => Function.update lane dispatch.node dispatch.lane) fun _ => 0

def emptyLanes : Lanes := ⟨fun _ => [], fun _ => [], fun _ => none⟩

def laneConsolidations (laneCount : ℕ) (lanes : Lanes) : List LaneConsolidationPolicy :=
  (List.range laneCount).filterMap fun lane =>
    if lanes.nodes lane = [] then none else some ⟨lane, ⟨true, .none, .none⟩, lanes.nodes lane⟩

def deriveAqlVisibility (plan : CompiledPlan) (boundary : ApiBoundary) :
    Except VisibilityError DerivedVisibilityPlan :=
  if plan.dispatches = [] then .error .emptyPlan
  else
    let reach := reachability plan.dispatches
    match firstUnordered reach plan.dispatches with
    | some error => .error error
    | none =>
      let derived := derivePolicies boundary reach (laneByNode plan.dispatches) emptyLanes []
        plan.dispatches
      let consolidations := laneConsolidations plan.laneCount.get derived.1
      .ok {
        boundary
        dispatches := derived.2
        laneConsolidations := consolidations
        terminal := {
          header := ⟨true, .none, exitScope boundary.exit⟩
          lanes := consolidations.map LaneConsolidationPolicy.lane
          reason := .exit boundary.exit } }

end Hipscope.Redline.Visibility
