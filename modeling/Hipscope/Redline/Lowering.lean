import Hipscope.Redline.Batch
import Hipscope.Redline.Plan
import Hipscope.Redline.Visibility
import Hipscope.Redline.VisibilityOrder

/-! Lowering of a compiled two-lane plan: dependency levels become phases,
arguments become kernarg bytes and derived visibility becomes packet headers. -/
namespace Hipscope.Redline.Aql
open Visibility

inductive GenericAqlError where
  | emptyKernelKey
  | kernelAlreadyRegistered (kernel : String)
  | kernelNotRegistered (kernel : String)
  | missingKernargAbi (kernel : String)
  | missingArtifactIdentity (kernel : String)
  | registeredAbiChanged (kernel : String)
  | artifactIdentityChanged (kernel : String)
  | loaderAbiMismatch (kernel : String) (loaderSize loaderAlignment recordedSize recordedAlignment : ℕ)
  | unsupportedLaneCount (lanes : ℕ)
  | unsupportedReplayMode (mode : ReplayMode)
  | emptyPlan
  | emptyTokenBatch
  | emptyPhaseLane (phase : ℕ)
  | blockDimensionTooLarge (axis : ℕ)
  | kernargAbi (error : KernargAbiError)
  | kernargBufferSize (expected actual : ℕ)
  | resourceArgumentOutOfBounds (resource offset bound : ℕ)
  | resourcePointerOverflow (resource : ℕ)
  | queueSizeOverflow
  | queueCapacity (required maximum : ℕ)
  | visibilityNodeMissing (node : ℕ)
  | missingLaneConsolidation
  | bindings (error : ReplayBindingError)
  | runtime (error : RuntimeError)
  | replay (error : ReplayError)
  | visibility (error : VisibilityError)
  | invalidated (error : PreparedPlanInvalidation)
  deriving DecidableEq

/-- A loaded kernel with the identities recorded for it. -/
structure AqlKernelBinding where
  kernel : Kernel
  abi : KernargAbi
  identity : KernelArtifactIdentity
  deriving DecidableEq

structure AqlKernelCatalog where
  entries : String → Option AqlKernelBinding
  identities : ArtifactCatalog

namespace AqlKernelCatalog

def new : AqlKernelCatalog := ⟨fun _ => none, ⟨fun _ => none⟩⟩

def register (catalog : AqlKernelCatalog) (key : String) (kernel : Kernel) (abi : KernargAbi)
    (identity : KernelArtifactIdentity) : Except GenericAqlError AqlKernelCatalog :=
  if trimIsEmpty key then .error .emptyKernelKey
  else if kernel.metadata.kernargSegmentSize ≠ abi.segmentSize ∨
      kernel.metadata.kernargSegmentAlignment ≠ abi.segmentAlignment then
    .error (.loaderAbiMismatch key kernel.metadata.kernargSegmentSize
      kernel.metadata.kernargSegmentAlignment abi.segmentSize abi.segmentAlignment)
  else if (catalog.entries key).isSome then .error (.kernelAlreadyRegistered key)
  else match catalog.identities.insert key identity with
    | .error _ => .error .emptyKernelKey
    | .ok identities => .ok ⟨Function.update catalog.entries key (some ⟨kernel, abi, identity⟩), identities⟩

end AqlKernelCatalog

/-- Kernarg memory; `allocate` answers the runtime's n-th request for a size. -/
structure KernargPool where
  agent : ℕ
  granule : ℕ
  alignment : ℕ
  allocate : ℕ → ℕ → Except RuntimeError ℕ

namespace KernargPool

def allocateBytes (pool : KernargPool) (request length requiredAlignment : ℕ) :
    Except RuntimeError KernargBuffer :=
  if ¬ isPowerOfTwo requiredAlignment then .error (.invalidKernargAlignment requiredAlignment)
  else if length = 0 then .ok ⟨pool.agent, 0, []⟩
  else if length + (pool.granule - 1) ≥ 2 ^ 64 then .error (.kernargSizeOverflow length)
  else match pool.allocate request ((length + (pool.granule - 1)) / pool.granule * pool.granule) with
    | .error error => .error error
    | .ok address =>
      if address = 0 then .error (.invalidRuntimeObject "memory-pool allocation returned null")
      else if address % requiredAlignment ≠ 0 ∨ address % pool.alignment ≠ 0 then
        .error (.kernargAlignmentNotMet (max requiredAlignment pool.alignment) address)
      else .ok ⟨pool.agent, address, List.replicate length 0⟩

def allocateFor (pool : KernargPool) (request : ℕ) (metadata : KernelMetadata) :
    Except RuntimeError KernargBuffer :=
  pool.allocateBytes request metadata.kernargSegmentSize (max metadata.kernargSegmentAlignment 16)

end KernargPool

section Kernarg

def argumentValue (bindings : ReplayBindings) : KernelArg → Except GenericAqlError (List UInt8)
  | .scalar value => .ok value
  | .scalarSlot slot size =>
    match bindings.scalar slot with
    | none => .error (.bindings (.scalarNotBound slot))
    | some value =>
      if value.length ≠ size then .error (.bindings (.scalarSize slot size value.length))
      else .ok value
  | .resource resource byteOffset =>
    match bindings.resource resource with
    | none => .error (.bindings (.resourceNotBound resource))
    | some binding =>
      if byteOffset ≥ binding.size then
        .error (.resourceArgumentOutOfBounds resource.index byteOffset binding.size)
      else if binding.base + byteOffset ≥ 2 ^ 64 then .error (.resourcePointerOverflow resource.index)
      else .ok (toLeBytes 8 (binding.base + byteOffset))

/-- `copy_from_slice` into a range of the buffer. -/
def writeAt (bytes : List UInt8) (start : ℕ) (value : List UInt8) : List UInt8 :=
  bytes.take start ++ value ++ bytes.drop (start + value.length)

/-- Every argument at its field's offset, over zeroed bytes. -/
def packFields (arguments : List KernelArg) (abi : KernargAbi) (bindings : ReplayBindings)
    (length : ℕ) : Except GenericAqlError (List UInt8) :=
  (arguments.zip abi.fields).foldlM (fun bytes (argument, field) => do
    let value ← argumentValue bindings argument
    return writeAt bytes field.offset value) (List.replicate length 0)

def packKernarg (arguments : List KernelArg) (abi : KernargAbi) (bindings : ReplayBindings)
    (output : KernargBuffer) : Except GenericAqlError KernargBuffer :=
  match abi.validateArguments arguments with
  | .error error => .error (.kernargAbi error)
  | .ok () =>
    if output.bytes.length ≠ abi.segmentSize then
      .error (.kernargBufferSize abi.segmentSize output.bytes.length)
    else do
      let bytes ← packFields arguments abi bindings output.bytes.length
      return { output with bytes }

end Kernarg

section Levels

structure Levels where
  level : NodeId → ℕ
  max : ℕ

/-- One past the deepest dependency. -/
def levelOf (level : NodeId → ℕ) (dispatch : PlannedDispatch) : ℕ :=
  (dispatch.dependencies.map fun dependency => level dependency + 1).foldl max 0

def Levels.visit (s : Levels) (dispatch : PlannedDispatch) : Levels :=
  ⟨Function.update s.level dispatch.node (levelOf s.level dispatch),
    Nat.max s.max (levelOf s.level dispatch)⟩

def levels (dispatches : List PlannedDispatch) : Levels :=
  dispatches.foldl Levels.visit ⟨fun _ => 0, 0⟩

end Levels

section LowerPhases
variable (device : GpuDevice) (pool : KernargPool) (bindings : ReplayBindings)
  (kernels : AqlKernelCatalog)

def narrowBlock (block : Dim3) : Except GenericAqlError Dim3 :=
  match block.axes.zipIdx.find? fun x => x.1 ≥ 2 ^ 16 with
  | some (_, axis) => .error (.blockDimensionTooLarge axis)
  | none => .ok block

def dispatchGeometry (launch : KernelLaunch) : Except GenericAqlError LaunchGeometry := do
  let workgroup ← narrowBlock launch.block
  let geometry ← (LaunchGeometry.fromHipWorkgroups launch.grid workgroup).mapError
    fun error => .replay (.packet error)
  (device.validateGeometry geometry).mapError .runtime
  return geometry

/-- The registered kernel of a launch, if its recorded ABI and identity match. -/
def resolveKernel (launch : KernelLaunch) : Except GenericAqlError (AqlKernelBinding × KernargAbi) :=
  match kernels.entries launch.kernel with
  | none => .error (.kernelNotRegistered launch.kernel)
  | some registered =>
    match launch.kernargAbi with
    | none => .error (.missingKernargAbi launch.kernel)
    | some abi =>
      if abi ≠ registered.abi then .error (.registeredAbiChanged launch.kernel)
      else match launch.artifactIdentity with
        | none => .error (.missingArtifactIdentity launch.kernel)
        | some identity =>
          if identity ≠ registered.identity then .error (.artifactIdentityChanged launch.kernel)
          else .ok (registered, abi)

def lowerDispatch (request : ℕ) (dispatch : PlannedDispatch) :
    Except GenericAqlError RecordedDispatch := do
  let (registered, abi) ← resolveKernel kernels dispatch.launch
  let buffer ← (pool.allocateFor request registered.kernel.metadata).mapError .runtime
  let kernarg ← packKernarg dispatch.launch.arguments abi bindings buffer
  let geometry ← dispatchGeometry device dispatch.launch
  let recorded ← (RecordedDispatch.new dispatch.lane registered.kernel geometry kernarg).mapError .replay
  return { recorded with dynamicGroupBytes := dispatch.launch.dynamicSharedBytes }

def onLane {α : Type} (levels : Levels) (phase lane : ℕ) (l : List (PlannedDispatch × α)) :
    List (PlannedDispatch × α) :=
  l.filter fun x => levels.level x.1.node = phase ∧ x.1.lane = lane

def lowerPhase (levels : Levels) (lowered : List (PlannedDispatch × RecordedDispatch)) (phase : ℕ) :
    Except GenericAqlError TwoQueuePhase :=
  let laneZero := (onLane levels phase 0 lowered).map Prod.snd
  let laneOne := (onLane levels phase 1 lowered).map Prod.snd
  if laneZero = [] ∨ laneOne = [] then .error (.emptyPhaseLane phase)
  else (TwoQueuePhase.new laneZero laneOne).mapError .replay

def phaseNodes (levels : Levels) (lowered : List (PlannedDispatch × RecordedDispatch)) (phase : ℕ) :
    TwoLanes (List NodeId) :=
  ⟨(onLane levels phase 0 lowered).map fun x => x.1.node,
    (onLane levels phase 1 lowered).map fun x => x.1.node⟩

def lowerPhases (plan : CompiledPlan) :
    Except GenericAqlError (List TwoQueuePhase × List (TwoLanes (List NodeId))) :=
  if plan.dispatches = [] then .error .emptyPlan
  else do
    let levels := levels plan.dispatches
    let lowered ← plan.dispatches.zipIdx.mapM fun (dispatch, request) => do
      let recorded ← lowerDispatch device pool bindings kernels request dispatch
      return (dispatch, recorded)
    let phases ← (List.range (levels.max + 1)).mapM (lowerPhase levels lowered)
    return (phases, (List.range (levels.max + 1)).map (phaseNodes levels lowered))

end LowerPhases
end Hipscope.Redline.Aql

/-! Levels along dependencies, and the places dispatches take in the phases. -/
namespace Hipscope.Redline.Aql
open Hipscope.Graph Visibility Hipscope.Lists

section Levels
variable {dispatches : List PlannedDispatch}

theorem level_lt_levelOf (level : NodeId → ℕ) {d : PlannedDispatch} {a : NodeId}
    (ha : a ∈ d.dependencies) : level a < levelOf level d :=
  le_foldl_max.2 _ (List.mem_map_of_mem (f := fun a => level a + 1) ha)

private theorem levelOf_congr {f g : NodeId → ℕ} {d : PlannedDispatch}
    (h : ∀ a ∈ d.dependencies, f a = g a) : levelOf f d = levelOf g d := by
  have hmap : (d.dependencies.map fun a => f a + 1) = d.dependencies.map fun a => g a + 1 :=
    List.map_congr_left fun a ha => by rw [h a ha]
  rw [levelOf, levelOf, hmap]

/-- Visited dispatches keep the level computed from their dependencies. -/
theorem levels_spec (hnodup : (dispatches.map PlannedDispatch.node).Nodup)
    (hearlier : ∀ before d after, dispatches = before ++ d :: after → ∀ a ∈ d.dependencies,
      a ∈ before.map PlannedDispatch.node) {d : PlannedDispatch} (hd : d ∈ dispatches) :
    (levels dispatches).level d.node = levelOf (levels dispatches).level d ∧
      (levels dispatches).level d.node ≤ (levels dispatches).max := by
  induction dispatches using List.reverseRecOn generalizing d with
  | nil => simp at hd
  | append_singleton l last ih =>
    have hl : ∀ before d after, l = before ++ d :: after → ∀ a ∈ d.dependencies,
        a ∈ before.map PlannedDispatch.node := by
      rintro before d after rfl
      exact hearlier before d (after ++ [last]) (by simp)
    rw [List.map_append, List.nodup_append] at hnodup
    obtain ⟨hnl, -, hdisj⟩ := hnodup
    have hfresh (a : NodeId) (ha : a ∈ l.map PlannedDispatch.node) : a ≠ last.node :=
      hdisj a ha last.node (by simp)
    have hfold : levels (l ++ [last]) = (levels l).visit last := List.foldl_append
    have hkeep (a : NodeId) (ha : a ∈ l.map PlannedDispatch.node) :
        (levels (l ++ [last])).level a = (levels l).level a := by
      rw [hfold]
      exact Function.update_of_ne (hfresh a ha) _ _
    rcases List.mem_append.mp hd with hd | hd
    · obtain ⟨hlevel, hmax⟩ := ih hnl hl hd
      have hdeps (a : NodeId) (ha : a ∈ d.dependencies) : a ∈ l.map PlannedDispatch.node := by
        obtain ⟨before, after, hsplit⟩ := List.append_of_mem hd
        have := hl before d after hsplit a ha
        rw [hsplit, List.map_append]
        exact List.mem_append_left _ this
      rw [levelOf_congr fun a ha => hkeep a (hdeps a ha), hkeep _ (List.mem_map_of_mem hd)]
      refine ⟨hlevel, hmax.trans ?_⟩
      rw [hfold]
      exact le_max_left _ _
    · obtain rfl := List.mem_singleton.mp hd
      have hdeps (a : NodeId) (ha : a ∈ d.dependencies) : a ∈ l.map PlannedDispatch.node :=
        hearlier l d [] rfl a ha
      have hself : (levels (l ++ [d])).level d.node = levelOf (levels l).level d := by
        rw [hfold]
        exact Function.update_self _ _ _
      rw [levelOf_congr fun a ha => hkeep a (hdeps a ha), hself, hfold]
      exact ⟨rfl, le_max_right _ _⟩

end Levels

section Plan
variable {plan : CompiledPlan} {r : Recorder}

theorem level_le_max (hv : r.Valid) (hs : plan.Schedules r) {d : PlannedDispatch}
    (hd : d ∈ plan.dispatches) :
    (levels plan.dispatches).level d.node ≤ (levels plan.dispatches).max :=
  (levels_spec (hs.nodes_nodup hv) hs.earlier hd).2

/-- Levels strictly increase along dependency paths. -/
theorem level_lt_of_path (hv : r.Valid) (hs : plan.Schedules r) {a b : NodeId}
    (h : Relation.TransGen (Edge r.edges) a b) :
    (levels plan.dispatches).level a < (levels plan.dispatches).level b := by
  have hedge (a b : NodeId) (hab : Edge r.edges a b) :
      (levels plan.dispatches).level a < (levels plan.dispatches).level b := by
    obtain ⟨d, hd, rfl⟩ := hs.dispatch_of_id (hv.edges_known _ _ hab).2
    rw [(levels_spec (hs.nodes_nodup hv) hs.earlier hd).1]
    exact level_lt_levelOf _ ((hs.dependencies d hd a).mpr hab)
  induction h with
  | single h => exact hedge _ _ h
  | tail _ h ih => exact ih.trans (hedge _ _ h)

/-- Two dispatches touch a common byte and one of them writes it. -/
def Conflicting (d e : PlannedDispatch) : Prop :=
  ∃ a ∈ d.accesses, ∃ b ∈ e.accesses, (∃ r i, a.region.Contains r i ∧ b.region.Contains r i) ∧
    (a.mode = .write ∨ b.mode = .write)

theorem Conflicting.exists_mem {d e : PlannedDispatch} (h : Conflicting d e) :
    ∃ c, c ∈ conflicts d e := by
  obtain ⟨a, ha, b, hb, hcommon, hmode⟩ := h
  obtain ⟨o, ho⟩ := DeviceRegion.intersection_isSome.mpr (DeviceRegion.overlaps_iff.mpr hcommon)
  obtain ⟨k, hk⟩ := hazardKind_isSome.mpr hmode
  exact ⟨(k, o), mem_conflicts.mpr ⟨a, ha, b, hb, ho, hk⟩⟩

theorem Conflicting.symm {d e : PlannedDispatch} (h : Conflicting d e) : Conflicting e d := by
  obtain ⟨a, ha, b, hb, ⟨r, i, hai, hbi⟩, hmode⟩ := h
  exact ⟨b, hb, a, ha, ⟨r, i, hbi, hai⟩, hmode.symm⟩

/-- Conflicting dispatches take increasing levels, in plan order. -/
theorem level_lt_of_conflict (hv : r.Valid) (hs : plan.Schedules r) (hfree : r.HazardFree)
    {d e : PlannedDispatch} (hsub : [d, e].Sublist plan.dispatches)
    (hc : Conflicting d e) :
    (levels plan.dispatches).level d.node < (levels plan.dispatches).level e.node := by
  obtain ⟨c, hc⟩ := hc.exists_mem
  have hpair := (conflicts_ordered hv hs hfree).sublist hsub
  exact level_lt_of_path hv hs ((List.pairwise_cons.mp hpair).1 e (by simp) c hc)

end Plan

section Places
variable {device : GpuDevice} {pool : KernargPool} {bindings : ReplayBindings}
  {kernels : AqlKernelCatalog} {plan : CompiledPlan}

/-- The dispatches of a plan with what they were lowered to, in plan order. -/
structure Lowered (device : GpuDevice) (pool : KernargPool) (bindings : ReplayBindings)
    (kernels : AqlKernelCatalog) (plan : CompiledPlan)
    (lowered : List (PlannedDispatch × RecordedDispatch)) : Prop where
  nonempty : plan.dispatches ≠ []
  dispatches : lowered.map Prod.fst = plan.dispatches
  recorded : ∀ x ∈ lowered, ∃ request, lowerDispatch device pool bindings kernels request x.1 = .ok x.2

def lanesOf (levels : Levels) (lowered : List (PlannedDispatch × RecordedDispatch)) (phase : ℕ) :
    TwoQueuePhase :=
  ⟨(onLane levels phase 0 lowered).map Prod.snd, (onLane levels phase 1 lowered).map Prod.snd⟩

private theorem lowerPhase_ok {levels : Levels} {lowered : List (PlannedDispatch × RecordedDispatch)}
    {phase : ℕ} {result : TwoQueuePhase} (h : lowerPhase levels lowered phase = .ok result) :
    result = lanesOf levels lowered phase ∧ ∀ lane < 2, onLane levels phase lane lowered ≠ [] := by
  simp only [lowerPhase, TwoQueuePhase.new] at h
  split at h
  · cases h
  rename_i hne
  rw [not_or, List.map_eq_nil_iff, List.map_eq_nil_iff] at hne
  split at h <;> cases h
  refine ⟨rfl, fun lane hl => ?_⟩
  obtain rfl | rfl : lane = 0 ∨ lane = 1 := by omega
  · exact hne.1
  · exact hne.2

theorem lowerPhases_ok {phases : List TwoQueuePhase} {nodes : List (TwoLanes (List NodeId))}
    (h : lowerPhases device pool bindings kernels plan = .ok (phases, nodes)) :
    ∃ lowered, Lowered device pool bindings kernels plan lowered ∧
      phases = (List.range ((levels plan.dispatches).max + 1)).map
        (lanesOf (levels plan.dispatches) lowered) ∧
      nodes = (List.range ((levels plan.dispatches).max + 1)).map
        (phaseNodes (levels plan.dispatches) lowered) ∧
      ∀ phase ≤ (levels plan.dispatches).max, ∀ lane < 2,
        onLane (levels plan.dispatches) phase lane lowered ≠ [] := by
  unfold lowerPhases at h
  split at h
  · cases h
  rename_i hne
  obtain ⟨lowered, hl, h⟩ := bind_ok h
  obtain ⟨ps, hps, h⟩ := bind_ok h
  cases h
  have hrow (x : PlannedDispatch × ℕ) (y : PlannedDispatch × RecordedDispatch)
      (hxy : (do
        let recorded ← lowerDispatch device pool bindings kernels x.2 x.1
        return (x.1, recorded) : Except GenericAqlError _) = .ok y) :
      x.1 = y.1 ∧ lowerDispatch device pool bindings kernels x.2 y.1 = .ok y.2 := by
    obtain ⟨recorded, hrec, hxy⟩ := bind_ok hxy
    cases hxy
    exact ⟨rfl, hrec⟩
  refine ⟨lowered, ⟨hne, ?_, fun y hy => ?_⟩, mapM_ok (fun a b hab => (lowerPhase_ok hab).1) hps, rfl,
    fun phase hphase => ?_⟩
  · have hall := (mapM_forall₂ hl).imp fun x y hxy => (hrow x y hxy).1
    rw [← List.zipIdx_map_fst 0 plan.dispatches]
    exact (List.forall₂_eq_eq_eq ▸ List.forall₂_map_right_iff.mpr
      (List.forall₂_map_left_iff.mpr hall)).symm
  · obtain ⟨i, hi⟩ := List.mem_iff_getElem?.mp hy
    obtain ⟨x, -, hx⟩ := mapM_getElem? hl hi
    exact ⟨x.2, (hrow x y hx).2⟩
  · have hlen : phase < phases.length := by
      rw [← (mapM_forall₂ hps).length_eq, List.length_range]
      omega
    obtain ⟨p, hp, hlow⟩ := mapM_getElem? hps (List.getElem?_eq_getElem hlen)
    rw [List.getElem?_range (by omega)] at hp
    cases hp
    exact (lowerPhase_ok hlow).2

end Places
end Hipscope.Redline.Aql
