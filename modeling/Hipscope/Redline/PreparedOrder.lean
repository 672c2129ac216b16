import Hipscope.Redline.BatchCounts
import Hipscope.Redline.Lowering
import Hipscope.Redline.Prepared

/-! Executions of prepared plans: levels become phases, and the published
packets keep the plan's order. -/
namespace Hipscope.Redline.Aql
open Queue Hipscope.Graph Visibility

section Places
variable {plan : CompiledPlan} {lowered : List (PlannedDispatch × RecordedDispatch)}

theorem get_phaseNodes {L : Levels} {phase lane : ℕ} (hl : lane < 2) :
    (phaseNodes L lowered phase).get lane = (onLane L phase lane lowered).map fun x => x.1.node := by
  obtain rfl | rfl : lane = 0 ∨ lane = 1 := by omega
  · rfl
  · rfl

theorem get_lanesOf {L : Levels} {phase lane : ℕ} (hl : lane < 2) :
    (lanesOf L lowered phase).get lane = (onLane L phase lane lowered).map Prod.snd := by
  obtain rfl | rfl : lane = 0 ∨ lane = 1 := by omega
  · rfl
  · rfl

/-- The place table, read through the lowered dispatches. -/
theorem nodeAt_iff {L : Levels} {phase lane index : ℕ} (hl : lane < 2) {node : NodeId} :
    nodeAt ((List.range (L.max + 1)).map (phaseNodes L lowered)) phase lane index = some node ↔
      phase ≤ L.max ∧ ∃ x, (onLane L phase lane lowered)[index]? = some x ∧ x.1.node = node := by
  by_cases hp : phase < L.max + 1
  · have hrow : ((List.range (L.max + 1)).map (phaseNodes L lowered))[phase]? =
        some (phaseNodes L lowered phase) := by
      simp [hp]
    rw [nodeAt, hrow, Option.bind_some, get_phaseNodes hl, List.getElem?_map, Option.map_eq_some_iff]
    exact ⟨fun h => ⟨by omega, h⟩, fun h => h.2⟩
  · have hrow : ((List.range (L.max + 1)).map (phaseNodes L lowered))[phase]? = none := by
      simp
      omega
    rw [nodeAt, hrow]
    exact ⟨(nomatch ·), fun h => absurd h.1 (by omega)⟩

theorem mem_onLane {α : Type} {L : Levels} {phase lane : ℕ} {l : List (PlannedDispatch × α)}
    {x : PlannedDispatch × α} :
    x ∈ onLane L phase lane l ↔ x ∈ l ∧ L.level x.1.node = phase ∧ x.1.lane = lane := by
  simp [onLane, List.mem_filter]

theorem onLane_nodup {L : Levels} {phase lane : ℕ} (h : (lowered.map fun x => x.1.node).Nodup) :
    ((onLane L phase lane lowered).map fun x => x.1.node).Nodup :=
  h.sublist (List.filter_sublist.map _)

end Places

/-- A slot of the batch runs the node lowered to its place. -/
def PreparedAqlPlan.Runs (prepared : PreparedAqlPlan) (slot : Slot) (node : NodeId) : Prop :=
  slot.lane < 2 ∧ nodeAt prepared.phaseNodes slot.phase slot.lane slot.index = some node

/-- What preparation lowered and published. -/
structure Lowers (prepared : PreparedAqlPlan) (device : GpuDevice) (pool : KernargPool)
    (bindings : ReplayBindings) (kernels : AqlKernelCatalog) (plan : CompiledPlan) (tokenCount : ℕ)
    (boundary : ApiBoundary) (lowered : List (PlannedDispatch × RecordedDispatch))
    (policies : TwoQueueDerivedPolicies) : Prop where
  source : Lowered device pool bindings kernels plan lowered
  two_lanes : plan.laneCount.get = 2
  nodes_eq : prepared.phaseNodes = (List.range ((levels plan.dispatches).max + 1)).map
    (phaseNodes (levels plan.dispatches) lowered)
  phases_eq : prepared.graph.phases = (List.range ((levels plan.dispatches).max + 1)).map
    (lanesOf (levels plan.dispatches) lowered)
  lanes_nonempty : ∀ phase ≤ (levels plan.dispatches).max, ∀ lane < 2,
    onLane (levels plan.dispatches) phase lane lowered ≠ []
  derived : deriveAqlVisibility plan boundary = .ok prepared.visibility
  headers : lowerPolicies plan prepared.phaseNodes prepared.visibility = .ok policies
  created : ∃ capacity profileAllDispatches, createDerived device capacity tokenCount
    prepared.graph.phases { policies with profileAllDispatches } = .ok prepared.graph

theorem mapError_ok {ε δ α : Type} {x : Except ε α} {f : ε → δ} {a : α} (h : x.mapError f = .ok a) :
    x = .ok a := by
  cases x with
  | error e => cases h
  | ok b => cases h; rfl

theorem prepareInternal_ok {sha256 : List UInt8 → Sha256Digest} {device : GpuDevice}
    {pool : KernargPool} {capacity : ℕ → ℕ → ℕ} {plan : CompiledPlan} {bindings : ReplayBindings}
    {kernels : AqlKernelCatalog} {tokenCount : ℕ} {boundary : ApiBoundary} {profile : Bool}
    {prepared : PreparedAqlPlan}
    (h : prepareInternal sha256 device pool capacity plan bindings kernels tokenCount boundary profile =
      .ok prepared) : ∃ lowered policies,
      Lowers prepared device pool bindings kernels plan tokenCount boundary lowered policies := by
  unfold prepareInternal at h
  split at h
  · cases h
  split at h
  · cases h
  rename_i hlanes
  split at h
  · cases h
  obtain ⟨_, -, h⟩ := bind_ok h
  obtain ⟨⟨phases, nodes⟩, hphases, h⟩ := bind_ok h
  obtain ⟨visibility, hvis, h⟩ := bind_ok h
  obtain ⟨policies, hpol, h⟩ := bind_ok h
  obtain ⟨counts, -, h⟩ := bind_ok h
  obtain ⟨size, -, h⟩ := bind_ok h
  obtain ⟨graph, hgraph, h⟩ := bind_ok h
  obtain ⟨stamp, -, h⟩ := bind_ok h
  cases h
  obtain ⟨lowered, hl, hp, hn, hlane⟩ := lowerPhases_ok hphases
  have hcreated := mapError_ok hgraph
  obtain ⟨-, -, -, -, -, -, hgp, -⟩ := createDerived_ok hcreated
  exact ⟨lowered, policies, hl, not_not.mp hlanes, hn, hgp.trans hp, hlane, mapError_ok hvis, hpol,
    capacity size, profile, hgp ▸ hcreated⟩

section Order
variable {prepared : PreparedAqlPlan} {device : GpuDevice} {pool : KernargPool}
  {bindings : ReplayBindings} {kernels : AqlKernelCatalog} {plan : CompiledPlan} {tokenCount : ℕ}
  {boundary : ApiBoundary} {lowered : List (PlannedDispatch × RecordedDispatch)}
  {policies : TwoQueueDerivedPolicies} {r : Recorder}

namespace Lowers
variable (h : Lowers prepared device pool bindings kernels plan tokenCount boundary lowered policies)
include h

theorem mem_dispatches {x : PlannedDispatch × RecordedDispatch} (hx : x ∈ lowered) :
    x.1 ∈ plan.dispatches :=
  h.source.dispatches ▸ List.mem_map_of_mem hx

theorem nodes_nodup (hv : r.Valid) (hs : plan.Schedules r) :
    (lowered.map fun x => x.1.node).Nodup := by
  have hn := hs.nodes_nodup hv
  rwa [← h.source.dispatches, List.map_map] at hn

/-- A place holds a dispatch of its own level and lane. -/
theorem runs_iff {slot : Slot} {node : NodeId} : prepared.Runs slot node ↔
    slot.lane < 2 ∧ slot.phase ≤ (levels plan.dispatches).max ∧
      ∃ x, (onLane (levels plan.dispatches) slot.phase slot.lane lowered)[slot.index]? = some x ∧
        x.1.node = node := by
  rw [PreparedAqlPlan.Runs, h.nodes_eq]
  exact and_congr_right fun hl => nodeAt_iff hl

theorem runs_dispatch {slot : Slot} {node : NodeId} (hr : prepared.Runs slot node) :
    ∃ d ∈ plan.dispatches, d.node = node ∧ (levels plan.dispatches).level node = slot.phase ∧
      d.lane = slot.lane := by
  obtain ⟨-, -, x, hx, rfl⟩ := h.runs_iff.mp hr
  obtain ⟨hmem, hlevel, hlane⟩ := mem_onLane.mp (List.mem_of_getElem? hx)
  exact ⟨x.1, h.mem_dispatches hmem, rfl, hlevel, hlane⟩

/-- Every dispatch has one place per token. -/
theorem runs_unique (hv : r.Valid) (hs : plan.Schedules r) (token : ℕ) {d : PlannedDispatch}
    (hd : d ∈ plan.dispatches) : ∃! slot : Slot, slot.token = token ∧ prepared.Runs slot d.node := by
  obtain ⟨x, hx, rfl⟩ := List.mem_map.mp (h.source.dispatches.symm ▸ hd)
  have hlane : x.1.lane < 2 := h.two_lanes ▸ hs.lane_lt x.1 hd
  obtain ⟨i, hi⟩ := List.mem_iff_getElem?.mp
    (mem_onLane.mpr ⟨hx, rfl, rfl⟩ : x ∈ onLane (levels plan.dispatches) _ x.1.lane lowered)
  refine ⟨⟨token, (levels plan.dispatches).level x.1.node, x.1.lane, i⟩,
    ⟨rfl, h.runs_iff.mpr ⟨hlane, level_le_max hv hs hd, x, hi, rfl⟩⟩, ?_⟩
  rintro ⟨t, phase, lane, j⟩ ⟨rfl, hr⟩
  obtain ⟨e, he, hnode, hlevel, hlane'⟩ := h.runs_dispatch hr
  obtain rfl : e = x.1 := List.inj_on_of_nodup_map (hs.nodes_nodup hv) he hd hnode
  obtain ⟨-, -, y, hj, hy⟩ := h.runs_iff.mp hr
  have hij : i = j := by
    have hmap (k : ℕ) (z : PlannedDispatch × RecordedDispatch)
        (hz : (onLane (levels plan.dispatches) phase lane lowered)[k]? = some z) :
        ((onLane (levels plan.dispatches) phase lane lowered).map fun x => x.1.node)[k]? =
          some z.1.node := by
      rw [List.getElem?_map, hz]
      rfl
    rw [hlevel, hlane'] at hi
    refine (List.getElem?_inj ?_ (onLane_nodup (h.nodes_nodup hv hs))).mp
      ((hmap i x hi).trans ((hmap j y hj).trans (congrArg some hy)).symm)
    rw [List.length_map]
    exact (List.getElem?_eq_some_iff.mp hi).1
  rw [hlevel, hlane', hij]

theorem phase_iff {index : ℕ} {phase : TwoQueuePhase} : prepared.graph.phases[index]? = some phase ↔
    index ≤ (levels plan.dispatches).max ∧ lanesOf (levels plan.dispatches) lowered index = phase := by
  rw [h.phases_eq, List.getElem?_map, Option.map_eq_some_iff]
  constructor
  · rintro ⟨p, hp, rfl⟩
    obtain ⟨hlt, rfl⟩ := List.getElem?_eq_some_iff.mp hp
    simp only [List.length_range, List.getElem_range] at hlt ⊢
    exact ⟨by omega, trivial⟩
  · rintro ⟨hle, rfl⟩
    exact ⟨index, List.getElem?_range (by omega), rfl⟩

theorem inBatch_iff {slot : Slot} : slot.InBatch prepared.graph.phases tokenCount ↔
    slot.token < tokenCount ∧ ∃ d ∈ plan.dispatches, prepared.Runs slot d.node := by
  refine and_congr_right fun _ => ⟨?_, ?_⟩
  · rintro ⟨hl, phase, hphase, hi⟩
    obtain ⟨hp, rfl⟩ := h.phase_iff.mp hphase
    rw [get_lanesOf hl, List.length_map] at hi
    have hx := List.getElem?_eq_getElem hi
    exact ⟨_, h.mem_dispatches (mem_onLane.mp (List.mem_of_getElem? hx)).1,
      h.runs_iff.mpr ⟨hl, hp, _, hx, rfl⟩⟩
  · rintro ⟨d, -, hr⟩
    obtain ⟨hl, hp, x, hx, -⟩ := h.runs_iff.mp hr
    refine ⟨hl, _, h.phase_iff.mpr ⟨hp, rfl⟩, ?_⟩
    rw [get_lanesOf hl, List.length_map]
    exact (List.getElem?_eq_some_iff.mp hx).1

/-- The dispatch at a place of the batch is one lowered from the plan, and the
place runs its node. -/
theorem runs_lowered {slot : Slot} {phase : TwoQueuePhase} {recorded : RecordedDispatch}
    (hl : slot.lane < 2) (hphase : prepared.graph.phases[slot.phase]? = some phase)
    (hi : (phase.get slot.lane)[slot.index]? = some recorded) :
    ∃ d ∈ plan.dispatches, prepared.Runs slot d.node ∧
      ∃ request, lowerDispatch device pool bindings kernels request d = .ok recorded := by
  obtain ⟨hp, rfl⟩ := h.phase_iff.mp hphase
  rw [get_lanesOf hl, List.getElem?_map, Option.map_eq_some_iff] at hi
  obtain ⟨x, hx, rfl⟩ := hi
  have hmem := (mem_onLane.mp (List.mem_of_getElem? hx)).1
  exact ⟨x.1, h.mem_dispatches hmem, h.runs_iff.mpr ⟨hl, hp, x, hx, rfl⟩, h.source.recorded x hmem⟩

/-- The headers of the first token, in the order of the phase table. -/
theorem first_headers : prepared.phaseNodes.mapM
    (phaseHeaders prepared.visibility DerivedDispatchPolicy.header) = .ok policies.firstDispatches := by
  obtain ⟨first, hfirst, hheaders⟩ := bind_ok h.headers
  obtain ⟨_, -, hheaders⟩ := bind_ok hheaders
  split at hheaders
  · cases hheaders
  · cases hheaders
    exact hfirst

/-- The consolidation packet at the end of a lane is barriered. -/
theorem consolidation_barrier : policies.consolidation.barrier = true := by
  have hcons : ∀ c ∈ prepared.visibility.laneConsolidations, c.header.barrier = true := by
    have hderived := h.derived
    simp only [deriveAqlVisibility] at hderived
    split at hderived
    · cases hderived
    split at hderived
    · cases hderived
    · intro c hc
      rw [← Except.ok.inj hderived] at hc
      obtain ⟨lane, -, hlane⟩ := List.mem_filterMap.mp hc
      split at hlane
      · cases hlane
      · rw [← Option.some.inj hlane]
  have hheaders := h.headers
  obtain ⟨_, -, hheaders⟩ := bind_ok hheaders
  obtain ⟨_, -, hheaders⟩ := bind_ok hheaders
  split at hheaders
  · cases hheaders
  · rename_i first hfirst
    cases hheaders
    exact hcons first (List.mem_of_mem_head? hfirst)

end Lowers
end Order

/-- Preparing a compiled two-lane plan for any number of tokens: every dispatch
has one place per token, dependencies and conflicts lead to later phases, every
execution runs phases and tokens one after the other, the final signal covers
every packet, packets and signals match their precomputed numbers, and the
packet of a place runs what the dispatch of its node was lowered to. -/
theorem prepare_ordered (sha256 : List UInt8 → Sha256Digest) (owner : ℕ)
    (calls : List Recorder.Call) (options : CompileOptions) (plan : CompiledPlan)
    (device : GpuDevice) (pool : KernargPool) (capacity : ℕ → ℕ → ℕ) (bindings : ReplayBindings)
    (kernels : AqlKernelCatalog) (tokenCount : ℕ) (boundary : ApiBoundary)
    (profileAllDispatches : Bool) (prepared : PreparedAqlPlan)
    (hplan : compile sha256 (.run owner calls) options = .ok plan)
    (hprepare : prepareInternal sha256 device pool capacity plan bindings kernels tokenCount boundary
      profileAllDispatches = .ok prepared) :
    (∀ token, ∀ d ∈ plan.dispatches, ∃! slot : Slot, slot.token = token ∧
      prepared.Runs slot d.node) ∧
    (∀ a b m n, prepared.Runs a m → prepared.Runs b n →
      Relation.TransGen (Edge (Recorder.run owner calls).edges) m n → a.phase < b.phase) ∧
    (∀ a b d e, [d, e].Sublist plan.dispatches → Conflicting d e → prepared.Runs a d.node →
      prepared.Runs b e.node → a.phase < b.phase) ∧
    (∀ a b, ∀ d ∈ plan.dispatches, ∀ e ∈ plan.dispatches, d ≠ e → prepared.Runs a d.node →
      prepared.Runs b e.node → a.phase = b.phase → ¬ Conflicting d e) ∧
    (∀ slot, slot ∈ jobs (publish prepared.graph.packets) ↔ slot.token < tokenCount ∧
      ∃ d ∈ plan.dispatches, prepared.Runs slot d.node) ∧
    (jobs (publish prepared.graph.packets)).Nodup ∧
    (∀ a ∈ jobs (publish prepared.graph.packets), ∀ b ∈ jobs (publish prepared.graph.packets),
      a.Earlier b → FinishesBefore (publish prepared.graph.packets) (fun _ => 1) (some a) (some b)) ∧
    (∀ s, Reachable (publish prepared.graph.packets) (fun _ => 1) s → s.mem .final = 0 →
      ∀ (k : ℕ) e, (publish prepared.graph.packets)[k]? = some e → settled s k e.cmd = true) ∧
    (∀ s, Reachable (publish prepared.graph.packets) (fun _ => 1) s →
      Stuck (publish prepared.graph.packets) s → s.mem .final = 0) ∧
    (∀ lane < 2, (queueBatch prepared.graph.packets lane).length =
      prepared.graph.packetCounts.get lane) ∧
    derivedPacketCounts prepared.graph.phases tokenCount = .ok prepared.graph.packetCounts ∧
    (((writes (publish prepared.graph.packets)).map Prod.fst).filter BatchSignal.orders).length =
      prepared.graph.signalCount ∧
    twoQueueSerializedSignalCount prepared.graph.phases.length tokenCount =
      .ok prepared.graph.signalCount ∧
    ∀ queue slot words header completion,
      (queue, .kernel slot words header completion) ∈ prepared.graph.packets →
      queue = slot.lane ∧ ∃ d ∈ plan.dispatches, prepared.Runs slot d.node ∧ ∃ request recorded,
        lowerDispatch device pool bindings kernels request d = .ok recorded ∧ recorded.words = words := by
  have hv := Recorder.run_valid owner calls
  obtain ⟨hs, hfree⟩ := compile_schedules hv hplan
  obtain ⟨lowered, policies, h⟩ := prepareInternal_ok hprepare
  obtain ⟨cap, profile, hcreated⟩ := h.created
  have hbarrier : ({ policies with profileAllDispatches := profile } :
      TwoQueueDerivedPolicies).consolidation.barrier = true := h.consolidation_barrier
  obtain ⟨hne, htoken, hshape, hpackets, hcounts, hsignals, -, -⟩ := createDerived_ok hcreated
  have hjobs := mem_batch_jobs hshape tokenCount
  have hphase {slot : Slot} {n : NodeId} (hr : prepared.Runs slot n) :
      (levels plan.dispatches).level n = slot.phase := by
    obtain ⟨-, -, -, hlevel, -⟩ := h.runs_dispatch hr
    exact hlevel
  have hconflict {a b : Slot} {d e : PlannedDispatch} (hsub : [d, e].Sublist plan.dispatches)
      (hc : Conflicting d e) (ha : prepared.Runs a d.node) (hb : prepared.Runs b e.node) :
      a.phase < b.phase := by
    rw [← hphase ha, ← hphase hb]
    exact level_lt_of_conflict hv hs hfree hsub hc
  rw [publish_batchPackets hshape hne hpackets]
  refine ⟨fun token d hd => h.runs_unique hv hs token hd, fun a b m n ha hb hpath => ?_,
    fun a b d e hsub hc ha hb => hconflict hsub hc ha hb, fun a b d hd e he hde ha hb hab hc => ?_,
    fun slot => (hjobs slot).trans h.inBatch_iff, batch_jobs_nodup,
    fun a ha b hb hab => batch_finishesBefore hbarrier hshape hne htoken ((hjobs a).mp ha)
      ((hjobs b).mp hb) hab,
    fun s hs hf k e hk => batch_final hbarrier hshape hne htoken hs hf hk,
    fun s hs hstuck => batch_stuck hbarrier hshape hne htoken hs hstuck,
    fun lane hl => batch_packetCounts hshape hne htoken hpackets hcounts hl, hcounts, ?_, hsignals,
    fun queue slot words header completion hp => ?_⟩
  · rw [← hphase ha, ← hphase hb]
    exact level_lt_of_path hv hs hpath
  · rcases pair_sublist hd he hde with hsub | hsub
    · exact absurd hab (hconflict hsub hc ha hb).ne
    · exact absurd hab (hconflict hsub hc.symm hb ha).ne'
  · rw [batch_signals hshape, signalCount_ok hsignals]
  · obtain ⟨-, hl, hq, phase, hphase, recorded, hi, hwords⟩ :=
      kernel_mem_batchPackets hshape hne hpackets hp
    obtain ⟨d, hd, hruns, request, hlower⟩ := h.runs_lowered hl hphase hi
    exact ⟨hq, d, hd, hruns, request, recorded, hlower, hwords⟩

section Example

def zeroDigest : Sha256Digest := ⟨Vector.replicate 32 0⟩

/-- A kernarg segment with one pointer. -/
def pointerAbi : Option KernargAbi :=
  (do KernargAbi.new (fun _ => zeroDigest) 8 8 [← KernargField.new 0 8 8]).toOption

def pointerIdentity : KernelArtifactIdentity := ⟨zeroDigest, zeroDigest, 1⟩

/-- A launch whose only argument points at a byte of the first resource. -/
def pointerLaunch (byteOffset work : ℕ) : KernelLaunch :=
  ⟨"copy", ⟨1, 1, 1⟩, ⟨64, 1, 1⟩, 0, [.resource ⟨0, 0⟩ byteOffset], pointerAbi, some pointerIdentity,
    (NonZeroU32.new work).getD .one⟩

def pointerWord (byteOffset : ℕ) (mode : AccessMode) : List Access :=
  ((DeviceRegion.new ⟨0, 0⟩ byteOffset 8).toOption.map fun region => ⟨region, mode⟩).toList

def pointerKernels : AqlKernelCatalog :=
  ⟨fun kernel => if kernel = "copy" then
      pointerAbi.map fun abi => ⟨⟨"copy", 7, ⟨1, 8, 8, 0, 0, false⟩⟩, abi, pointerIdentity⟩ else none,
    ⟨fun kernel => if kernel = "copy" then some pointerIdentity else none⟩⟩

def smallPool : KernargPool := ⟨7, 64, 64, fun request _ => .ok (4096 * (request + 1))⟩

/-- The first resource bound at an address. -/
def boundAt (base : ℕ) : ReplayBindings :=
  ⟨fun resource => if resource = ⟨0, 0⟩ then
      (ResourceBinding.new base 64 base .external).toOption else none, fun _ => none⟩

/-- Two producers, each followed by a consumer of what it wrote. -/
def twoChains : List Recorder.Call :=
  [.resource "state" 32,
    .dispatch (pointerLaunch 0 1) (pointerWord 0 .write),
    .dispatch (pointerLaunch 8 1) (pointerWord 8 .write),
    .dispatch (pointerLaunch 0 1) (pointerWord 0 .read),
    .dispatch (pointerLaunch 8 1) (pointerWord 8 .read),
    .dependsOn ⟨0, 2⟩ ⟨0, 0⟩, .dependsOn ⟨0, 3⟩ ⟨0, 1⟩]

theorem twoChains_ordered : ∃ plan prepared,
    compile (fun _ => zeroDigest) (.run 0 twoChains) twoLanes = .ok plan ∧
    prepareInternal (fun _ => zeroDigest) smallDevice smallPool (fun size _ => size) plan
      (boundAt 65536) pointerKernels 3 defaultBoundary false = .ok prepared ∧
    FinishesBefore (publish prepared.graph.packets) (fun _ => 1) (some ⟨0, 0, 0, 0⟩)
      (some ⟨2, 1, 1, 0⟩) ∧
    (queueBatch prepared.graph.packets 0).length = 18 := by
  obtain ⟨-, -, -, -, -, -, hbefore, -, -, hcount, -⟩ := prepare_ordered (fun _ => zeroDigest) 0
    twoChains twoLanes _ smallDevice smallPool (fun size _ => size) (boundAt 65536)
    pointerKernels 3 defaultBoundary false _ rfl rfl
  exact ⟨_, _, rfl, rfl, hbefore ⟨0, 0, 0, 0⟩ (by decide) ⟨2, 1, 1, 0⟩ (by decide) (.inl (by decide)),
    hcount 0 (by decide)⟩

end Example
end Hipscope.Redline.Aql
