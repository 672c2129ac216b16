import Hipscope.Replay.Commands
import Hipscope.Replay.Reorder

/-! Plans for several queues: a recorded launch list is cut into phases that run
one after the other, some of them spread over lanes. -/
namespace Hipscope.Replay
open Redline

/-- How many public queues independent work may use. -/
inductive QueuePolicy where
  | auto
  | one
  | two
  | four
  deriving DecidableEq, Repr

namespace QueuePolicy

def explicitLanes : QueuePolicy → Option ℕ
  | auto => none
  | one => some 1
  | two => some 2
  | four => some 4

def automaticLaneLimit (architecture : String) : ℕ :=
  let architecture := architecture.toLower
  if startsWith architecture "gfx12" then 2
  else if startsWith architecture "gfx11" then 4
  else 1

def resolve (policy : QueuePolicy) (architecture : String) (independentWidth : ℕ) : ℕ :=
  min (policy.explicitLanes.getD (automaticLaneLimit architecture)) (max independentWidth 1)

end QueuePolicy

/-- One phase: its launches, whether they are spread over lanes, and where a pair
of branch chains is split. -/
structure Pm4PhasePlan where
  indices : List ℕ
  parallel : Bool
  laneSplit : Option ℕ
  deriving DecidableEq, Repr

/-- Why a capture has no branch plan. -/
inductive PlanError where
  | zeroWithoutAdd (zeroAt : ℕ)
  | nestedZero (addAt : ℕ)
  | noSplit (zeroAt addAt : ℕ)
  | noMarkers
  | noForkStart (down : ℕ)
  | unrecognized (down : ℕ)
  | dependentBranches (sharedStart router down : ℕ)
  | noRoutedDown
  deriving DecidableEq, Repr

section Workgroups

def saturatingAdd (a b : ℕ) : ℕ := min (a + b) (2 ^ 64 - 1)

def saturatingMul (a b : ℕ) : ℕ := min (a * b) (2 ^ 64 - 1)

def launchWorkgroups (launch : RecordedHipLaunch) : ℕ := launch.grid.axes.foldl saturatingMul 1

/-- The sum of the workgroups, which wraps. -/
def sumWorkgroups (launches : List RecordedHipLaunch) : ℕ :=
  launches.foldl (fun total launch => (total + launchWorkgroups launch) % 2 ^ 64) 0

def antichainWorkgroups (recorded : List RecordedHipLaunch) (indices : List ℕ) : ℕ :=
  (indices.filterMap fun index => recorded[index]?).foldl
    (fun total launch => saturatingAdd total (launchWorkgroups launch)) 0

end Workgroups

section Antichains

/-- The launch joins the last antichain if it is independent of all of it. -/
def joinAntichain (recorded : List RecordedHipLaunch) (antichains : List (List ℕ)) (index : ℕ) :
    List (List ℕ) :=
  match antichains.getLast? with
  | none => antichains ++ [[index]]
  | some last =>
    if last.all fun prior => !dependentAt recorded prior index then
      antichains.dropLast ++ [last ++ [index]]
    else antichains ++ [[index]]

def antichains (recorded : List RecordedHipLaunch) : List (List ℕ) :=
  (List.range recorded.length).foldl (joinAntichain recorded) []

/-- A wide antichain becomes a parallel phase, a narrow one is folded into the
serial phase before it. -/
def addAntichain (recorded : List RecordedHipLaunch) (minWidth minWorkgroups maxPhases : ℕ)
    (plan : List Pm4PhasePlan × ℕ) (indices : List ℕ) : List Pm4PhasePlan × ℕ :=
  let parallel := decide (minWidth ≤ indices.length) &&
    decide (minWorkgroups ≤ antichainWorkgroups recorded indices) && decide (plan.2 < maxPhases)
  let parallelPhases := if parallel then plan.2 + 1 else plan.2
  match plan.1.getLast? with
  | none => (plan.1 ++ [⟨indices, parallel, none⟩], parallelPhases)
  | some last =>
    if !parallel && !last.parallel then
      (plan.1.dropLast ++ [{ last with indices := last.indices ++ indices }], parallelPhases)
    else (plan.1 ++ [⟨indices, parallel, none⟩], parallelPhases)

def pm4PhasePlan (recorded : List RecordedHipLaunch)
    (minParallelWidth minParallelWorkgroups maxParallelPhases : ℕ) : List Pm4PhasePlan :=
  ((antichains recorded).foldl
    (addAntichain recorded (max minParallelWidth 2) minParallelWorkgroups maxParallelPhases)
    ([], 0)).1

end Antichains

section Branches

def launchRangesAreIndependent (recorded : List RecordedHipLaunch) (left right : List ℕ) : Bool :=
  left.all fun leftIndex => right.all fun rightIndex => !dependentAt recorded leftIndex rightIndex

/-- The launches from `start` up to `stop`. -/
def span (start stop : ℕ) : List ℕ := List.range' start (stop - start)

/-- The first launch of a kind at or after the cursor. -/
def positionFrom (recorded : List RecordedHipLaunch) (cursor : ℕ) (kind : RecordedHipLaunch → Bool) :
    Option ℕ :=
  ((recorded.drop cursor).findIdx? kind).map (cursor + ·)

/-- A serial phase, unless nothing is left for it. -/
def serialPhase (start stop : ℕ) : List Pm4PhasePlan :=
  if start < stop then [⟨span start stop, false, none⟩] else []

/-- A plan in the making: the phases so far cover the launches before the cursor. -/
structure BranchPlan where
  phases : List Pm4PhasePlan
  cursor : ℕ
  branches : ℕ

def BranchPlan.start : BranchPlan := ⟨[], 0, 0⟩

/-- A branch phase from `start` up to `stop`, after what is left before it. -/
def BranchPlan.fork (plan : BranchPlan) (start stop : ℕ) (indices : List ℕ) (split : ℕ) : BranchPlan :=
  ⟨plan.phases ++ serialPhase plan.cursor start ++ [⟨indices, true, some split⟩], stop,
    plan.branches + 1⟩

def BranchPlan.finish (plan : BranchPlan) (launches : ℕ) (error : PlanError) :
    Except PlanError (List Pm4PhasePlan) :=
  if plan.branches = 0 then .error error
  else .ok (plan.phases ++ serialPhase plan.cursor launches)

def isZero (launch : RecordedHipLaunch) : Bool := launch.kernel == "zero_f32"

def isAdd (launch : RecordedHipLaunch) : Bool := launch.kernel == "add_inplace_f32"

/-- The launches of a range of the tape. -/
def slice (recorded : List RecordedHipLaunch) (start stop : ℕ) : List RecordedHipLaunch :=
  (recorded.take stop).drop start

/-- The branches are recognisable and the shared one is independent of the
routed one and of the zeroing. -/
def splitsBranches (recorded : List RecordedHipLaunch) (zeroAt addAt split : ℕ) : Bool :=
  (slice recorded (zeroAt + 1) split).any (fun launch => launch.kernel == "gemv_mfp4g32_e8_soa_u4") &&
    (slice recorded split addAt).any
      (fun launch => launch.kernel == "gemv_mq2g256_lloyd_moe_gate_up_k8_indexed") &&
    launchRangesAreIndependent recorded (span (zeroAt + 1) split) (span split addAt) &&
    launchRangesAreIndependent recorded [zeroAt] (span (zeroAt + 1) split)

def splitBalance (recorded : List RecordedHipLaunch) (zeroAt addAt split : ℕ) : ℕ :=
  min (sumWorkgroups (slice recorded (zeroAt + 1) split))
    (sumWorkgroups (slice recorded zeroAt (zeroAt + 1) ++ slice recorded split addAt))

/-- The first of the best balanced splits. -/
def bestSplit (recorded : List RecordedHipLaunch) (zeroAt addAt : ℕ) : Option (ℕ × ℕ) :=
  (span (zeroAt + 2) addAt).foldl (fun best split =>
    if !splitsBranches recorded zeroAt addAt split then best
    else
      let balance := splitBalance recorded zeroAt addAt split
      match best with
      | none => some (split, balance)
      | some (_, bestBalance) => if balance > bestBalance then some (split, balance) else best) none

theorem positionFrom_lt {recorded : List RecordedHipLaunch} {cursor index : ℕ}
    {kind : RecordedHipLaunch → Bool} (h : positionFrom recorded cursor kind = some index) :
    cursor ≤ index ∧ index < recorded.length := by
  rw [positionFrom, Option.map_eq_some_iff] at h
  obtain ⟨offset, hoffset, rfl⟩ := h
  have hlt := (List.findIdx?_eq_some_iff_getElem.mp hoffset).1
  rw [List.length_drop] at hlt
  omega

/-- Branch phases of the zero and add markers from the cursor on. -/
def ffnBranches (recorded : List RecordedHipLaunch) (plan : BranchPlan) : Except PlanError BranchPlan :=
  match _hzero : positionFrom recorded plan.cursor isZero with
  | none => .ok plan
  | some zeroAt =>
    match _hadd : positionFrom recorded (zeroAt + 1) isAdd with
    | none => .error (.zeroWithoutAdd zeroAt)
    | some addAt =>
      if (slice recorded (zeroAt + 1) addAt).any isZero then .error (.nestedZero addAt)
      else match bestSplit recorded zeroAt addAt with
        | none => .error (.noSplit zeroAt addAt)
        | some (split, _) =>
          -- The zeroing moves behind the shared branch, onto the routed lane.
          ffnBranches recorded (plan.fork zeroAt addAt
            (span (zeroAt + 1) split ++ [zeroAt] ++ span split addAt) (split - (zeroAt + 1)))
termination_by recorded.length - plan.cursor
decreasing_by
  have hz := positionFrom_lt _hzero
  have ha := positionFrom_lt _hadd
  simp only [BranchPlan.fork]
  omega

def pm4Ds4FfnBranchPlan (recorded : List RecordedHipLaunch) : Except PlanError (List Pm4PhasePlan) := do
  let plan ← ffnBranches recorded .start
  plan.finish recorded.length .noMarkers

def endsWith (kernel pattern : String) : Bool := pattern.toList.isSuffixOf kernel.toList

def isDs4BatchedE8Gemv (kernel : String) : Bool :=
  startsWith kernel "gemv_mfp4g32_e8_soa_batched_b" && endsWith kernel "_gfx1151"

def routedGateUp : String := "gemv_mq2g256_lloyd_moe_gate_up_k8_indexed_batched_k4"

def routedDown : String := "gemv_mq2g256_lloyd_moe_down_residual_scaled_k8_indexed_batched_k4"

/-- What the eleven launches before a routed-down join must be called. -/
def forkNames : List (String → Bool) :=
  [isDs4BatchedE8Gemv, isDs4BatchedE8Gemv, (· == "deepseek4_silu_mul_clamp_f32"), (· == "mq_rotate_x"),
    isDs4BatchedE8Gemv, isDs4BatchedE8Gemv, (· == "sqrt_softplus_f32"),
    fun name => name == "hash_router_normalize_f32_batched" ||
      name == "deepseek4_moe_topk_bias_aware_batched_f32",
    (· == routedGateUp), (· == "deepseek4_silu_mul_clamp_f32"), (· == "mq_rotate_x")]

def recognizedFork (recorded : List RecordedHipLaunch) (sharedStart : ℕ) : Bool :=
  forkNames.zipIdx.all fun (expected, offset) =>
    (recorded[sharedStart + offset]?).any fun launch => expected launch.kernel

def isRoutedDown (launch : RecordedHipLaunch) : Bool := launch.kernel == routedDown

/-- Branch phases of the routed-down joins from the search cursor on. -/
def batchedFfnBranches (recorded : List RecordedHipLaunch) (searchCursor : ℕ) (plan : BranchPlan) :
    Except PlanError BranchPlan :=
  match _hdown : positionFrom recorded searchCursor isRoutedDown with
  | none => .ok plan
  | some down =>
    if down < 11 then .error (.noForkStart down)
    else if !recognizedFork recorded (down - 11) then .error (.unrecognized down)
    else if !launchRangesAreIndependent recorded (span (down - 11) (down - 6)) (span (down - 6) down) then
      .error (.dependentBranches (down - 11) (down - 6) down)
    else batchedFfnBranches recorded (down + 1)
      (plan.fork (down - 11) down (span (down - 11) down) (down - 6 - (down - 11)))
termination_by recorded.length - searchCursor
decreasing_by
  have hd := positionFrom_lt _hdown
  omega

def pm4Ds4BatchedFfnBranchPlan (recorded : List RecordedHipLaunch) :
    Except PlanError (List Pm4PhasePlan) := do
  let plan ← batchedFfnBranches recorded 0 .start
  plan.finish recorded.length .noRoutedDown

end Branches

/-- The three ways to plan a tape. -/
inductive Planner where
  | phases (minParallelWidth minParallelWorkgroups maxParallelPhases : ℕ)
  | ffnBranches
  | batchedFfnBranches
  deriving DecidableEq, Repr

def Planner.plan (recorded : List RecordedHipLaunch) : Planner → Except PlanError (List Pm4PhasePlan)
  | phases width workgroups limit => .ok (pm4PhasePlan recorded width workgroups limit)
  | ffnBranches => pm4Ds4FfnBranchPlan recorded
  | batchedFfnBranches => pm4Ds4BatchedFfnBranchPlan recorded

end Hipscope.Replay

/-! Every plan tiles the tape: its phases are consecutive stretches of the
recorded list, each of a shape that its lanes can run. -/
namespace Hipscope.Replay

/-- Consecutive blocks from zero on, each standing for the numbers between its
start and the next one. -/
inductive Tiled {α : Type} (Block : ℕ → α → ℕ → Prop) : List α → ℕ → Prop
  | nil : Tiled Block [] 0
  | snoc {blocks : List α} {mid len : ℕ} {block : α} : Tiled Block blocks mid → Block mid block len →
      Tiled Block (blocks ++ [block]) (mid + len)

section Tiled
variable {α : Type} {Block : ℕ → α → ℕ → Prop} {blocks : List α} {stop : ℕ}

theorem Tiled.of_getLast? (h : Tiled Block blocks stop) {last : α} (hlast : blocks.getLast? = some last) :
    ∃ mid len, Tiled Block blocks.dropLast mid ∧ Block mid last len ∧ stop = mid + len := by
  cases h with
  | nil => simp at hlast
  | snoc htiled hblock =>
    obtain rfl : _ = last := by simpa using hlast
    exact ⟨_, _, by simpa using htiled, hblock, rfl⟩

theorem Tiled.mem (h : Tiled Block blocks stop) {block : α} (hb : block ∈ blocks) :
    ∃ mid len, Block mid block len ∧ mid + len ≤ stop := by
  induction h with
  | nil => simp at hb
  | snoc _ hblock ih =>
    rcases List.mem_append.mp hb with hb | hb
    · obtain ⟨mid, len, hblock, hle⟩ := ih hb
      exact ⟨mid, len, hblock, by omega⟩
    · obtain rfl := List.mem_singleton.mp hb
      exact ⟨_, _, hblock, le_rfl⟩

end Tiled

theorem dependentAt_comm (recorded : List RecordedHipLaunch) (i j : ℕ) :
    dependentAt recorded i j = dependentAt recorded j i := by
  unfold dependentAt
  cases recorded[i]? with
  | none => cases recorded[j]? <;> rfl
  | some left =>
    cases recorded[j]? with
    | none => rfl
    | some right => exact congrArg (!·) (launchesAreIndependent_comm left right)

/-- No two launches of the list depend on each other. -/
def Independent (recorded : List RecordedHipLaunch) (indices : List ℕ) : Prop :=
  indices.Pairwise fun i j => dependentAt recorded i j = false

/-- What a plan promises about a phase that stands for `len` launches. -/
inductive PhaseShape (recorded : List RecordedHipLaunch) (start : ℕ) : Pm4PhasePlan → ℕ → Prop
  | serial {len : ℕ} (pos : 0 < len) : PhaseShape recorded start ⟨List.range' start len, false, none⟩ len
  | antichain {len : ℕ} (wide : 2 ≤ len) (independent : Independent recorded (List.range' start len)) :
      PhaseShape recorded start ⟨List.range' start len, true, none⟩ len
  | branches {len : ℕ} {shared routed : List ℕ} (shared_ne : shared ≠ []) (routed_ne : routed ≠ [])
      (perm : (shared ++ routed).Perm (List.range' start len)) (shared_sorted : shared.Pairwise (· < ·))
      (routed_sorted : routed.Pairwise (· < ·))
      (independent : ∀ i ∈ shared, ∀ j ∈ routed, dependentAt recorded i j = false) :
      PhaseShape recorded start ⟨shared ++ routed, true, some shared.length⟩ len

theorem PhaseShape.perm {recorded : List RecordedHipLaunch} {start len : ℕ} {phase : Pm4PhasePlan}
    (h : PhaseShape recorded start phase len) : phase.indices.Perm (List.range' start len) := by
  cases h with
  | serial | antichain => exact .refl _
  | branches _ _ perm => exact perm

/-- The phases of a plan for the whole tape. -/
abbrev Planned (recorded : List RecordedHipLaunch) : List Pm4PhasePlan → ℕ → Prop :=
  Tiled (PhaseShape recorded)

section Tiling
variable {recorded : List RecordedHipLaunch} {phases : List Pm4PhasePlan} {stop : ℕ}

/-- The phases together hold every launch exactly once. -/
theorem Tiled.indices_perm (h : Planned recorded phases stop) :
    (phases.flatMap Pm4PhasePlan.indices).Perm (List.range stop) := by
  induction h with
  | nil => exact .refl _
  | @snoc phases mid len phase _ hphase ih =>
    rw [List.flatMap_append, List.flatMap_singleton, List.range_eq_range', Nat.add_comm mid,
      Nat.add_comm len, ← List.range'_append_1, Nat.zero_add, ← List.range_eq_range']
    exact ih.append hphase.perm

/-- Launches of an earlier phase come before those of a later one. -/
theorem Tiled.increasing (h : Planned recorded phases stop) :
    phases.Pairwise fun p q => ∀ i ∈ p.indices, ∀ j ∈ q.indices, i < j := by
  induction h with
  | nil => exact .nil
  | @snoc phases mid len phase htiled hphase ih =>
    refine List.pairwise_append.mpr ⟨ih, List.pairwise_singleton _ _, ?_⟩
    intro p hp q hq i hi j hj
    obtain rfl := List.mem_singleton.mp hq
    have hi' : i ∈ List.range mid := htiled.indices_perm.subset (List.mem_flatMap.mpr ⟨p, hp, hi⟩)
    have hj' := hphase.perm.subset hj
    rw [List.mem_range] at hi'
    rw [List.mem_range'_1] at hj'
    omega

end Tiling

section Antichains
variable {recorded : List RecordedHipLaunch}

/-- A stretch of pairwise independent launches. -/
def Antichain (recorded : List RecordedHipLaunch) (start : ℕ) (indices : List ℕ) (len : ℕ) : Prop :=
  0 < len ∧ indices = List.range' start len ∧ Independent recorded indices

private theorem antichain_singleton (index : ℕ) : Antichain recorded index [index] 1 :=
  ⟨one_pos, rfl, List.pairwise_singleton _ _⟩

private theorem range'_snoc (start len : ℕ) :
    List.range' start len ++ [start + len] = List.range' start (len + 1) := by
  rw [← List.range'_append_1]
  rfl

private theorem joinAntichain_tiled {chains : List (List ℕ)} {index : ℕ}
    (h : Tiled (Antichain recorded) chains index) :
    Tiled (Antichain recorded) (joinAntichain recorded chains index) (index + 1) := by
  unfold joinAntichain
  split
  · exact h.snoc (antichain_singleton index)
  · rename_i last hlast
    split_ifs with hall
    · obtain ⟨mid, len, htiled, ⟨-, hrange, hind⟩, rfl⟩ := h.of_getLast? hlast
      rw [Nat.add_assoc]
      refine htiled.snoc ⟨by omega, by rw [hrange, range'_snoc], ?_⟩
      refine List.pairwise_append.mpr ⟨hind, List.pairwise_singleton _ _, fun i hi j hj => ?_⟩
      obtain rfl := List.mem_singleton.mp hj
      simpa using List.all_eq_true.mp hall i hi
    · exact h.snoc (antichain_singleton index)

theorem antichains_tiled (recorded : List RecordedHipLaunch) :
    Tiled (Antichain recorded) (antichains recorded) recorded.length := by
  unfold antichains
  induction recorded.length with
  | zero => exact .nil
  | succ n ih =>
    rw [List.range_succ, List.foldl_append]
    exact joinAntichain_tiled ih

private theorem addAntichain_planned {minWidth minWorkgroups maxPhases : ℕ} (hwidth : 2 ≤ minWidth)
    {plan : List Pm4PhasePlan × ℕ} {indices : List ℕ} {mid len : ℕ} (h : Planned recorded plan.1 mid)
    (hchain : Antichain recorded mid indices len) :
    Planned recorded (addAntichain recorded minWidth minWorkgroups maxPhases plan indices).1 (mid + len) := by
  obtain ⟨hpos, rfl, hind⟩ := hchain
  unfold addAntichain
  have hpush (parallel : Bool) (hwide : parallel = true → 2 ≤ len) :
      Planned recorded (plan.1 ++ [⟨List.range' mid len, parallel, none⟩]) (mid + len) := by
    cases parallel with
    | true => exact h.snoc (.antichain (hwide rfl) hind)
    | false => exact h.snoc (.serial hpos)
  generalize hparallel : (decide (minWidth ≤ (List.range' mid len).length) && _ && _) = parallel
  have hwide : parallel = true → 2 ≤ len := by
    rintro rfl
    simp only [Bool.and_eq_true, decide_eq_true_eq, List.length_range'] at hparallel
    omega
  dsimp only
  split
  · exact hpush parallel hwide
  · rename_i last hlast
    by_cases hserial : (!parallel && !last.parallel) = true
    · rw [if_pos hserial]
      obtain ⟨start, len', htiled, hshape, rfl⟩ := h.of_getLast? hlast
      cases hshape with
      | serial hpos' =>
        rw [Nat.add_assoc]
        refine htiled.snoc ?_
        dsimp only
        rw [List.range'_append_1]
        exact .serial (by omega)
      | antichain | branches => simp at hserial
    · rw [if_neg hserial]
      exact hpush parallel hwide

private theorem folded_planned {minWidth minWorkgroups maxPhases : ℕ} (hwidth : 2 ≤ minWidth)
    {chains : List (List ℕ)} {stop : ℕ} (h : Tiled (Antichain recorded) chains stop) :
    Planned recorded (chains.foldl (addAntichain recorded minWidth minWorkgroups maxPhases) ([], 0)).1 stop := by
  induction h with
  | nil => exact .nil
  | snoc _ hchain ih =>
    rw [List.foldl_append]
    exact addAntichain_planned hwidth ih hchain

theorem pm4PhasePlan_planned (recorded : List RecordedHipLaunch) (width workgroups limit : ℕ) :
    Planned recorded (pm4PhasePlan recorded width workgroups limit) recorded.length :=
  folded_planned (le_max_right _ _) (antichains_tiled recorded)

end Antichains

section Branches
variable {recorded : List RecordedHipLaunch}

theorem positionFrom_some {cursor index : ℕ} {kind : RecordedHipLaunch → Bool}
    (h : positionFrom recorded cursor kind = some index) :
    ∃ launch, recorded[index]? = some launch ∧ kind launch = true := by
  rw [positionFrom, Option.map_eq_some_iff] at h
  obtain ⟨offset, hoffset, rfl⟩ := h
  obtain ⟨hlt, hkind, -⟩ := List.findIdx?_eq_some_iff_getElem.mp hoffset
  rw [List.getElem_drop] at hkind
  rw [List.length_drop] at hlt
  exact ⟨_, List.getElem?_eq_getElem (by omega), hkind⟩

private theorem range'_span {start mid stop : ℕ} (hstart : start ≤ mid) (hstop : mid ≤ stop) :
    span start mid ++ span mid stop = span start stop := by
  unfold span
  obtain ⟨a, rfl⟩ := Nat.exists_eq_add_of_le hstart
  obtain ⟨b, rfl⟩ := Nat.exists_eq_add_of_le hstop
  rw [Nat.add_sub_cancel_left, Nat.add_sub_cancel_left, List.range'_append_1, Nat.add_assoc,
    Nat.add_sub_cancel_left]

private theorem span_sorted (start stop : ℕ) : (span start stop).Pairwise (· < ·) :=
  List.pairwise_lt_range'

private theorem span_ne_nil {start stop : ℕ} (h : start < stop) : span start stop ≠ [] := by
  intro hnil
  have := congrArg List.length hnil
  rw [span, List.length_range', List.length_nil] at this
  omega

private theorem mem_span {start stop i : ℕ} : i ∈ span start stop ↔ start ≤ i ∧ i < stop := by
  rw [span, List.mem_range'_1]
  omega

theorem launchRangesAreIndependent_iff {left right : List ℕ} :
    launchRangesAreIndependent recorded left right = true ↔
      ∀ i ∈ left, ∀ j ∈ right, dependentAt recorded i j = false := by
  simp [launchRangesAreIndependent]

private theorem serialPhase_planned {phases : List Pm4PhasePlan} {start stop : ℕ}
    (h : Planned recorded phases start) (hle : start ≤ stop) :
    Planned recorded (phases ++ serialPhase start stop) stop := by
  unfold serialPhase
  split_ifs with hlt
  · have hphase : PhaseShape recorded start ⟨span start stop, false, none⟩ (stop - start) :=
      .serial (by omega)
    have htiled := h.snoc hphase
    rwa [Nat.add_sub_cancel' hle] at htiled
  · obtain rfl : start = stop := by omega
    rwa [List.append_nil]

/-- A fork adds a serial phase for what is left before it and its own phase. -/
private theorem fork_planned {plan : BranchPlan} (h : Planned recorded plan.phases plan.cursor)
    {start stop : ℕ} (hstart : plan.cursor ≤ start) (hstop : start ≤ stop) {shared routed : List ℕ}
    (hshared : shared ≠ []) (hrouted : routed ≠ []) (hperm : (shared ++ routed).Perm (span start stop))
    (hsorted : shared.Pairwise (· < ·)) (hsorted' : routed.Pairwise (· < ·))
    (hind : ∀ i ∈ shared, ∀ j ∈ routed, dependentAt recorded i j = false) :
    Planned recorded (plan.fork start stop (shared ++ routed) shared.length).phases stop := by
  have hserial := serialPhase_planned h hstart
  have hphase : PhaseShape recorded start ⟨shared ++ routed, true, some shared.length⟩ (stop - start) :=
    .branches hshared hrouted hperm hsorted hsorted' hind
  have hfork := hserial.snoc hphase
  rwa [Nat.add_sub_cancel' hstop] at hfork

private theorem finish_planned {plan : BranchPlan} (h : Planned recorded plan.phases plan.cursor)
    (hle : plan.cursor ≤ recorded.length) {error : PlanError} {phases : List Pm4PhasePlan}
    (hfinish : plan.finish recorded.length error = .ok phases) : Planned recorded phases recorded.length := by
  unfold BranchPlan.finish at hfinish
  split_ifs at hfinish
  cases hfinish
  exact serialPhase_planned h hle

/-- The chosen split is one of those that separate the branches. -/
private theorem bestSplit_some {zeroAt addAt split balance : ℕ}
    (h : bestSplit recorded zeroAt addAt = some (split, balance)) :
    zeroAt + 2 ≤ split ∧ split < addAt ∧ splitsBranches recorded zeroAt addAt split = true := by
  unfold bestSplit at h
  have hall : ∀ candidate ∈ span (zeroAt + 2) addAt, zeroAt + 2 ≤ candidate ∧ candidate < addAt :=
    fun candidate => mem_span.mp
  generalize span (zeroAt + 2) addAt = candidates at h hall
  induction candidates using List.reverseRecOn generalizing split balance with
  | nil => cases h
  | append_singleton candidates candidate ih =>
    rw [List.foldl_append, List.foldl_cons, List.foldl_nil] at h
    have hlast := hall candidate (by simp)
    have hprior {split balance : ℕ} (hfold : _ = some (split, balance)) :=
      ih hfold fun c hc => hall c (List.mem_append_left _ hc)
    generalize candidates.foldl _ none = best at h hprior
    split at h
    · exact hprior h
    · rename_i hsplits
      have hnew : splitsBranches recorded zeroAt addAt candidate = true := by simpa using hsplits
      dsimp only at h
      split at h
      · cases h
        exact ⟨hlast.1, hlast.2, hnew⟩
      · split at h
        · cases h
          exact ⟨hlast.1, hlast.2, hnew⟩
        · exact hprior h

private theorem span_length (start stop : ℕ) : (span start stop).length = stop - start :=
  List.length_range'

private theorem ffn_fork_planned {plan : BranchPlan} (h : Planned recorded plan.phases plan.cursor)
    {zeroAt addAt split : ℕ} (hzero : plan.cursor ≤ zeroAt) (hsplit : zeroAt + 2 ≤ split) (hadd : split < addAt)
    (hsplits : splitsBranches recorded zeroAt addAt split = true) :
    Planned recorded (plan.fork zeroAt addAt
      (span (zeroAt + 1) split ++ [zeroAt] ++ span split addAt) (split - (zeroAt + 1))).phases addAt := by
  simp only [splitsBranches, Bool.and_eq_true, launchRangesAreIndependent_iff] at hsplits
  obtain ⟨⟨-, hrouted⟩, hzeroed⟩ := hsplits
  have hwhole : span zeroAt addAt = [zeroAt] ++ (span (zeroAt + 1) split ++ span split addAt) := by
    rw [range'_span (by omega) (by omega), ← range'_span (Nat.le_succ zeroAt) (by omega)]
    simp [span]
  rw [List.append_assoc, ← span_length (zeroAt + 1) split]
  refine fork_planned h hzero (by omega) (span_ne_nil (by omega)) (by simp) ?_ (span_sorted _ _) ?_ ?_
  · rw [hwhole, ← List.append_assoc, ← List.append_assoc]
    exact List.perm_append_comm.append_right _
  · refine List.pairwise_cons.mpr ⟨fun j hj => ?_, span_sorted _ _⟩
    have := mem_span.mp hj
    omega
  · intro i hi j hj
    rcases List.mem_append.mp hj with hj | hj
    · obtain rfl := List.mem_singleton.mp hj
      rw [dependentAt_comm]
      exact hzeroed _ (List.mem_singleton_self _) i hi
    · exact hrouted i hi j hj

private theorem ffnBranches_planned {plan result : BranchPlan} (h : ffnBranches recorded plan = .ok result)
    (hplan : Planned recorded plan.phases plan.cursor) (hle : plan.cursor ≤ recorded.length) :
    Planned recorded result.phases result.cursor ∧ result.cursor ≤ recorded.length := by
  fun_induction ffnBranches recorded plan with
  | case1 =>
    cases h
    exact ⟨hplan, hle⟩
  | case2 | case3 | case4 => cases h
  | case5 plan zeroAt hzero addAt hadd _ split balance hsplit ih =>
    obtain ⟨hcursor, -⟩ := positionFrom_lt hzero
    obtain ⟨-, hlt⟩ := positionFrom_lt hadd
    obtain ⟨hstart, hstop, hsplits⟩ := bestSplit_some hsplit
    exact ih h (ffn_fork_planned hplan hcursor hstart hstop hsplits) hlt.le

theorem pm4Ds4FfnBranchPlan_planned {phases : List Pm4PhasePlan} (h : pm4Ds4FfnBranchPlan recorded = .ok phases) :
    Planned recorded phases recorded.length := by
  obtain ⟨plan, hplan, hfinish⟩ := bind_ok h
  obtain ⟨hphases, hle⟩ := ffnBranches_planned hplan .nil (Nat.zero_le _)
  exact finish_planned hphases hle hfinish

/-- The name of the join is none of those before it. -/
private theorem forkNames_routedDown : ∀ expected ∈ forkNames, expected routedDown = false := by
  decide

private theorem recognizedFork_get {start index : ℕ} (h : recognizedFork recorded start = true)
    (hstart : start ≤ index) (hindex : index < start + 11) {launch : RecordedHipLaunch}
    (hlaunch : recorded[index]? = some launch) : isRoutedDown launch = false := by
  obtain ⟨offset, rfl⟩ := Nat.exists_eq_add_of_le hstart
  have hoffset : offset < forkNames.length := by
    rw [show forkNames.length = 11 from rfl]
    omega
  have hmem : (forkNames[offset], offset) ∈ forkNames.zipIdx :=
    List.mk_mem_zipIdx_iff_getElem?.mpr (List.getElem?_eq_getElem hoffset)
  have hexpected := List.all_eq_true.mp h _ hmem
  dsimp only at hexpected
  rw [hlaunch, Option.any_some] at hexpected
  by_contra hdown
  have hname : launch.kernel = routedDown := by simpa [isRoutedDown] using hdown
  rw [hname, forkNames_routedDown _ (List.getElem_mem hoffset)] at hexpected
  cases hexpected

/-- The cursor of a batched plan stands at the start or at the last join. -/
private def AtJoin (recorded : List RecordedHipLaunch) (searchCursor : ℕ) (plan : BranchPlan) : Prop :=
  plan.cursor = 0 ∨ plan.cursor < searchCursor ∧
    ∃ launch, recorded[plan.cursor]? = some launch ∧ isRoutedDown launch = true

/-- A recognised fork starts behind the join before it, whose name it does not have. -/
private theorem AtJoin.le_fork {searchCursor down : ℕ} {plan : BranchPlan}
    (h : AtJoin recorded searchCursor plan) (hdown : searchCursor ≤ down)
    (hfork : recognizedFork recorded (down - 11) = true) (hlong : ¬ down < 11) :
    plan.cursor ≤ down - 11 := by
  rcases h with h | ⟨hlt, launch, hlaunch, hjoin⟩
  · omega
  · by_contra hle
    rw [recognizedFork_get hfork (by omega) (by omega) hlaunch] at hjoin
    cases hjoin

private theorem batchedFfnBranches_planned {searchCursor : ℕ} {plan result : BranchPlan}
    (h : batchedFfnBranches recorded searchCursor plan = .ok result)
    (hplan : Planned recorded plan.phases plan.cursor) (hle : plan.cursor ≤ recorded.length)
    (hjoin : AtJoin recorded searchCursor plan) :
    Planned recorded result.phases result.cursor ∧ result.cursor ≤ recorded.length := by
  fun_induction batchedFfnBranches recorded searchCursor plan with
  | case1 =>
    cases h
    exact ⟨hplan, hle⟩
  | case2 | case3 | case4 => cases h
  | case5 searchCursor plan down hdown hlong hfork hind ih =>
    obtain ⟨hsearch, hlt⟩ := positionFrom_lt hdown
    have hfork : recognizedFork recorded (down - 11) = true := by simpa using hfork
    have hind := launchRangesAreIndependent_iff.mp (by simpa using hind)
    have hcursor := hjoin.le_fork hsearch hfork hlong
    refine ih h ?_ hlt.le (.inr ⟨by simp [BranchPlan.fork], positionFrom_some hdown⟩)
    rw [← range'_span (show down - 11 ≤ down - 6 by omega) (Nat.sub_le _ _),
      ← span_length (down - 11) (down - 6)]
    exact fork_planned hplan hcursor (Nat.sub_le _ _) (span_ne_nil (by omega)) (span_ne_nil (by omega))
      (by rw [range'_span (by omega) (Nat.sub_le _ _)]) (span_sorted _ _) (span_sorted _ _) hind

theorem pm4Ds4BatchedFfnBranchPlan_planned {phases : List Pm4PhasePlan}
    (h : pm4Ds4BatchedFfnBranchPlan recorded = .ok phases) : Planned recorded phases recorded.length := by
  obtain ⟨plan, hplan, hfinish⟩ := bind_ok h
  obtain ⟨hphases, hle⟩ := batchedFfnBranches_planned hplan .nil (Nat.zero_le _) (.inl rfl)
  exact finish_planned hphases hle hfinish

end Branches

/-- Every plan tiles the tape. -/
theorem Planner.planned {recorded : List RecordedHipLaunch} {planner : Planner} {phases : List Pm4PhasePlan}
    (h : planner.plan recorded = .ok phases) : Planned recorded phases recorded.length := by
  cases planner with
  | phases width workgroups limit =>
    cases h
    exact pm4PhasePlan_planned recorded width workgroups limit
  | ffnBranches => exact pm4Ds4FfnBranchPlan_planned h
  | batchedFfnBranches => exact pm4Ds4BatchedFfnBranchPlan_planned h

end Hipscope.Replay
