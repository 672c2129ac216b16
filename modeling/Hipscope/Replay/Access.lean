import Hipscope.Redline.Ir

/-! Recorded launches with the allocations they touch, and the frontier of
accesses that may still be in flight since the last compute-idle wait. -/
namespace Hipscope.Replay
open Redline

inductive RecordedAccessMode where
  | read
  | write
  deriving DecidableEq, Repr

/-- An allocation-wide access. The end of an allocation is a 64-bit address. -/
structure RecordedResourceAccess where
  allocationBase : ℕ
  allocationBytes : ℕ
  mode : RecordedAccessMode
  inRange : allocationBase + allocationBytes < 2 ^ 64

namespace RecordedResourceAccess

def new (base bytes : ℕ) (mode : RecordedAccessMode) : Option RecordedResourceAccess :=
  if h : base + bytes < 2 ^ 64 then some ⟨base, bytes, mode, h⟩ else none

def «end» (a : RecordedResourceAccess) : ℕ := a.allocationBase + a.allocationBytes

def conflicts (a b : RecordedResourceAccess) : Bool :=
  decide (a.allocationBase < b.end) && decide (b.allocationBase < a.end) &&
    (decide (a.mode = .write) || decide (b.mode = .write))

/-- The byte belongs to the accessed allocation. -/
def Touches (a : RecordedResourceAccess) (address : ℕ) : Prop :=
  a.allocationBase ≤ address ∧ address < a.end

theorem conflicts_of_touches {a b : RecordedResourceAccess} {address : ℕ} (ha : a.Touches address)
    (hb : b.Touches address) (hw : a.mode = .write ∨ b.mode = .write) : a.conflicts b = true := by
  have hab : a.allocationBase < b.end := lt_of_le_of_lt ha.1 hb.2
  have hba : b.allocationBase < a.end := lt_of_le_of_lt hb.1 ha.2
  simpa [conflicts, hab, hba] using hw

theorem conflicts_comm (a b : RecordedResourceAccess) : a.conflicts b = b.conflicts a := by
  simp only [conflicts]
  rw [Bool.and_comm (decide (a.allocationBase < b.end)), Bool.or_comm]

end RecordedResourceAccess

/-- Narrows one axis of the recorded grid by the decode position. -/
inductive ReplayGridBinding where
  | positionCeilDiv (axis addend divisor : ℕ)
  deriving DecidableEq, Repr

/-- A captured launch; missing accesses keep it serialized. -/
structure RecordedHipLaunch where
  kernel : String
  artifact : Option String
  grid : Dim3
  block : Dim3
  sharedMem : ℕ
  gridBinding : Option ReplayGridBinding
  kernarg : List UInt8
  accesses : Option (List RecordedResourceAccess)

def anyConflict (left right : List RecordedResourceAccess) : Bool :=
  left.any fun a => right.any fun b => a.conflicts b

def launchesAreIndependent (left right : RecordedHipLaunch) : Bool :=
  match left.accesses, right.accesses with
  | some left, some right => !anyConflict left right
  | _, _ => false

/-- One launch has unknown accesses, or both touch a common byte that one of
them writes. -/
def Conflicting (left right : RecordedHipLaunch) : Prop :=
  left.accesses = none ∨ right.accesses = none ∨
    ∃ ls rs, left.accesses = some ls ∧ right.accesses = some rs ∧ ∃ a ∈ ls, ∃ b ∈ rs,
      (∃ address, a.Touches address ∧ b.Touches address) ∧ (a.mode = .write ∨ b.mode = .write)

theorem Conflicting.dependent {left right : RecordedHipLaunch} (h : Conflicting left right) :
    launchesAreIndependent left right = false := by
  rcases h with h | h | ⟨ls, rs, hl, hr, a, ha, b, hb, ⟨address, hta, htb⟩, hw⟩
  · simp [launchesAreIndependent, h]
  · rw [launchesAreIndependent, h]
    cases left.accesses <;> rfl
  · simp only [launchesAreIndependent, hl, hr, Bool.not_eq_false', anyConflict, List.any_eq_true]
    exact ⟨a, ha, b, hb, RecordedResourceAccess.conflicts_of_touches hta htb hw⟩

theorem launchesAreIndependent_comm (left right : RecordedHipLaunch) :
    launchesAreIndependent left right = launchesAreIndependent right left := by
  unfold launchesAreIndependent
  cases left.accesses with
  | none => cases right.accesses <;> rfl
  | some ls =>
    cases right.accesses with
    | none => rfl
    | some rs =>
      simp only [anyConflict]
      rw [Bool.not_inj_iff, Bool.eq_iff_iff]
      simp only [List.any_eq_true]
      constructor
      · rintro ⟨a, ha, b, hb, h⟩
        exact ⟨b, hb, a, ha, by rwa [RecordedResourceAccess.conflicts_comm]⟩
      · rintro ⟨b, hb, a, ha, h⟩
        exact ⟨a, ha, b, hb, by rwa [RecordedResourceAccess.conflicts_comm]⟩

/-- The accesses since the last wait, if all of them are known. -/
structure ResourceFrontier where
  accesses : List RecordedResourceAccess
  known : Bool

namespace ResourceFrontier

def default : ResourceFrontier := ⟨[], false⟩

def independent (frontier : ResourceFrontier) (current : RecordedHipLaunch) : Bool :=
  match current.accesses with
  | none => false
  | some current => frontier.known && !anyConflict frontier.accesses current

def advance (frontier : ResourceFrontier) (current : RecordedHipLaunch) (independent : Bool) :
    ResourceFrontier :=
  let frontier := if independent then frontier else ⟨[], true⟩
  match current.accesses with
  | none => ⟨[], false⟩
  | some current => ⟨frontier.accesses ++ current, frontier.known⟩

/-- A known frontier holds every access of the pending launches; a frontier
with an unknown pending launch is not known. -/
def Covers (frontier : ResourceFrontier) (pending : List RecordedHipLaunch) : Prop :=
  frontier.known = true → ∀ launch ∈ pending, ∃ ls, launch.accesses = some ls ∧
    ∀ a ∈ ls, a ∈ frontier.accesses

/-- A launch found independent conflicts with no pending launch. -/
theorem Covers.independent {frontier : ResourceFrontier} {pending : List RecordedHipLaunch}
    {current : RecordedHipLaunch} (h : frontier.Covers pending)
    (hi : frontier.independent current = true) :
    ∀ launch ∈ pending, launchesAreIndependent launch current = true := by
  intro launch hl
  unfold ResourceFrontier.independent at hi
  cases hc : current.accesses with
  | none => simp [hc] at hi
  | some rs =>
    simp only [hc, Bool.and_eq_true, Bool.not_eq_true'] at hi
    obtain ⟨ls, hls, hsub⟩ := h hi.1 launch hl
    simp only [launchesAreIndependent, hls, hc, Bool.not_eq_true']
    rw [Bool.eq_false_iff] at hi ⊢
    intro hany
    simp only [anyConflict, List.any_eq_true] at hany
    obtain ⟨a, ha, b, hb, hab⟩ := hany
    refine hi.2 ?_
    simp only [anyConflict, List.any_eq_true]
    exact ⟨a, hsub a ha, b, hb, hab⟩

/-- What is pending after a launch: a wait before it empties the list. -/
theorem Covers.advance {frontier : ResourceFrontier} {pending : List RecordedHipLaunch}
    (h : frontier.Covers pending) (current : RecordedHipLaunch) (independent : Bool) :
    (frontier.advance current independent).Covers
      (current :: if independent then pending else []) := by
  intro hknown launch hl
  cases hc : current.accesses with
  | none => simp [ResourceFrontier.advance, hc] at hknown
  | some rs =>
    simp only [ResourceFrontier.advance, hc] at hknown ⊢
    rcases List.mem_cons.mp hl with rfl | hl
    · exact ⟨rs, hc, fun a ha => List.mem_append_right _ ha⟩
    · cases independent with
      | false => simp at hl
      | true =>
        obtain ⟨ls, hls, hsub⟩ := h hknown launch hl
        exact ⟨ls, hls, fun a ha => List.mem_append_left _ (hsub a ha)⟩

end ResourceFrontier
end Hipscope.Replay
