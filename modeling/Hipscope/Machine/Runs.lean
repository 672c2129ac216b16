import Mathlib.Data.List.Basic
import Mathlib.Logic.Function.Basic
import Mathlib.Data.Option.Basic
import Mathlib.Tactic

/-! Runs of a machine that consumes labels and emits outputs. A step that is
not enabled answers `none`; a guard restricts the steps a run may take. -/
namespace Hipscope.Machine
variable {σ α ω : Type*} {step : σ → α → Option (σ × List ω)} {guard : σ → α → Prop} {start : σ}

inductive Runs (step : σ → α → Option (σ × List ω)) (guard : σ → α → Prop) (start : σ) :
    List α → List ω → σ → Prop
  | nil : Runs step guard start [] [] start
  | snoc {labels : List α} {outputs emitted : List ω} {state next : σ} {label : α} :
    Runs step guard start labels outputs state → guard state label →
    step state label = some (next, emitted) →
    Runs step guard start (labels ++ [label]) (outputs ++ emitted) next

namespace Runs

/-- What holds at the start and is kept by every enabled step holds after any run. -/
theorem invariant {P : List ω → σ → Prop} (h0 : P [] start)
    (hstep : ∀ outputs state label next emitted, P outputs state → guard state label →
      step state label = some (next, emitted) → P (outputs ++ emitted) next)
    {labels : List α} {outputs : List ω} {state : σ} (h : Runs step guard start labels outputs state) :
    P outputs state := by
  induction h with
  | nil => exact h0
  | snoc _ hguard hnext ih => exact hstep _ _ _ _ _ ih hguard hnext

/-- The same for a property of states alone. -/
theorem state_invariant {P : σ → Prop} (h0 : P start)
    (hstep : ∀ state label next emitted, P state → guard state label →
      step state label = some (next, emitted) → P next)
    {labels : List α} {outputs : List ω} {state : σ} (h : Runs step guard start labels outputs state) :
    P state :=
  h.invariant (P := fun _ => P) h0 fun _ state label next emitted hp =>
    hstep state label next emitted hp

theorem mono {weaker : σ → α → Prop} (hw : ∀ state label, guard state label → weaker state label)
    {labels : List α} {outputs : List ω} {state : σ} (h : Runs step guard start labels outputs state) :
    Runs step weaker start labels outputs state := by
  induction h with
  | nil => exact .nil
  | snoc _ hguard hnext ih => exact ih.snoc (hw _ _ hguard) hnext

/-- The outputs of a list of labels and the state after them, if every step is enabled. -/
def follow (step : σ → α → Option (σ × List ω)) : σ → List α → Option (List ω × σ)
  | state, [] => some ([], state)
  | state, label :: labels => do
    let (next, emitted) ← step state label
    let (outputs, last) ← follow step next labels
    return (emitted ++ outputs, last)

/-- The guard allows every label where it comes. -/
def Allowed (step : σ → α → Option (σ × List ω)) (guard : σ → α → Prop) : σ → List α → Prop
  | _, [] => True
  | state, label :: labels =>
    guard state label ∧ ∀ next emitted, step state label = some (next, emitted) → Allowed step guard next labels

theorem allowed_of_forall {labels : List α} (h : ∀ state, ∀ label ∈ labels, guard state label) (state : σ) :
    Allowed step guard state labels := by
  induction labels generalizing state with
  | nil => trivial
  | cons label labels ih =>
    exact ⟨h state label List.mem_cons_self, fun next _ _ =>
      ih (fun state l hl => h state l (List.mem_cons_of_mem _ hl)) next⟩

/-- Labels that can be followed are a run. -/
theorem append_follow {labels more : List α} {outputs : List ω} {state : σ}
    (h : Runs step guard start labels outputs state) (hallowed : Allowed step guard state more)
    {result : List ω × σ} (hfollow : follow step state more = some result) :
    Runs step guard start (labels ++ more) (outputs ++ result.1) result.2 := by
  induction more generalizing labels outputs state result with
  | nil =>
    cases hfollow
    simpa using h
  | cons label more ih =>
    obtain ⟨⟨next, emitted⟩, hstep, hfollow⟩ := Option.bind_eq_some_iff.mp hfollow
    obtain ⟨rest, hrest, heq⟩ := Option.bind_eq_some_iff.mp hfollow
    cases heq
    have hrun := ih (h.snoc hallowed.1 hstep) (hallowed.2 next emitted hstep) hrest
    rwa [List.append_assoc, List.append_assoc, List.singleton_append] at hrun

/-- The outputs of a run that can be followed. -/
theorem of_follow {labels : List α} (hallowed : Allowed step guard start labels) {outputs : List ω}
    (hfollow : (follow step start labels).map Prod.fst = some outputs) :
    ∃ state, Runs step guard start labels outputs state := by
  obtain ⟨⟨emitted, state⟩, hresult, rfl⟩ := Option.map_eq_some_iff.mp hfollow
  have hnil : Runs step guard start [] [] start := .nil
  exact ⟨state, by simpa using hnil.append_follow hallowed hresult⟩

end Runs
end Hipscope.Machine

/-! Safety of traces, event by event: a monitor follows the events and says
which ones it allows next. -/
namespace Hipscope.Machine
variable {σ ε : Type*}

structure Monitor (σ ε : Type*) where
  track : σ → ε → σ
  Allows : σ → ε → Prop

namespace Monitor
variable {m : Monitor σ ε} {s : σ} {trace emitted : List ε}

def after (m : Monitor σ ε) (s : σ) (trace : List ε) : σ := trace.foldl m.track s

/-- Every event of the trace was allowed when it came. -/
def Safe (m : Monitor σ ε) : σ → List ε → Prop
  | _, [] => True
  | s, event :: rest => m.Allows s event ∧ m.Safe (m.track s event) rest

theorem after_append : m.after s (trace ++ emitted) = m.after (m.after s trace) emitted :=
  List.foldl_append

theorem safe_append :
    m.Safe s (trace ++ emitted) ↔ m.Safe s trace ∧ m.Safe (m.after s trace) emitted := by
  induction trace generalizing s with
  | nil => simp [Safe, after]
  | cons event trace ih =>
    rw [List.cons_append, Safe, Safe, ih, and_assoc]
    rfl

/-- What every event keeps, and what makes it allowed, carries through a trace. -/
theorem keeps {P : σ → Prop}
    (hP : ∀ s, ∀ event ∈ emitted, P s → m.Allows s event ∧ P (m.track s event)) (hs : P s) :
    m.Safe s emitted ∧ P (m.after s emitted) := by
  induction emitted generalizing s with
  | nil => exact ⟨trivial, hs⟩
  | cons event emitted ih =>
    obtain ⟨hallowed, hnext⟩ := hP s event List.mem_cons_self hs
    obtain ⟨hsafe, hlast⟩ := ih (fun s event hmem => hP s event (List.mem_cons_of_mem _ hmem)) hnext
    exact ⟨⟨hallowed, hsafe⟩, hlast⟩

/-- Whatever came before an event, the event was allowed. -/
theorem Safe.at {before rest : List ε} {event : ε} (h : m.Safe s (before ++ event :: rest)) :
    m.Allows (m.after s before) event :=
  (safe_append.mp h).2.1

end Monitor
end Hipscope.Machine

/-! A pool of numbered slots leased to holders. At most one slot may be
reserved: taken from the pool and not yet given to a holder. -/
namespace Hipscope.Machine
variable {ι : Type*} {n : ℕ} {holder : ι → Option ℕ} {inUse : ℕ → Bool} {reserved : Option ℕ} {s : ℕ}

/-- Every used slot has one holder, but for the reserved one. -/
structure Leased (n : ℕ) (holder : ι → Option ℕ) (inUse : ℕ → Bool) (reserved : Option ℕ) : Prop where
  held : ∀ i s, holder i = some s → s < n ∧ inUse s = true ∧ reserved ≠ some s
  used : ∀ s < n, inUse s = true → reserved = some s ∨ ∃ i, holder i = some s
  unique : ∀ i j s, holder i = some s → holder j = some s → i = j
  reserve : ∀ s, reserved = some s → s < n ∧ inUse s = true

namespace Leased

theorem inUse_iff (h : Leased n holder inUse none) (hs : s < n) :
    inUse s = true ↔ ∃! i, holder i = some s := by
  constructor
  · intro hu
    obtain hr | ⟨i, hi⟩ := h.used s hs hu
    · cases hr
    · exact ⟨i, hi, fun j hj => h.unique j i s hj hi⟩
  · rintro ⟨i, hi, -⟩
    exact (h.held i s hi).2.1

/-- Take a free slot from the pool. -/
theorem acquire (h : Leased n holder inUse none) (hs : s < n) (hfree : inUse s = false) :
    Leased n holder (Function.update inUse s true) (some s) where
  held i t ht := by
    obtain ⟨htn, hu, -⟩ := h.held i t ht
    have hne : t ≠ s := by
      rintro rfl
      simp [hfree] at hu
    exact ⟨htn, by rwa [Function.update_of_ne hne], fun hst => hne (Option.some.inj hst).symm⟩
  used t htn hu := by
    by_cases hts : t = s
    · exact .inl (congrArg some hts.symm)
    · rw [Function.update_of_ne hts] at hu
      exact .inr ((h.used t htn hu).resolve_left (by simp))
  unique := h.unique
  reserve t ht := by
    obtain rfl := Option.some.inj ht
    exact ⟨hs, Function.update_self _ _ _⟩

/-- Return the reserved slot. -/
theorem release (h : Leased n holder inUse (some s)) :
    Leased n holder (Function.update inUse s false) none where
  held i t ht := by
    obtain ⟨htn, hu, hr⟩ := h.held i t ht
    have hne : t ≠ s := by
      rintro rfl
      exact hr rfl
    exact ⟨htn, by rwa [Function.update_of_ne hne], by simp⟩
  used t htn hu := by
    by_cases hts : t = s
    · simp [hts] at hu
    · rw [Function.update_of_ne hts] at hu
      exact .inr ((h.used t htn hu).resolve_left fun hst => hts (Option.some.inj hst).symm)
  unique := h.unique
  reserve t ht := by cases ht

variable [DecidableEq ι] {i : ι}

/-- Give the reserved slot to a holder that has none. -/
theorem grant (h : Leased n holder inUse (some s)) (hnone : holder i = none) :
    Leased n (Function.update holder i (some s)) inUse none where
  held j t ht := by
    by_cases hj : j = i
    · subst hj
      rw [Function.update_self] at ht
      obtain rfl := Option.some.inj ht
      exact ⟨(h.reserve s rfl).1, (h.reserve s rfl).2, by simp⟩
    · rw [Function.update_of_ne hj] at ht
      exact ⟨(h.held j t ht).1, (h.held j t ht).2.1, by simp⟩
  used t htn hu := by
    refine .inr ?_
    obtain ht | ⟨j, hj⟩ := h.used t htn hu
    · obtain rfl := Option.some.inj ht
      exact ⟨i, Function.update_self _ _ _⟩
    · have hne : j ≠ i := by
        rintro rfl
        simp [hnone] at hj
      exact ⟨j, by rwa [Function.update_of_ne hne]⟩
  unique j k t hj hk := by
    have hother : ∀ x, x ≠ i → Function.update holder i (some s) x = some t → t ≠ s := by
      rintro x hx hxt rfl
      rw [Function.update_of_ne hx] at hxt
      exact (h.held x t hxt).2.2 rfl
    by_cases hji : j = i <;> by_cases hki : k = i
    · rw [hji, hki]
    · subst hji
      rw [Function.update_self] at hj
      exact absurd (Option.some.inj hj).symm (hother k hki hk)
    · subst hki
      rw [Function.update_self] at hk
      exact absurd (Option.some.inj hk).symm (hother j hji hj)
    · rw [Function.update_of_ne hji] at hj
      rw [Function.update_of_ne hki] at hk
      exact h.unique j k t hj hk
  reserve t ht := by cases ht

/-- Take a holder's slot away and return it to the pool. -/
theorem revoke (h : Leased n holder inUse reserved) (hi : holder i = some s) :
    Leased n (Function.update holder i none) (Function.update inUse s false) reserved where
  held j t ht := by
    have hji : j ≠ i := by
      rintro rfl
      simp at ht
    rw [Function.update_of_ne hji] at ht
    obtain ⟨htn, hu, hr⟩ := h.held j t ht
    have hne : t ≠ s := by
      rintro rfl
      exact hji (h.unique j i t ht hi)
    exact ⟨htn, by rwa [Function.update_of_ne hne], hr⟩
  used t htn hu := by
    have hne : t ≠ s := by
      rintro rfl
      simp at hu
    rw [Function.update_of_ne hne] at hu
    refine (h.used t htn hu).imp_right fun ⟨j, hj⟩ => ⟨j, ?_⟩
    have hji : j ≠ i := by
      rintro rfl
      exact hne (Option.some.inj (hj.symm.trans hi))
    rwa [Function.update_of_ne hji]
  unique j k t hj hk := by
    have hji : j ≠ i := by
      rintro rfl
      simp at hj
    have hki : k ≠ i := by
      rintro rfl
      simp at hk
    rw [Function.update_of_ne hji] at hj
    rw [Function.update_of_ne hki] at hk
    exact h.unique j k t hj hk
  reserve t ht := by
    obtain ⟨htn, hu⟩ := h.reserve t ht
    have hne : t ≠ s := by
      rintro rfl
      exact (h.held i t hi).2.2 ht
    exact ⟨htn, by rwa [Function.update_of_ne hne]⟩

end Leased
end Hipscope.Machine
