import Mathlib.Algebra.BigOperators.Group.List.Basic
import Mathlib.Algebra.GroupWithZero.Nat
import Mathlib.Algebra.Order.BigOperators.Group.List
import Mathlib.Algebra.Order.Group.Nat
import Mathlib.Data.UInt
import Hipscope.Machine.Runs

/-! Admission of sessions against a memory budget. Sizes are `u64`: sums and products wrap. -/
namespace Hipscope.Residency
open Machine

structure ModelFootprint where
  weightsBytes : UInt64
  kvBytesPerToken : UInt64

inductive AdmitError where
  | poolFull
  | wouldExceedBudget (need available : UInt64)
  deriving DecidableEq

structure AdmissionController where
  footprint : ModelFootprint
  budgetBytes : UInt64
  admitted : List UInt64
  hostBudget : UInt64
  hostUsed : UInt64

def saturatingSub (x y : UInt64) : UInt64 := if y ≤ x then x - y else 0

def saturatingAdd (x y : UInt64) : UInt64 := if x.toNat + y.toNat < 2 ^ 64 then x + y else UInt64.ofNat (2 ^ 64 - 1)

namespace AdmissionController

/-- 16 GiB -/
def defaultHostBudgetBytes : UInt64 := 16 * 1024 * 1024 * 1024

def new (footprint : ModelFootprint) (budgetBytes : UInt64) : AdmissionController :=
  ⟨footprint, budgetBytes, [], defaultHostBudgetBytes, 0⟩

def usedBytes (a : AdmissionController) : UInt64 :=
  if a.admitted = [] then 0
  else a.footprint.weightsBytes + (a.admitted.map fun ctx => ctx * a.footprint.kvBytesPerToken).sum

def admitSession (a : AdmissionController) (requestedCtx : UInt64) : Except AdmitError UInt64 × AdmissionController :=
  let kvNeed := requestedCtx * a.footprint.kvBytesPerToken
  let weightsNeed := if a.admitted = [] then a.footprint.weightsBytes else 0
  let need := kvNeed + weightsNeed
  let available := saturatingSub a.budgetBytes a.usedBytes
  if need ≥ available then (.error (.wouldExceedBudget need available), a)
  else (.ok requestedCtx, { a with admitted := a.admitted ++ [requestedCtx] })

def admitHost (a : AdmissionController) (bytes : UInt64) : Bool × AdmissionController :=
  if saturatingAdd a.hostUsed bytes > a.hostBudget then (false, a)
  else (true, { a with hostUsed := a.hostUsed + bytes })

def releaseHost (a : AdmissionController) (bytes : UInt64) : AdmissionController :=
  { a with hostUsed := saturatingSub a.hostUsed bytes }

def setHostBudget (a : AdmissionController) (bytes : UInt64) : AdmissionController := { a with hostBudget := bytes }

def release (a : AdmissionController) (grantedCtx : UInt64) : AdmissionController :=
  { a with admitted := a.admitted.erase grantedCtx }

/-- What a caller can do. -/
inductive Call where
  | admitSession (requestedCtx : UInt64)
  | release (grantedCtx : UInt64)
  | admitHost (bytes : UInt64)
  | releaseHost (bytes : UInt64)
  | setHostBudget (bytes : UInt64)

def apply (a : AdmissionController) : Call → AdmissionController
  | .admitSession ctx => (a.admitSession ctx).2
  | .release ctx => a.release ctx
  | .admitHost bytes => (a.admitHost bytes).2
  | .releaseHost bytes => a.releaseHost bytes
  | .setHostBudget bytes => a.setHostBudget bytes

def step (a : AdmissionController) (c : Call) : Option (AdmissionController × List Unit) := some (a.apply c, [])

section Exact
variable {a : AdmissionController} {ctx : UInt64}

/-- The KV bytes of the admitted sessions, in unbounded integers. -/
def exactKv (a : AdmissionController) : ℕ :=
  (a.admitted.map fun ctx => ctx.toNat * a.footprint.kvBytesPerToken.toNat).sum

def exactUsed (a : AdmissionController) : ℕ :=
  if a.admitted = [] then 0 else a.footprint.weightsBytes.toNat + a.exactKv

/-- What one more session adds. -/
def exactNeed (a : AdmissionController) (ctx : UInt64) : ℕ :=
  ctx.toNat * a.footprint.kvBytesPerToken.toNat + if a.admitted = [] then a.footprint.weightsBytes.toNat else 0

/-- With a session admitted, weights and KV stay below the budget. -/
def Within (a : AdmissionController) : Prop :=
  a.admitted ≠ [] → a.footprint.weightsBytes.toNat + a.exactKv < a.budgetBytes.toNat

/-- The request does not wrap around to less than what is left. -/
def Unwrapped (a : AdmissionController) : Call → Prop
  | .admitSession ctx => a.exactNeed ctx < 2 ^ 64 ∨ a.budgetBytes.toNat - a.exactUsed ≤ a.exactNeed ctx % 2 ^ 64
  | _ => True

private theorem sum_toNat (l : List UInt64) (kv : UInt64) :
    (l.map fun ctx => ctx * kv).sum.toNat = (l.map fun ctx => ctx.toNat * kv.toNat).sum % 2 ^ 64 := by
  induction l with
  | nil => rfl
  | cons ctx l ih =>
    rw [List.map_cons, List.sum_cons, List.map_cons, List.sum_cons, UInt64.toNat_add, ih, UInt64.toNat_mul,
      ← Nat.add_mod]

private theorem usedBytes_toNat (a : AdmissionController) : a.usedBytes.toNat = a.exactUsed % 2 ^ 64 := by
  rw [usedBytes, exactUsed]
  split
  · rfl
  · rw [UInt64.toNat_add, sum_toNat, Nat.add_mod_mod, exactKv]

private theorem need_toNat (a : AdmissionController) (ctx : UInt64) :
    (ctx * a.footprint.kvBytesPerToken + if a.admitted = [] then a.footprint.weightsBytes else 0).toNat =
      a.exactNeed ctx % 2 ^ 64 := by
  rw [UInt64.toNat_add, UInt64.toNat_mul, Nat.mod_add_mod, exactNeed]
  split <;> rfl

private theorem saturatingSub_toNat (x y : UInt64) : (saturatingSub x y).toNat = x.toNat - y.toNat := by
  rw [saturatingSub]
  split
  · next hle => exact UInt64.toNat_sub_of_le _ _ hle
  · next hle =>
    have hlt : x.toNat < y.toNat := Nat.lt_of_not_le hle
    rw [Nat.sub_eq_zero_of_le hlt.le]
    rfl

theorem Within.used_lt (h : a.Within) : a.exactUsed < 2 ^ 64 := by
  rw [exactUsed]
  split
  · exact Nat.two_pow_pos 64
  · next hne => exact Nat.lt_trans (h hne) a.budgetBytes.toNat_lt

/-- A request is granted when what it seems to need fits what is left. -/
theorem admit_eq (h : a.Within) : a.admitSession ctx =
    if a.budgetBytes.toNat - a.exactUsed ≤ a.exactNeed ctx % 2 ^ 64 then
      (.error (.wouldExceedBudget
        (ctx * a.footprint.kvBytesPerToken + if a.admitted = [] then a.footprint.weightsBytes else 0)
        (saturatingSub a.budgetBytes a.usedBytes)), a)
    else (.ok ctx, { a with admitted := a.admitted ++ [ctx] }) := by
  have havailable : (saturatingSub a.budgetBytes a.usedBytes).toNat = a.budgetBytes.toNat - a.exactUsed := by
    rw [saturatingSub_toNat, usedBytes_toNat, Nat.mod_eq_of_lt h.used_lt]
  rw [admitSession, ← need_toNat, ← havailable]
  rfl

private theorem exactKv_push (a : AdmissionController) (ctx : UInt64) :
    exactKv { a with admitted := a.admitted ++ [ctx] } =
      a.exactKv + ctx.toNat * a.footprint.kvBytesPerToken.toNat := by
  simp [exactKv]

private theorem exact_push (a : AdmissionController) (ctx : UInt64) :
    a.footprint.weightsBytes.toNat + exactKv { a with admitted := a.admitted ++ [ctx] } =
      a.exactUsed + a.exactNeed ctx := by
  rw [exactKv_push, exactUsed, exactNeed]
  split
  · next hnil =>
    have hkv : a.exactKv = 0 := by rw [exactKv, hnil]; rfl
    omega
  · omega

/-- One admission keeps the budget exactly when the request does not wrap. -/
theorem admit_within_iff (h : a.Within) : (a.admitSession ctx).2.Within ↔ a.Unwrapped (.admitSession ctx) := by
  rw [admit_eq h, Unwrapped]
  split
  · next hreject => exact ⟨fun _ => .inr hreject, fun _ => h⟩
  · next hgrant =>
    have hbudget := a.budgetBytes.toNat_lt
    have hnew : Within { a with admitted := a.admitted ++ [ctx] } ↔
        a.exactUsed + a.exactNeed ctx < a.budgetBytes.toNat := by
      rw [Within, ← exact_push]
      exact ⟨fun hw => hw (by simp), fun hlt _ => hlt⟩
    rw [hnew]
    constructor
    · intro hlt
      exact .inl (by omega)
    · rintro (hsmall | hreject)
      · rw [Nat.mod_eq_of_lt hsmall] at hgrant
        omega
      · exact absurd hreject hgrant

theorem release_within (h : a.Within) (ctx : UInt64) : (a.release ctx).Within := by
  intro hne
  have hsub : (a.admitted.erase ctx).Sublist a.admitted := List.erase_sublist
  have hsome : a.admitted ≠ [] := by
    intro hnil
    rw [release, hnil] at hne
    exact hne rfl
  have hle : (a.release ctx).exactKv ≤ a.exactKv :=
    List.Sublist.sum_le_sum (hsub.map _) fun _ _ => Nat.zero_le _
  exact Nat.lt_of_le_of_lt (Nat.add_le_add_left hle _) (h hsome)

theorem apply_within (h : a.Within) {c : Call} (hc : a.Unwrapped c) : (a.apply c).Within := by
  cases c with
  | admitSession ctx => exact (admit_within_iff h).2 hc
  | release ctx => exact release_within h ctx
  | admitHost bytes =>
    rw [apply, admitHost]
    split
    · exact h
    · exact h
  | releaseHost bytes => exact h
  | setHostBudget bytes => exact h

/-- A rejected request and a release of an unknown length change nothing. -/
theorem admit_rejected {e : AdmitError} (h : (a.admitSession ctx).1 = .error e) : (a.admitSession ctx).2 = a := by
  by_cases hreject : (ctx * a.footprint.kvBytesPerToken + if a.admitted = [] then a.footprint.weightsBytes else 0) ≥
      saturatingSub a.budgetBytes a.usedBytes
  · rw [admitSession, if_pos hreject]
  · rw [admitSession, if_neg hreject] at h
    cases h

theorem release_unknown (h : ctx ∉ a.admitted) : a.release ctx = a := by
  rw [release, List.erase_of_not_mem h]

end Exact

/-- In a run whose requests do not wrap, the budget holds throughout, and what is rejected changes nothing. -/
theorem admissions_within {footprint : ModelFootprint} {budgetBytes : UInt64} {calls : List Call}
    {outputs : List Unit} {a : AdmissionController}
    (h : Runs step Unwrapped (new footprint budgetBytes) calls outputs a) :
    a.Within ∧ (∀ ctx e, (a.admitSession ctx).1 = .error e → a.apply (.admitSession ctx) = a) ∧
      ∀ ctx ∉ a.admitted, a.apply (.release ctx) = a := by
  refine ⟨?_, fun ctx e => admit_rejected, fun ctx => release_unknown⟩
  refine h.state_invariant (fun hne => absurd rfl hne) fun a c next emitted hw hc hstep => ?_
  obtain ⟨rfl, rfl⟩ := Prod.mk.inj (Option.some.inj hstep)
  exact apply_within hw hc

/-- 15 GiB of weights and 34 KiB of KV per token. -/
def footprint27b : ModelFootprint := ⟨15 * 1024 * 1024 * 1024, 34 * 1024⟩

theorem admissions_within_pair :
    ((new footprint27b (32 * 1024 * 1024 * 1024)).apply (.admitSession 1024)).apply (.admitSession 131072) |>.Within := by
  have hfirst : Runs step Unwrapped (new footprint27b (32 * 1024 * 1024 * 1024))
      ([] ++ [.admitSession 1024] ++ [.admitSession 131072])
      ([] ++ [] ++ []) (((new footprint27b (32 * 1024 * 1024 * 1024)).apply (.admitSession 1024)).apply (.admitSession 131072)) :=
    .snoc (.snoc .nil (.inl (by decide +kernel)) rfl) (.inl (by decide +kernel)) rfl
  exact (admissions_within hfirst).1

/-- A context of 2^53 tokens needs 17·2^64 bytes, which wrap to none. -/
theorem overflowing_request_admitted :
    ((new footprint27b (32 * 1024 * 1024 * 1024)).admitSession (2 ^ 53)).1 = .ok (2 ^ 53) ∧
      ¬ ((new footprint27b (32 * 1024 * 1024 * 1024)).admitSession (2 ^ 53)).2.Within := by
  refine ⟨by decide +kernel, fun h => ?_⟩
  exact absurd (h (by decide +kernel)) (by decide +kernel)

end AdmissionController
end Hipscope.Residency
