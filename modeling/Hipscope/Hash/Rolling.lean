import Mathlib.Data.ZMod.Basic
import Mathlib.Tactic.Ring

/-! Polynomial hashes of windows, the rolling update of one, and machine words seen in the residues of a divisor. -/
namespace Hipscope.Hash

section Poly
variable {R : Type*} [CommRing R] (base : R)

def poly (ts : List R) : R := ts.foldl (fun h t => h * base + t) 0

/-- Drop `old` on the left, append `new` on the right. -/
def roll (power h old new : R) : R := (h - old * power) * base + new

theorem poly_snoc (ts : List R) (t : R) : poly base (ts ++ [t]) = poly base ts * base + t := by
  rw [poly, List.foldl_append]
  rfl

theorem poly_cons (t : R) (ts : List R) : poly base (t :: ts) = t * base ^ ts.length + poly base ts := by
  induction ts using List.reverseRecOn with
  | nil => simp [poly]
  | append_singleton ts u ih =>
    rw [← List.cons_append, poly_snoc, ih, poly_snoc, List.length_append, List.length_singleton, pow_succ]
    ring

/-- A wrong power leaves its error in the hash. -/
theorem roll_poly (power t u : R) (ts : List R) :
    roll base power (poly base (t :: ts)) t u = poly base (ts ++ [u]) + t * (base ^ ts.length - power) * base := by
  rw [roll, poly_cons, poly_snoc]
  ring

end Poly

section Residue
variable {c : ℕ}

def residue (c : ℕ) (a : UInt64) : ZMod c := (a.toNat : ZMod c)

theorem residue_eq_iff {a b : UInt64} : residue c a = residue c b ↔ a.toNat % c = b.toNat % c :=
  ZMod.natCast_eq_natCast_iff' _ _ _

private theorem residue_word (hc : c ∣ 2 ^ 64) (x : ℕ) : ((x % 2 ^ 64 : ℕ) : ZMod c) = x :=
  (ZMod.natCast_eq_natCast_iff _ _ _).mpr ((Nat.mod_modEq x (2 ^ 64)).of_dvd hc)

theorem residue_add (hc : c ∣ 2 ^ 64) (a b : UInt64) : residue c (a + b) = residue c a + residue c b := by
  rw [residue, UInt64.toNat_add, residue_word hc, Nat.cast_add]
  rfl

theorem residue_mul (hc : c ∣ 2 ^ 64) (a b : UInt64) : residue c (a * b) = residue c a * residue c b := by
  rw [residue, UInt64.toNat_mul, residue_word hc, Nat.cast_mul]
  rfl

theorem residue_sub (hc : c ∣ 2 ^ 64) (a b : UInt64) : residue c (a - b) = residue c a - residue c b := by
  have hsum : residue c (a - b) + residue c b = residue c a := by rw [← residue_add hc, UInt64.sub_add_cancel]
  rw [← hsum, add_sub_cancel_right]

theorem residue_pow (hc : c ∣ 2 ^ 64) (a : UInt64) (n : ℕ) : residue c (a ^ n) = residue c a ^ n := by
  induction n with
  | zero => simp [residue]
  | succ n ih => rw [UInt64.pow_succ, residue_mul hc, ih, pow_succ]

end Residue
end Hipscope.Hash
