import Mathlib.Algebra.BigOperators.Group.Finset.Basic
import Mathlib.Algebra.Order.BigOperators.Group.Finset
import Mathlib.Algebra.Group.Int.Even
import Mathlib.Algebra.Order.Field.Basic
import Mathlib.Tactic.Linarith
import Mathlib.Tactic.Ring

/-! Nearest points: of a union, of a translate, and of the integer vectors with an even sum. -/
namespace Hipscope.Points
open Finset

variable {ι K : Type} [Fintype ι] [Field K] [LinearOrder K] [IsStrictOrderedRing K]

def sqDist (x y : ι → K) : K := ∑ i, (x i - y i) ^ 2

/-- A point of the set with the least distance. -/
structure Nearest (S : Set (ι → K)) (u p : ι → K) : Prop where
  mem : p ∈ S
  least : ∀ z ∈ S, sqDist u p ≤ sqDist u z

section General
variable {S T : Set (ι → K)} {u a b p : ι → K}

omit [IsStrictOrderedRing K] in
theorem Nearest.union (ha : Nearest S u a) (hb : Nearest T u b) :
    Nearest (S ∪ T) u (if sqDist u a ≤ sqDist u b then a else b) := by
  split
  · next h =>
    refine ⟨.inl ha.mem, fun z hz => ?_⟩
    rcases hz with hz | hz
    · exact ha.least z hz
    · exact h.trans (hb.least z hz)
  · next h =>
    refine ⟨.inr hb.mem, fun z hz => ?_⟩
    rcases hz with hz | hz
    · exact (le_of_not_ge h).trans (ha.least z hz)
    · exact hb.least z hz

omit [LinearOrder K] [IsStrictOrderedRing K] in
theorem sqDist_sub (u c z : ι → K) : sqDist (u - c) (z - c) = sqDist u z := by
  refine sum_congr rfl fun i _ => ?_
  rw [Pi.sub_apply, Pi.sub_apply, sub_sub_sub_cancel_right]

omit [IsStrictOrderedRing K] in
theorem Nearest.translate {c : ι → K} (h : Nearest S (u - c) p) : Nearest {x | x - c ∈ S} u (p + c) := by
  have hback : p + c - c = p := add_sub_cancel_right p c
  refine ⟨?_, fun z hz => ?_⟩
  · show p + c - c ∈ S
    rw [hback]
    exact h.mem
  · rw [← sqDist_sub u c (p + c), ← sqDist_sub u c z, hback]
    exact h.least _ hz

end General

/-- The integer vectors with an even sum. -/
def evenVectors : Set (ι → K) := {x | ∃ z : ι → ℤ, Even (∑ i, z i) ∧ x = fun i => (z i : K)}

section Even
variable {u : ι → K} {r z : ι → ℤ} {j : ι}

omit [Fintype ι] in
/-- Any other integer is farther away, by the gap the rounding leaves. -/
private theorem sq_of_ne {x : K} {r z : ℤ} (hr : |x - r| ≤ 1 / 2) (hne : z ≠ r) :
    (x - r) ^ 2 + (1 - 2 * |x - r|) ≤ (x - z) ^ 2 := by
  have hgap : (1 : K) ≤ |(r : K) - z| := by
    have hone : (1 : ℤ) ≤ |r - z| := Int.one_le_abs (sub_ne_zero.2 hne.symm)
    exact_mod_cast hone
  have hfar : 1 - |x - r| ≤ |x - z| := by
    have htriangle : |(r : K) - z| ≤ |x - r| + |x - z| := by
      have h := abs_sub_le (r : K) x z
      rwa [abs_sub_comm (r : K) x] at h
    linarith
  have hnonneg : 0 ≤ 1 - |x - r| := by linarith
  calc (x - r) ^ 2 + (1 - 2 * |x - r|) = (1 - |x - r|) ^ 2 := by rw [← sq_abs (x - r)]; ring
    _ ≤ |x - z| ^ 2 := pow_le_pow_left₀ hnonneg hfar 2
    _ = (x - z) ^ 2 := sq_abs _

private theorem sq_le {x : K} {r : ℤ} (hr : |x - r| ≤ 1 / 2) (z : ℤ) : (x - r) ^ 2 ≤ (x - z) ^ 2 := by
  rcases eq_or_ne z r with rfl | hne
  · exact le_rfl
  · have := sq_of_ne hr hne
    linarith

/-- Rounding is nearest when the sum comes out even. -/
theorem nearest_round (hr : ∀ i, |u i - r i| ≤ 1 / 2) (heven : Even (∑ i, r i)) :
    Nearest evenVectors u fun i => (r i : K) := by
  refine ⟨⟨r, heven, rfl⟩, ?_⟩
  rintro _ ⟨z, -, rfl⟩
  exact sum_le_sum fun i _ => sq_le (hr i) (z i)

variable [DecidableEq ι]

omit [LinearOrder K] [IsStrictOrderedRing K] in
private theorem sqDist_update (u : ι → K) (r : ι → ℤ) (j : ι) (d : ℤ) :
    sqDist u (fun i => (Function.update r j (r j + d) i : K)) =
      sqDist u (fun i => (r i : K)) + (d ^ 2 - 2 * d * (u j - r j)) := by
  rw [sqDist, sqDist, ← add_sum_erase univ _ (mem_univ j), ← add_sum_erase univ (fun i => (u i - r i) ^ 2) (mem_univ j),
    Function.update_self]
  have hrest : ∑ i ∈ univ.erase j, (u i - (Function.update r j (r j + d) i : K)) ^ 2 =
      ∑ i ∈ univ.erase j, (u i - r i) ^ 2 :=
    sum_congr rfl fun i hi => by rw [Function.update_of_ne (ne_of_mem_erase hi)]
  rw [hrest, Int.cast_add]
  ring

/-- Otherwise the coordinate farthest from its integer goes to the other side. -/
theorem nearest_flip (dir : ℤ) (hr : ∀ i, |u i - r i| ≤ 1 / 2) (hodd : ¬ Even (∑ i, r i))
    (hworst : ∀ i, |u i - r i| ≤ |u j - r j|)
    (hdir : dir = if 0 ≤ u j - r j then 1 else -1) :
    Nearest evenVectors u fun i => (Function.update r j (r j + dir) i : K) := by
  have hodd' : Odd dir := by
    rw [hdir]
    split
    · exact odd_one
    · exact Odd.neg odd_one
  refine ⟨⟨_, ?_, rfl⟩, ?_⟩
  · have hsum : ∑ i, Function.update r j (r j + dir) i = ∑ i, r i + dir := by
      rw [← add_sum_erase univ _ (mem_univ j), ← add_sum_erase univ r (mem_univ j), Function.update_self,
        sum_congr rfl fun i hi => Function.update_of_ne (ne_of_mem_erase hi) _ r]
      ring
    rw [hsum]
    exact (Int.not_even_iff_odd.1 hodd).add_odd hodd'
  · rintro _ ⟨z, heven, rfl⟩
    have hcost : ((dir : K) ^ 2 - 2 * dir * (u j - r j)) = 1 - 2 * |u j - r j| := by
      rw [hdir]
      split
      · next h => rw [abs_of_nonneg h, Int.cast_one]; ring
      · next h => rw [abs_of_neg (not_le.1 h), Int.cast_neg, Int.cast_one]; ring
    obtain ⟨k, hk⟩ : ∃ k, z k ≠ r k := by
      by_contra hall
      have heq : z = r := funext fun k => by
        by_contra hne
        exact hall ⟨k, hne⟩
      exact hodd (heq ▸ heven)
    rw [sqDist_update, hcost]
    calc sqDist u (fun i => (r i : K)) + (1 - 2 * |u j - r j|)
        ≤ sqDist u (fun i => (r i : K)) + (1 - 2 * |u k - r k|) := by
          have := hworst k
          linarith
      _ = ((u k - r k) ^ 2 + (1 - 2 * |u k - r k|)) + ∑ i ∈ univ.erase k, (u i - r i) ^ 2 := by
          rw [sqDist, ← add_sum_erase univ _ (mem_univ k)]
          ring
      _ ≤ (u k - z k) ^ 2 + ∑ i ∈ univ.erase k, (u i - z i) ^ 2 :=
          add_le_add (sq_of_ne (hr k) hk) (sum_le_sum fun i _ => sq_le (hr i) (z i))
      _ = sqDist u fun i => (z i : K) := add_sum_erase univ (fun i => (u i - (z i : K)) ^ 2) (mem_univ k)

end Even
end Hipscope.Points
