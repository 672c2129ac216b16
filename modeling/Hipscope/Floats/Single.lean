import Mathlib.Algebra.Order.Field.Power
import Mathlib.Data.Int.Log
import Mathlib.Data.Rat.Floor
import Mathlib.Tactic.Linarith
import Mathlib.Tactic.NormNum
import Mathlib.Tactic.Positivity

/-! Single-precision rounding of a rational: to nearest, ties to even. -/
namespace Hipscope.Floats

def roundHalfEven (x : ℚ) : ℤ :=
  if Int.fract x < 1 / 2 then ⌊x⌋ else if 1 / 2 < Int.fract x then ⌊x⌋ + 1 else if ⌊x⌋ % 2 = 0 then ⌊x⌋ else ⌊x⌋ + 1

/-- The spacing of single-precision numbers at a rational. -/
def spacing (x : ℚ) : ℚ := 2 ^ (max (Int.log 2 |x|) (-126) - 23)

/-- The nearest single-precision number, short of infinity. -/
def roundSingle (x : ℚ) : ℚ := if x = 0 then 0 else roundHalfEven (x / spacing x) * spacing x

section Rounding
variable {x : ℚ}

theorem roundHalfEven_le {n : ℤ} (h : x ≤ n) : roundHalfEven x ≤ n := by
  have hfloor : ⌊x⌋ ≤ n := Int.floor_le_iff.mpr (h.trans_lt (lt_add_one _))
  have hstep : 1 / 2 ≤ Int.fract x → ⌊x⌋ + 1 ≤ n := by
    intro hrest
    have hsplit := Int.floor_add_fract x
    have hlt : (⌊x⌋ : ℚ) < n := by linarith
    exact_mod_cast hlt
  unfold roundHalfEven
  split_ifs with hlow
  · exact hfloor
  · exact hstep (not_lt.mp hlow)
  · exact hfloor
  · exact hstep (not_lt.mp hlow)

theorem roundHalfEven_nonneg (h : 0 ≤ x) : 0 ≤ roundHalfEven x := by
  have hfloor : 0 ≤ ⌊x⌋ := Int.floor_nonneg.mpr h
  unfold roundHalfEven
  split_ifs <;> omega

theorem roundSingle_zero : roundSingle 0 = 0 := if_pos rfl

theorem spacing_pos (x : ℚ) : 0 < spacing x := zpow_pos (by norm_num) _

theorem roundSingle_nonneg (h : 0 ≤ x) : 0 ≤ roundSingle x := by
  rw [roundSingle]
  split
  · exact le_refl _
  · have hquot : 0 ≤ x / spacing x := div_nonneg h (spacing_pos x).le
    exact mul_nonneg (by exact_mod_cast roundHalfEven_nonneg hquot) (spacing_pos x).le

/-- Whole numbers of 24 bits are multiples of the spacing at anything up to them. -/
private theorem multiple_of_spacing {n : ℕ} (hx : 0 < x) (h : x ≤ n) (hn : n ≤ 2 ^ 24) :
    ∃ k : ℤ, (n : ℚ) = k * spacing x := by
  rw [spacing, abs_of_pos hx]
  have hlow : (2 : ℚ) ^ Int.log 2 x ≤ x := Int.zpow_log_le_self (by norm_num) hx
  have hwide : (n : ℚ) ≤ 2 ^ 24 := by exact_mod_cast hn
  obtain hexp | hexp := le_or_gt (max (Int.log 2 x) (-126) - 23) 0
  · obtain ⟨k, hk⟩ := Int.eq_ofNat_of_zero_le (Int.neg_nonneg.mpr hexp)
    refine ⟨n * 2 ^ k, ?_⟩
    rw [← neg_neg (max (Int.log 2 x) (-126) - 23), hk, zpow_neg]
    push_cast
    rw [zpow_natCast, mul_assoc, mul_inv_cancel₀ (by positivity), mul_one]
  · have hlog : 24 ≤ Int.log 2 x := by omega
    have hpow : (2 : ℚ) ^ (24 : ℤ) ≤ 2 ^ Int.log 2 x := zpow_le_zpow_right₀ (by norm_num) hlog
    have hn24 : (n : ℚ) = 2 ^ 24 := by
      refine le_antisymm hwide ?_
      calc
        (2 : ℚ) ^ 24 = 2 ^ (24 : ℤ) := by norm_num
        _ ≤ 2 ^ Int.log 2 x := hpow
        _ ≤ x := hlow
        _ ≤ n := h
    have hlog24 : Int.log 2 x = 24 := by
      refine le_antisymm ?_ hlog
      have hlt : (2 : ℚ) ^ Int.log 2 x < 2 ^ (25 : ℤ) := by
        calc
          _ ≤ x := hlow
          _ ≤ 2 ^ 24 := h.trans hwide
          _ < 2 ^ (25 : ℤ) := by norm_num
      have := (zpow_lt_zpow_iff_right₀ (by norm_num : (1 : ℚ) < 2)).mp hlt
      omega
    refine ⟨2 ^ 23, ?_⟩
    rw [hlog24, hn24]
    norm_num

/-- Rounding does not pass a whole number of 24 bits. -/
theorem roundSingle_le {n : ℕ} (hx : 0 ≤ x) (h : x ≤ n) (hn : n ≤ 2 ^ 24) : roundSingle x ≤ n := by
  rw [roundSingle]
  split
  · exact Nat.cast_nonneg n
  · next hne =>
    obtain ⟨k, hk⟩ := multiple_of_spacing (lt_of_le_of_ne hx (Ne.symm hne)) h hn
    have hquot : x / spacing x ≤ k := (div_le_iff₀ (spacing_pos x)).mpr (hk ▸ h)
    rw [hk]
    exact mul_le_mul_of_nonneg_right (by exact_mod_cast roundHalfEven_le hquot) (spacing_pos x).le

end Rounding
end Hipscope.Floats
