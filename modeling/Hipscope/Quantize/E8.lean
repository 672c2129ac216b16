import Mathlib.Algebra.BigOperators.Fin
import Mathlib.Algebra.Order.Floor.Ring
import Mathlib.Data.Rat.Floor
import Hipscope.Bytes.Reader
import Hipscope.Points.Nearest

/-! The E8 lattice codec over exact coordinates: the nearest lattice point, and its codeword of seven
biased coordinates, the eighth without its lowest bit, and the coset. -/
namespace Hipscope.Quantize
open Bytes Points

/-- Ties away from zero; the standard `round` does the same. -/
def roundTieAway (x : ℚ) : ℚ := if 0 ≤ x then (⌊x + 1 / 2⌋ : ℤ) else (⌈x - 1 / 2⌉ : ℤ)

def trunc (x : ℚ) : ℤ := if 0 ≤ x then ⌊x⌋ else ⌈x⌉

/-- A cast to a signed integer truncates and saturates. -/
def castSigned (bits : ℕ) (x : ℚ) : ℤ := max (-2 ^ (bits - 1)) (min (trunc x) (2 ^ (bits - 1) - 1))

def wrapSigned (bits : ℕ) (z : ℤ) : ℤ := z.bmod (2 ^ bits)

/-- The variables of the scan over the coordinates. -/
structure Scan where
  r : Fin 8 → ℚ
  s : ℤ
  worstIdx : Fin 8
  worstAbs : ℚ
  worstDir : ℚ

def Scan.step (u : Fin 8 → ℚ) (st : Scan) (i : Fin 8) : Scan :=
  let ri := roundTieAway (u i)
  let st := { st with r := Function.update st.r i ri, s := wrapSigned 64 (st.s + castSigned 64 ri) }
  let e := u i - ri
  if st.worstAbs < |e| then { st with worstIdx := i, worstAbs := |e|, worstDir := if 0 ≤ e then 1 else -1 } else st

def closestD8 (u : Fin 8 → ℚ) : Fin 8 → ℚ :=
  let st := (List.finRange 8).foldl (Scan.step u) ⟨fun _ => 0, 0, 0, -1, 0⟩
  if st.s % 2 ≠ 0 then Function.update st.r st.worstIdx (st.r st.worstIdx + st.worstDir) else st.r

def closestE8 (u : Fin 8 → ℚ) : Fin 8 → ℚ :=
  let a := closestD8 u
  let bsh := closestD8 fun i => u i - 1 / 2
  let b : Fin 8 → ℚ := fun i => bsh i + 1 / 2
  let da := ∑ i, (u i - a i) * (u i - a i)
  let db := ∑ i, (u i - b i) * (u i - b i)
  if da ≤ db then a else b

/-- The integer vectors with an even sum, and these moved by a half. -/
def e8 : Set (Fin 8 → ℚ) := evenVectors ∪ {x | x - (fun _ => 1 / 2) ∈ evenVectors}

def coordBiasN : ℕ → ℤ
  | 4 => 7
  | 3 => 4
  | 2 => 2
  | n => 2 ^ (n - 1) - 1

def coordMaxN (n : ℕ) : ℤ := 2 ^ n - 1

/-- One for half-integer coordinates. -/
def cosetOf (p : Fin 8 → ℚ) : ℕ := if |(|p 0 - trunc (p 0)| - 1 / 2)| < 1 / 10 then 1 else 0

/-- The integer coordinates of the underlying point of D8. -/
def integerCoords (coset : ℕ) (p : Fin 8 → ℚ) : Fin 8 → ℤ := fun i =>
  if coset = 1 then castSigned 32 (roundTieAway (p i - 1 / 2)) else castSigned 32 (roundTieAway (p i))

def biasAndClamp (bias cmax : ℤ) (w : Fin 8 → ℤ) : Fin 8 → ℕ := fun i =>
  (max 0 (min (wrapSigned 32 (w i + bias)) cmax)).toNat

/-- An odd sum is made even through the last coordinate. -/
def evenSum (cmax : ℤ) (e : Fin 8 → ℕ) : Fin 8 → ℕ :=
  if (∑ i, e i) % 2 ≠ 0 then
    if (e 7 : ℤ) < cmax then Function.update e 7 (e 7 + 1) else Function.update e 7 (e 7 - 1)
  else e

def encodeIndex (p : Fin 8 → ℚ) : ℕ :=
  let coset := cosetOf p
  let e := evenSum 15 (biasAndClamp 7 15 (integerCoords coset p))
  let idx := (List.finRange 7).foldl (fun idx i => idx ||| (e i.castSucc &&& 0xf) <<< (i.val * 4)) 0
  idx ||| ((e 7 >>> 1) &&& 0x7) <<< 28 ||| coset <<< 31

def decodeIndex (idx : ℕ) : Fin 8 → ℚ :=
  let coset := (idx >>> 31) &&& 1
  let low : Fin 7 → ℕ := fun i => (idx >>> (i.val * 4)) &&& 0xf
  let sl := ∑ i, low i
  let e7High := (idx >>> 28) &&& 0x7
  let p7 := e7High <<< 1
  let lsb := (sl + p7) &&& 1
  let e : Fin 8 → ℕ := Fin.snoc low (p7 ||| lsb)
  fun i => let c : ℚ := ((e i : ℤ) - 7 : ℤ)
    if coset = 1 then c + 1 / 2 else c

/-- A codeword of `8 * n` bits. -/
def encodeIndexN (p : Fin 8 → ℚ) (n : ℕ) : ℕ :=
  let mask := 1 <<< n - 1
  let coset := cosetOf p
  let e := evenSum (coordMaxN n) (biasAndClamp (coordBiasN n) (coordMaxN n) (integerCoords coset p))
  let idx := (List.finRange 7).foldl (fun idx i => idx ||| (e i.castSucc &&& mask) <<< (i.val * n)) 0
  let e7HighMask := 1 <<< (n - 1) - 1
  idx ||| ((e 7 >>> 1) &&& e7HighMask) <<< (7 * n) ||| coset <<< (8 * n - 1)

def decodeIndexN (idx n : ℕ) : Fin 8 → ℚ :=
  let mask := 1 <<< n - 1
  let coset := (idx >>> (8 * n - 1)) &&& 1
  let low : Fin 7 → ℕ := fun i => (idx >>> (i.val * n)) &&& mask
  let sl := ∑ i, low i
  let e7HighMask := 1 <<< (n - 1) - 1
  let e7High := (idx >>> (7 * n)) &&& e7HighMask
  let p7 := e7High <<< 1
  let e : Fin 8 → ℕ := Fin.snoc low (p7 ||| ((sl + p7) &&& 1))
  fun i => let c : ℚ := ((e i : ℤ) - coordBiasN n : ℤ)
    if coset = 1 then c + 1 / 2 else c

/-- The fields of a codeword. -/
def packWord (n : ℕ) (e : Fin 8 → ℕ) (coset : ℕ) : ℕ :=
  packFields n (fun i => if i < 7 then e (Fin.ofNat 8 i) else e 7 / 2 + 2 ^ (n - 1) * coset) 8

section Rounding
variable {x : ℚ} {z : ℤ} {bits : ℕ}

def nearestInt (x : ℚ) : ℤ := if 0 ≤ x then ⌊x + 1 / 2⌋ else ⌈x - 1 / 2⌉

theorem roundTieAway_eq (x : ℚ) : roundTieAway x = (nearestInt x : ℚ) := by
  rw [roundTieAway, nearestInt]
  split <;> rfl

theorem abs_sub_nearestInt (x : ℚ) : |x - nearestInt x| ≤ 1 / 2 := by
  rw [nearestInt, abs_le]
  split
  · have hle := Int.floor_le (x + 1 / 2)
    have hlt := Int.lt_floor_add_one (x + 1 / 2)
    constructor <;> linarith
  · have hle := Int.le_ceil (x - 1 / 2)
    have hlt := Int.ceil_lt_add_one (x - 1 / 2)
    constructor <;> linarith

theorem nearestInt_intCast (z : ℤ) : nearestInt (z : ℚ) = z := by
  have hhalf : |(z : ℚ) - nearestInt z| < 1 := (abs_sub_nearestInt z).trans_lt (by norm_num)
  have hsmall : |z - nearestInt z| < 1 := by exact_mod_cast hhalf
  exact (sub_eq_zero.1 (Int.abs_lt_one_iff.1 hsmall)).symm

theorem trunc_intCast (z : ℤ) : trunc (z : ℚ) = z := by
  rw [trunc, Int.floor_intCast, Int.ceil_intCast, ite_self]

theorem castSigned_intCast (hlow : -2 ^ (bits - 1) ≤ z) (hhigh : z < 2 ^ (bits - 1)) : castSigned bits (z : ℚ) = z := by
  rw [castSigned, trunc_intCast, min_eq_left (Int.le_sub_one_of_lt hhigh), max_eq_right hlow]

theorem wrapSigned_emod_two (h : bits ≠ 0) (z : ℤ) : wrapSigned bits z % 2 = z % 2 := by
  have hdvd : (2 : ℤ) ∣ ((2 ^ bits : ℕ) : ℤ) := by
    rw [Nat.cast_pow]
    exact dvd_pow_self 2 h
  rw [wrapSigned, ← Int.emod_emod_of_dvd _ hdvd, Int.bmod_emod, Int.emod_emod_of_dvd _ hdvd]

end Rounding

section Search
variable {u : Fin 8 → ℚ} {done : List (Fin 8)} {st : Scan} {i : Fin 8}

/-- The scan has seen these coordinates. -/
structure Scanned (u : Fin 8 → ℚ) (done : List (Fin 8)) (st : Scan) : Prop where
  rounded : ∀ i ∈ done, st.r i = roundTieAway (u i)
  parity : st.s % 2 = (done.map fun i => castSigned 64 (roundTieAway (u i))).sum % 2
  worst : ∀ i ∈ done, |u i - roundTieAway (u i)| ≤ st.worstAbs
  chosen : done = [] ∧ st.worstAbs = -1 ∨ st.worstAbs = |u st.worstIdx - roundTieAway (u st.worstIdx)| ∧
    st.worstDir = if 0 ≤ u st.worstIdx - roundTieAway (u st.worstIdx) then 1 else -1

theorem Scanned.step (h : Scanned u done st) (i : Fin 8) : Scanned u (done ++ [i]) (Scan.step u st i) := by
  have hrounded : ∀ j ∈ done ++ [i], Function.update st.r i (roundTieAway (u i)) j = roundTieAway (u j) := by
    intro j hj
    by_cases hji : j = i
    · rw [hji, Function.update_self]
    · rw [Function.update_of_ne hji]
      rcases List.mem_append.1 hj with hj | hj
      · exact h.rounded j hj
      · exact absurd (List.mem_singleton.1 hj) hji
  have hparity : wrapSigned 64 (st.s + castSigned 64 (roundTieAway (u i))) % 2 =
      ((done ++ [i]).map fun i => castSigned 64 (roundTieAway (u i))).sum % 2 := by
    rw [wrapSigned_emod_two (by decide), List.map_append, List.sum_append, List.map_singleton, List.sum_singleton,
      Int.add_emod, h.parity, ← Int.add_emod]
  rw [Scan.step]
  dsimp only
  split
  · next hlt =>
    refine ⟨hrounded, hparity, fun j hj => ?_, .inr ⟨rfl, rfl⟩⟩
    rcases List.mem_append.1 hj with hj | hj
    · exact (h.worst j hj).trans hlt.le
    · rw [List.mem_singleton.1 hj]
  · next hle =>
    refine ⟨hrounded, hparity, fun j hj => ?_, ?_⟩
    · rcases List.mem_append.1 hj with hj | hj
      · exact h.worst j hj
      · rw [List.mem_singleton.1 hj]
        exact not_lt.1 hle
    · rcases h.chosen with ⟨-, hnone⟩ | hchosen
      · refine absurd ?_ hle
        rw [hnone]
        exact neg_one_lt_zero.trans_le (abs_nonneg _)
      · exact .inr hchosen

theorem Scanned.foldl (h : Scanned u done st) (rest : List (Fin 8)) :
    Scanned u (done ++ rest) (rest.foldl (Scan.step u) st) := by
  induction rest generalizing done st with
  | nil =>
    rw [List.append_nil]
    exact h
  | cons i rest ih =>
    have hrest := ih (h.step i)
    rwa [List.append_assoc] at hrest

/-- Rounded, every coordinate is in the range of `i64`. -/
def Fits (u : Fin 8 → ℚ) : Prop := ∀ i, -2 ^ 63 ≤ roundTieAway (u i) ∧ roundTieAway (u i) < 2 ^ 63

theorem Fits.cast (h : Fits u) (i : Fin 8) : castSigned 64 (roundTieAway (u i)) = nearestInt (u i) := by
  obtain ⟨hlow, hhigh⟩ := h i
  rw [roundTieAway_eq] at hlow hhigh ⊢
  exact castSigned_intCast (by exact_mod_cast hlow) (by exact_mod_cast hhigh)

theorem closestD8_nearest (h : Fits u) : Nearest evenVectors u (closestD8 u) := by
  have hstart : Scanned u [] ⟨fun _ => 0, 0, 0, -1, 0⟩ :=
    ⟨fun _ hi => absurd hi List.not_mem_nil, rfl, fun _ hi => absurd hi List.not_mem_nil, .inl ⟨rfl, rfl⟩⟩
  have hscan := hstart.foldl (List.finRange 8)
  rw [List.nil_append] at hscan
  rw [closestD8]
  generalize (List.finRange 8).foldl (Scan.step u) _ = st at hscan ⊢
  have hr : st.r = fun i => (nearestInt (u i) : ℚ) := funext fun i => by
    rw [hscan.rounded i (List.mem_finRange i), roundTieAway_eq]
  have hparity : st.s % 2 = (∑ i, nearestInt (u i)) % 2 := by
    rw [hscan.parity, Fin.sum_univ_def]
    simp only [h.cast]
  have hworst : ∀ i, |u i - nearestInt (u i)| ≤ |u st.worstIdx - nearestInt (u st.worstIdx)| ∧
      st.worstDir = if 0 ≤ u st.worstIdx - nearestInt (u st.worstIdx) then 1 else -1 := by
    intro i
    have hle := hscan.worst i (List.mem_finRange i)
    rcases hscan.chosen with ⟨hnil, -⟩ | ⟨habs, hdir⟩
    · exact absurd (List.mem_finRange i) (hnil ▸ List.not_mem_nil)
    · rw [habs] at hle
      rw [← roundTieAway_eq, ← roundTieAway_eq]
      exact ⟨hle, hdir⟩
  rw [hparity, hr]
  split
  · next hodd =>
    have hflip := nearest_flip (if 0 ≤ u st.worstIdx - nearestInt (u st.worstIdx) then 1 else -1)
      (fun i => abs_sub_nearestInt (u i)) (fun heven => hodd (Int.even_iff.1 heven)) (fun i => (hworst i).1) rfl
    convert hflip using 1
    rw [(hworst 0).2]
    funext i
    by_cases hi : i = st.worstIdx
    · rw [hi, Function.update_self, Function.update_self, Int.cast_add]
      split
      · rw [Int.cast_one]
      · rw [Int.cast_neg, Int.cast_one]
    · rw [Function.update_of_ne hi, Function.update_of_ne hi]
  · next heven =>
    exact nearest_round (fun i => abs_sub_nearestInt (u i)) (Int.even_iff.2 (not_not.1 heven))

/-- The nearer one of the nearest points of both cosets. -/
theorem closestE8_nearest (h : Fits u) (hhalf : Fits fun i => u i - 1 / 2) : Nearest e8 u (closestE8 u) := by
  have hshift : Nearest {x | x - (fun _ => 1 / 2) ∈ evenVectors} u (closestD8 (fun i => u i - 1 / 2) + fun _ => 1 / 2) :=
    (closestD8_nearest hhalf).translate
  have hunion := (closestD8_nearest h).union hshift
  rw [closestE8]
  simp only [sqDist, sq] at hunion
  exact hunion

/-- The first coordinate is beyond the range of the cast to `i64`. -/
def farVector : Fin 8 → ℚ := fun i => if i = 0 then 2 ^ 63 else if i = 1 then 1 / 4 else 0

private theorem closestE8_farVector : ∀ i, closestE8 farVector i = if i = 0 then 2 ^ 63 else if i = 1 then 1 else 0 := by
  decide +kernel

/-- The cast saturates, and the parity that it breaks is repaired at the second coordinate. -/
theorem closestE8_saturates : closestE8 farVector ∉ e8 := by
  rw [funext closestE8_farVector]
  rintro (⟨z, heven, hz⟩ | ⟨z, -, hz⟩)
  · have hcoords : z = fun i => if i = 0 then 2 ^ 63 else if i = 1 then 1 else 0 := by
      funext i
      have hi := congrFun hz i
      split_ifs at hi ⊢ <;> exact_mod_cast hi.symm
    rw [hcoords] at heven
    revert heven
    decide
  · have h0 := congrFun hz 0
    rw [Pi.sub_apply, if_pos rfl] at h0
    have hdouble : (2 : ℚ) ^ 63 * 2 - 1 = z 0 * 2 := by linarith
    have hint : (2 : ℤ) ^ 63 * 2 - 1 = z 0 * 2 := by exact_mod_cast hdouble
    omega

end Search
end Hipscope.Quantize
