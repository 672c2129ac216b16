import Hipscope.Quantize.E8

/-! The codewords of each width are the points of a box. -/
namespace Hipscope.Quantize
open Bytes Points

theorem encodeIndexN_four (p : Fin 8 → ℚ) : encodeIndexN p 4 = encodeIndex p := rfl

theorem decodeIndexN_four (idx : ℕ) : decodeIndexN idx 4 = decodeIndex idx := rfl

section Words
variable {n idx coset : ℕ} {e : Fin 8 → ℕ}

def wordCoset (n idx : ℕ) : ℕ := field n idx 7 / 2 ^ (n - 1)

/-- The lowest bit of the last coordinate is the parity of the others. -/
def wordCoords (n idx : ℕ) : Fin 8 → ℕ :=
  Fin.snoc (fun i : Fin 7 => field n idx i) (2 * (field n idx 7 % 2 ^ (n - 1)) + (∑ i : Fin 7, field n idx i) % 2)

/-- Coordinates of `n` bits with an even sum, and a coset. -/
structure WordOf (n : ℕ) (e : Fin 8 → ℕ) (coset : ℕ) : Prop where
  lt : ∀ i, e i < 2 ^ n
  even : Even (∑ i, e i)
  coset : coset < 2

private theorem lastField_lt (hn : n ≠ 0) (h : WordOf n e coset) : e 7 / 2 + 2 ^ (n - 1) * coset < 2 ^ n := by
  obtain ⟨n, rfl⟩ := Nat.exists_eq_succ_of_ne_zero hn
  have hlast := h.lt 7
  have hcoset := Nat.mul_le_mul_left (2 ^ n) (Nat.le_of_lt_succ h.coset)
  rw [Nat.pow_succ] at hlast ⊢
  rw [Nat.succ_sub_one]
  omega

private theorem fields_lt (hn : n ≠ 0) (h : WordOf n e coset) :
    ∀ i < 8, (if i < 7 then e (Fin.ofNat 8 i) else e 7 / 2 + 2 ^ (n - 1) * coset) < 2 ^ n := by
  intro i _
  split
  · exact h.lt _
  · exact lastField_lt hn h

theorem packWord_lt (hn : n ≠ 0) (h : WordOf n e coset) : packWord n e coset < 2 ^ (8 * n) :=
  packFields_lt (fields_lt hn h)

theorem field_packWord (hn : n ≠ 0) (h : WordOf n e coset) (i : Fin 7) : field n (packWord n e coset) i = e i.castSucc := by
  rw [packWord, field_packFields (fields_lt hn h) (by omega), if_pos i.isLt]
  congr 1
  exact Fin.ext (Nat.mod_eq_of_lt (by omega))

theorem field_packWord_last (hn : n ≠ 0) (h : WordOf n e coset) :
    field n (packWord n e coset) 7 = e 7 / 2 + 2 ^ (n - 1) * coset := by
  rw [packWord, field_packFields (fields_lt hn h) (by decide), if_neg (by decide)]

private theorem half_lt (hn : n ≠ 0) (h : WordOf n e coset) : e 7 / 2 < 2 ^ (n - 1) := by
  obtain ⟨n, rfl⟩ := Nat.exists_eq_succ_of_ne_zero hn
  have hlast := h.lt 7
  rw [Nat.pow_succ] at hlast
  exact Nat.div_lt_of_lt_mul (by rwa [Nat.mul_comm])

theorem wordCoset_packWord (hn : n ≠ 0) (h : WordOf n e coset) : wordCoset n (packWord n e coset) = coset := by
  rw [wordCoset, field_packWord_last hn h, Nat.add_mul_div_left _ _ (Nat.two_pow_pos _), Nat.div_eq_of_lt (half_lt hn h),
    Nat.zero_add]

theorem wordCoords_packWord (hn : n ≠ 0) (h : WordOf n e coset) : wordCoords n (packWord n e coset) = e := by
  have hsum := h.even
  rw [Fin.sum_univ_castSucc] at hsum
  funext i
  refine Fin.lastCases ?_ (fun i => ?_) i
  · rw [wordCoords, Fin.snoc_last, field_packWord_last hn h, Nat.add_mul_mod_self_left, Nat.mod_eq_of_lt (half_lt hn h)]
    simp only [field_packWord hn h]
    rw [Nat.even_iff] at hsum
    have hlast : e (Fin.last 7) = e 7 := rfl
    omega
  · rw [wordCoords, Fin.snoc_castSucc, field_packWord hn h]

theorem wordOf_word (hn : n ≠ 0) (idx : ℕ) :
    WordOf n (wordCoords n idx) (wordCoset n idx) := by
  obtain ⟨n, rfl⟩ := Nat.exists_eq_succ_of_ne_zero hn
  have hfield (i : ℕ) : field (n + 1) idx i < 2 ^ n * 2 := Nat.mod_lt _ (Nat.two_pow_pos _)
  refine ⟨fun i => ?_, ?_, ?_⟩
  · rw [Nat.pow_succ]
    refine Fin.lastCases ?_ (fun i => ?_) i
    · rw [wordCoords, Fin.snoc_last]
      have := Nat.mod_lt (field (n + 1) idx 7) (Nat.two_pow_pos n)
      rw [Nat.succ_sub_one]
      omega
    · rw [wordCoords, Fin.snoc_castSucc]
      exact hfield i
  · rw [Fin.sum_univ_castSucc, wordCoords, Fin.snoc_last]
    simp only [Fin.snoc_castSucc]
    rw [Nat.even_iff]
    omega
  · rw [wordCoset, Nat.succ_sub_one]
    exact Nat.div_lt_of_lt_mul (hfield 7)

/-- A codeword is made of its coordinates and its coset. -/
theorem packWord_word (hidx : idx < 2 ^ (8 * n)) : packWord n (wordCoords n idx) (wordCoset n idx) = idx := by
  have hlast : wordCoords n idx 7 = 2 * (field n idx 7 % 2 ^ (n - 1)) + (∑ i : Fin 7, field n idx i) % 2 := Fin.snoc_last ..
  have hfields : packFields n (field n idx) 8 = idx := by rw [packFields_field, Nat.mod_eq_of_lt hidx]
  rw [packWord]
  refine Eq.trans (packFields_congr fun i hi => ?_) hfields
  split
  · next hlt =>
    have hcast : Fin.ofNat 8 i = Fin.castSucc ⟨i, hlt⟩ := Fin.ext (Nat.mod_eq_of_lt hi)
    rw [hcast, wordCoords, Fin.snoc_castSucc]
  · next hge =>
    obtain rfl : i = 7 := by omega
    rw [hlast, Nat.mul_add_div (by decide), Nat.div_eq_of_lt (Nat.mod_lt _ (by decide)), Nat.add_zero, wordCoset]
    exact Nat.mod_add_div _ _

/-- The shifts of the encoder put every field in its place. -/
private theorem shifts_eq (hn : n ≠ 0) (h : WordOf n e coset) :
    (List.finRange 7).foldl (fun idx i => idx ||| (e i.castSucc &&& (1 <<< n - 1)) <<< (i.val * n)) 0 |||
      ((e 7 >>> 1) &&& (1 <<< (n - 1) - 1)) <<< (7 * n) ||| coset <<< (8 * n - 1) = packWord n e coset := by
  have hlow : (List.finRange 7).foldl (fun idx i => idx ||| (e i.castSucc &&& (1 <<< n - 1)) <<< (i.val * n)) 0 =
      packFields n (fun i => e (Fin.ofNat 8 i) &&& (1 <<< n - 1)) 7 := rfl
  have hlast : (e 7 >>> 1) &&& (1 <<< (n - 1) - 1) = e 7 / 2 := by
    rw [Nat.one_shiftLeft, Nat.and_two_pow_sub_one_eq_mod, Nat.shiftRight_eq_div_pow, Nat.pow_one,
      Nat.mod_eq_of_lt (half_lt hn h)]
  have hjoin : e 7 / 2 + 2 ^ (n - 1) * coset = e 7 / 2 ||| coset <<< (n - 1) := by
    rw [Nat.or_comm, ← Nat.shiftLeft_add_eq_or_of_lt (half_lt hn h), Nat.shiftLeft_eq, Nat.add_comm, Nat.mul_comm]
  have hplace : n - 1 + 7 * n = 8 * n - 1 := by omega
  rw [packWord, packFields, if_neg (by decide), hjoin, Nat.shiftLeft_or_distrib, ← Nat.shiftLeft_add, hplace, hlow, hlast,
    ← Nat.or_assoc]
  congr 2
  refine packFields_congr fun i hi => ?_
  rw [if_pos hi, Nat.one_shiftLeft, Nat.and_two_pow_sub_one_eq_mod, Nat.mod_eq_of_lt (h.lt _)]

theorem encodeIndexN_eq (hn : n ≠ 0) (p : Fin 8 → ℚ)
    (h : WordOf n (evenSum (coordMaxN n) (biasAndClamp (coordBiasN n) (coordMaxN n) (integerCoords (cosetOf p) p))) (cosetOf p)) :
    encodeIndexN p n =
      packWord n (evenSum (coordMaxN n) (biasAndClamp (coordBiasN n) (coordMaxN n) (integerCoords (cosetOf p) p))) (cosetOf p) :=
  shifts_eq hn h

/-- Biased coordinates and a coset, as a vector. -/
def vectorOf (bias : ℤ) (coset : ℕ) (e : Fin 8 → ℕ) : Fin 8 → ℚ := fun i =>
  let c : ℚ := ((e i : ℤ) - bias : ℤ)
  if coset = 1 then c + 1 / 2 else c

theorem decodeIndexN_eq (hn : n ≠ 0) (idx : ℕ) :
    decodeIndexN idx n = vectorOf (coordBiasN n) (wordCoset n idx) (wordCoords n idx) := by
  have hcoset : (idx >>> (8 * n - 1)) &&& 1 = wordCoset n idx := by
    obtain ⟨n, rfl⟩ := Nat.exists_eq_succ_of_ne_zero hn
    have hplace : 8 * (n + 1) - 1 = 7 * (n + 1) + n := by omega
    rw [Nat.and_one_is_mod, wordCoset, field, Nat.succ_sub_one, Nat.pow_succ, Nat.mod_mul_right_div_self, hplace,
      Nat.shiftRight_add, Nat.shiftRight_eq_div_pow _ n]
  have hmask (x k : ℕ) : x &&& (1 <<< k - 1) = x % 2 ^ k := by rw [Nat.one_shiftLeft, Nat.and_two_pow_sub_one_eq_mod]
  have hcoords : Fin.snoc (fun i : Fin 7 => (idx >>> (i.val * n)) &&& (1 <<< n - 1))
      ((((idx >>> (7 * n)) &&& (1 <<< (n - 1) - 1)) <<< 1) |||
        ((∑ i : Fin 7, ((idx >>> (i.val * n)) &&& (1 <<< n - 1))) +
          (((idx >>> (7 * n)) &&& (1 <<< (n - 1) - 1)) <<< 1) &&& 1)) = wordCoords n idx := by
    have hhigh : (idx >>> (7 * n)) % 2 ^ (n - 1) = field n idx 7 % 2 ^ (n - 1) :=
      (Nat.mod_mod_of_dvd _ (Nat.pow_dvd_pow 2 (Nat.sub_le n 1))).symm
    have hlow (i : Fin 7) : (idx >>> (i.val * n)) % 2 ^ n = field n idx i := rfl
    simp only [hmask, hhigh, hlow, Nat.and_one_is_mod]
    rw [wordCoords, ← Nat.shiftLeft_add_eq_or_of_lt (Nat.mod_lt _ (by decide)), Nat.shiftLeft_eq, Nat.pow_one,
      Nat.add_mul_mod_self_right, Nat.mul_comm]
  rw [decodeIndexN]
  simp only [hcoset]
  funext i
  rw [vectorOf, ← hcoords]

end Words

/-- A point of the E8 lattice: a point of D8 and the coset. -/
structure E8Point where
  half : Bool
  coords : Fin 8 → ℤ
  even : Even (∑ i, coords i)

def E8Point.toVec (x : E8Point) : Fin 8 → ℚ := fun i => if x.half then x.coords i + 1 / 2 else x.coords i

def E8Point.coset (x : E8Point) : ℕ := if x.half then 1 else 0

/-- The biased coordinates have `n` bits. -/
def InBox (n : ℕ) (x : E8Point) : Prop := ∀ i, 0 ≤ x.coords i + coordBiasN n ∧ x.coords i + coordBiasN n ≤ coordMaxN n

section Points
variable {n idx coset : ℕ} {e : Fin 8 → ℕ} {x : E8Point} {w : Fin 8 → ℤ} {bias : ℤ}

theorem mem_e8 {p : Fin 8 → ℚ} : p ∈ e8 ↔ ∃ x : E8Point, x.toVec = p := by
  constructor
  · rintro (⟨z, heven, rfl⟩ | ⟨z, heven, hz⟩)
    · exact ⟨⟨false, z, heven⟩, rfl⟩
    · refine ⟨⟨true, z, heven⟩, funext fun i => ?_⟩
      have hi := congrFun hz i
      rw [Pi.sub_apply] at hi
      rw [E8Point.toVec, if_pos rfl, ← hi, sub_add_cancel]
  · rintro ⟨⟨half, z, heven⟩, rfl⟩
    cases half with
    | false => exact .inl ⟨z, heven, rfl⟩
    | true => exact .inr ⟨z, heven, funext fun i => add_sub_cancel_right _ _⟩

theorem cosetOf_toVec (x : E8Point) : cosetOf x.toVec = x.coset := by
  rw [cosetOf, E8Point.coset, E8Point.toVec]
  cases x.half with
  | false =>
    simp only [Bool.false_eq_true, if_false]
    rw [trunc_intCast, sub_self, abs_zero, if_neg (by norm_num)]
  | true =>
    rw [if_pos rfl, if_pos rfl, if_pos]
    have hfract : |(x.coords 0 : ℚ) + 1 / 2 - trunc (x.coords 0 + 1 / 2)| = 1 / 2 := by
      rw [trunc]
      split
      · have hfloor : ⌊(x.coords 0 : ℚ) + 1 / 2⌋ = x.coords 0 := by
          rw [Int.floor_intCast_add, show ⌊(1 / 2 : ℚ)⌋ = 0 by norm_num, add_zero]
        rw [hfloor, add_sub_cancel_left]
        norm_num
      · have hceil : ⌈(x.coords 0 : ℚ) + 1 / 2⌉ = x.coords 0 + 1 := by
          rw [Int.ceil_intCast_add, show ⌈(1 / 2 : ℚ)⌉ = 1 by norm_num]
        rw [hceil, Int.cast_add, Int.cast_one, add_sub_add_left_eq_sub]
        norm_num
    rw [hfract]
    norm_num

theorem integerCoords_toVec (x : E8Point) :
    integerCoords x.coset x.toVec = fun i => castSigned 32 (x.coords i : ℚ) := by
  funext i
  rw [integerCoords, E8Point.coset, E8Point.toVec]
  cases x.half with
  | false =>
    simp only [Bool.false_eq_true, if_false, Nat.zero_ne_one]
    rw [roundTieAway_eq, nearestInt_intCast]
  | true => rw [if_pos rfl, if_pos rfl, if_pos rfl, add_sub_cancel_right, roundTieAway_eq, nearestInt_intCast]

private theorem coordMaxN_cast (n : ℕ) : coordMaxN n = ((2 ^ n - 1 : ℕ) : ℤ) := by
  rw [coordMaxN, Nat.cast_sub (Nat.one_le_two_pow), Nat.cast_pow]
  rfl

private theorem biasAndClamp_le (n : ℕ) (bias : ℤ) (w : Fin 8 → ℤ) (i : Fin 8) :
    biasAndClamp bias (coordMaxN n) w i ≤ 2 ^ n - 1 := by
  rw [biasAndClamp, coordMaxN_cast, Int.toNat_le]
  exact max_le (Int.natCast_nonneg _) (min_le_right _ _)

/-- The nudge keeps the coordinates in the box. -/
theorem wordOf_evenSum (hn : n ≠ 0) (he : ∀ i, e i ≤ 2 ^ n - 1) (hcoset : coset < 2) :
    WordOf n (evenSum (coordMaxN n) e) coset := by
  have hpos := Nat.two_pow_pos n
  have htwo : 2 ≤ 2 ^ n := Nat.le_self_pow hn 2
  have hlt (d : ℕ) (hd : d ≤ 2 ^ n - 1) (i : Fin 8) : Function.update e 7 d i < 2 ^ n := by
    by_cases hi : i = 7
    · rw [hi, Function.update_self]
      omega
    · rw [Function.update_of_ne hi]
      have := he i
      omega
  have hsum (d : ℕ) : (∑ i, Function.update e 7 d i) + e 7 = (∑ i, e i) + d := by
    have hrest : ∑ i ∈ Finset.univ.erase 7, Function.update e 7 d i = ∑ i ∈ Finset.univ.erase 7, e i :=
      Finset.sum_congr rfl fun i hi => Function.update_of_ne (Finset.ne_of_mem_erase hi) d e
    rw [← Finset.add_sum_erase _ _ (Finset.mem_univ 7), ← Finset.add_sum_erase _ e (Finset.mem_univ 7), hrest,
      Function.update_self]
    ring
  have hlast := he 7
  rw [evenSum, coordMaxN_cast]
  split
  · next hodd =>
    split
    · next hroom =>
      have hroom' : e 7 < 2 ^ n - 1 := by exact_mod_cast hroom
      refine ⟨hlt _ hroom', ?_, hcoset⟩
      have := hsum (e 7 + 1)
      rw [Nat.even_iff]
      omega
    · next hfull =>
      have hfull' : ¬ e 7 < 2 ^ n - 1 := fun h => hfull (by exact_mod_cast h)
      refine ⟨hlt _ (by omega), ?_, hcoset⟩
      have := hsum (e 7 - 1)
      rw [Nat.even_iff]
      omega
  · next heven =>
    refine ⟨fun i => ?_, ?_, hcoset⟩
    · have := he i
      omega
    · rw [Nat.even_iff]
      omega

private theorem cosetOf_lt (p : Fin 8 → ℚ) : cosetOf p < 2 := by
  rw [cosetOf]
  split <;> decide

/-- Every vector is encoded as some codeword. -/
theorem encodeIndexN_word (hn : n ≠ 0) (p : Fin 8 → ℚ) :
    ∃ e, WordOf n e (cosetOf p) ∧ encodeIndexN p n = packWord n e (cosetOf p) := by
  have h := wordOf_evenSum hn (biasAndClamp_le n (coordBiasN n) (integerCoords (cosetOf p) p)) (cosetOf_lt p)
  exact ⟨_, h, encodeIndexN_eq hn p h⟩

/-- The point of a codeword. -/
def pointOf (bias : ℤ) (h : WordOf n e coset) (hbias : Even (8 * bias)) : E8Point where
  half := decide (coset = 1)
  coords i := e i - bias
  even := by
    have hsum : ∑ i, ((e i : ℤ) - bias) = ((∑ i, e i : ℕ) : ℤ) - 8 * bias := by
      rw [Finset.sum_sub_distrib, Finset.sum_const, Finset.card_univ, Fintype.card_fin, Nat.cast_sum, nsmul_eq_mul]
      rfl
    rw [hsum]
    exact (Int.even_coe_nat _ |>.2 h.even).sub hbias

theorem toVec_pointOf (h : WordOf n e coset) (hbias : Even (8 * bias)) :
    (pointOf bias h hbias).toVec = vectorOf bias coset e := by
  funext i
  rw [E8Point.toVec, vectorOf, pointOf]
  simp only [decide_eq_true_eq]

theorem coset_pointOf (h : WordOf n e coset) (hbias : Even (8 * bias)) : (pointOf bias h hbias).coset = coset := by
  have hcoset := h.coset
  rw [E8Point.coset, pointOf]
  simp only [decide_eq_true_eq]
  split <;> omega

private theorem even_bias (bias : ℤ) : Even (8 * bias) := (by decide : Even (8 : ℤ)).mul_right bias

theorem inBox_pointOf (h : WordOf n e coset) : InBox n (pointOf (coordBiasN n) h (even_bias _)) := by
  intro i
  have hlt := h.lt i
  rw [pointOf, coordMaxN_cast]
  dsimp only
  omega

/-- Within the box nothing saturates, wraps, is clamped or is nudged. -/
theorem evenSum_toVec (hlow : 2 ≤ n) (hhigh : n ≤ 4) (h : InBox n x) :
    evenSum (coordMaxN n) (biasAndClamp (coordBiasN n) (coordMaxN n) (integerCoords x.coset x.toVec)) =
      fun i => (x.coords i + coordBiasN n).toNat := by
  have hsmall : 0 ≤ coordBiasN n ∧ coordBiasN n ≤ 7 ∧ coordMaxN n ≤ 15 := by
    obtain rfl | rfl | rfl : n = 2 ∨ n = 3 ∨ n = 4 := by omega
    all_goals decide
  have hexact : biasAndClamp (coordBiasN n) (coordMaxN n) (integerCoords x.coset x.toVec) =
      fun i => (x.coords i + coordBiasN n).toNat := by
    funext i
    obtain ⟨hge, hle⟩ := h i
    have hwrap : wrapSigned 32 (x.coords i + coordBiasN n) = x.coords i + coordBiasN n :=
      Int.bmod_eq_of_le (by omega) (by omega)
    have hcast : castSigned 32 (x.coords i : ℚ) = x.coords i := castSigned_intCast (by omega) (by omega)
    rw [biasAndClamp, integerCoords_toVec]
    dsimp only
    rw [hcast, hwrap, min_eq_left hle, max_eq_right hge]
  rw [hexact, evenSum, if_neg]
  have hsum : ((∑ i, (x.coords i + coordBiasN n).toNat : ℕ) : ℤ) = ∑ i, x.coords i + 8 * coordBiasN n := by
    rw [Nat.cast_sum, Finset.sum_congr rfl fun i _ => Int.toNat_of_nonneg (h i).1, Finset.sum_add_distrib, Finset.sum_const,
      Finset.card_univ, Fintype.card_fin, nsmul_eq_mul]
    rfl
  have heven := x.even.add (even_bias (coordBiasN n))
  rw [← hsum, Int.even_coe_nat, Nat.even_iff] at heven
  exact not_not.2 heven

/-- A point in the box comes back. -/
theorem decode_encode (hlow : 2 ≤ n) (hhigh : n ≤ 4) (h : InBox n x) : decodeIndexN (encodeIndexN x.toVec n) n = x.toVec := by
  have hn : n ≠ 0 := by omega
  have hword : WordOf n (fun i => (x.coords i + coordBiasN n).toNat) x.coset := by
    have h' := wordOf_evenSum hn (biasAndClamp_le n (coordBiasN n) (integerCoords x.coset x.toVec))
      (cosetOf_toVec x ▸ cosetOf_lt x.toVec)
    rwa [evenSum_toVec hlow hhigh h] at h'
  have hencode : encodeIndexN x.toVec n = packWord n (fun i => (x.coords i + coordBiasN n).toNat) x.coset := by
    have heq := encodeIndexN_eq hn x.toVec
    rw [cosetOf_toVec, evenSum_toVec hlow hhigh h] at heq
    exact heq hword
  rw [decodeIndexN_eq hn, hencode, wordCoset_packWord hn hword, wordCoords_packWord hn hword]
  funext i
  rw [vectorOf, Int.toNat_of_nonneg (h i).1, add_sub_cancel_right, E8Point.toVec, E8Point.coset]
  cases x.half <;> rfl

/-- Every codeword is the one of a point in the box. -/
theorem codeword_point (hlow : 2 ≤ n) (hhigh : n ≤ 4) (hidx : idx < 2 ^ (8 * n)) :
    ∃ x : E8Point, InBox n x ∧ x.coset = wordCoset n idx ∧ decodeIndexN idx n = x.toVec ∧ encodeIndexN x.toVec n = idx := by
  have hn : n ≠ 0 := by omega
  have hword := wordOf_word hn idx
  have hbox := inBox_pointOf hword
  have hdecode : decodeIndexN idx n = (pointOf (coordBiasN n) hword (even_bias _)).toVec := by
    rw [decodeIndexN_eq hn, toVec_pointOf]
  refine ⟨_, hbox, coset_pointOf hword _, hdecode, ?_⟩
  have hcoset := coset_pointOf hword (even_bias (coordBiasN n))
  have heq := encodeIndexN_eq hn (pointOf (coordBiasN n) hword (even_bias _)).toVec
  rw [cosetOf_toVec, evenSum_toVec hlow hhigh hbox, hcoset] at heq
  have hback : (fun i => ((pointOf (coordBiasN n) hword (even_bias _)).coords i + coordBiasN n).toNat) = wordCoords n idx :=
    funext fun i => by rw [pointOf, sub_add_cancel, Int.toNat_natCast]
  rw [hback] at heq
  rw [heq hword, packWord_word hidx]

theorem encodeIndexN_lt (hn : n ≠ 0) (p : Fin 8 → ℚ) : encodeIndexN p n < 2 ^ (8 * n) := by
  obtain ⟨e, hword, heq⟩ := encodeIndexN_word hn p
  rw [heq]
  exact packWord_lt hn hword

/-- Any point is encoded like a point in the box, of its own coset. -/
theorem encode_clamped (hlow : 2 ≤ n) (hhigh : n ≤ 4) (x : E8Point) :
    ∃ y : E8Point, InBox n y ∧ y.coset = x.coset ∧ encodeIndexN x.toVec n = encodeIndexN y.toVec n ∧
      decodeIndexN (encodeIndexN x.toVec n) n = y.toVec := by
  have hn : n ≠ 0 := by omega
  obtain ⟨e, hword, heq⟩ := encodeIndexN_word hn x.toVec
  obtain ⟨y, hbox, hcoset, hdecode, hencode⟩ := codeword_point hlow hhigh (encodeIndexN_lt hn x.toVec)
  refine ⟨y, hbox, ?_, hencode.symm, hdecode⟩
  rw [hcoset, heq, wordCoset_packWord hn hword, cosetOf_toVec]

end Points

/-- The search finds a nearest lattice point when no rounding saturates, and the codewords of each
width are the points of its box. -/
theorem e8_codec :
    (∀ u, Fits u → (Fits fun i => u i - 1 / 2) → ∃ x : E8Point, closestE8 u = x.toVec ∧
      ∀ z : E8Point, sqDist u x.toVec ≤ sqDist u z.toVec) ∧
    (∀ n, 2 ≤ n → n ≤ 4 →
      (∀ x, InBox n x → decodeIndexN (encodeIndexN x.toVec n) n = x.toVec) ∧
      (∀ idx, idx < 2 ^ (8 * n) → ∃ x, InBox n x ∧ decodeIndexN idx n = x.toVec ∧ encodeIndexN x.toVec n = idx) ∧
      (∀ x : E8Point, ∃ y : E8Point, InBox n y ∧ y.coset = x.coset ∧ encodeIndexN x.toVec n = encodeIndexN y.toVec n ∧
        decodeIndexN (encodeIndexN x.toVec n) n = y.toVec) ∧
      ∀ p, encodeIndexN p n < 2 ^ (8 * n)) ∧
    (∀ p, encodeIndexN p 4 = encodeIndex p) ∧ ∀ idx, decodeIndexN idx 4 = decodeIndex idx := by
  refine ⟨fun u hu hhalf => ?_, fun n hlow hhigh => ⟨fun x hx => decode_encode hlow hhigh hx, fun idx hidx => ?_,
    fun x => encode_clamped hlow hhigh x, fun p => encodeIndexN_lt (by omega) p⟩, encodeIndexN_four, decodeIndexN_four⟩
  · have hnearest := closestE8_nearest hu hhalf
    obtain ⟨x, hx⟩ := mem_e8.1 hnearest.mem
    refine ⟨x, hx.symm, fun z => ?_⟩
    rw [hx]
    exact hnearest.least _ (mem_e8.2 ⟨z, rfl⟩)
  · obtain ⟨x, hbox, -, hdecode, hencode⟩ := codeword_point hlow hhigh hidx
    exact ⟨x, hbox, hdecode, hencode⟩

/-- Its coordinates round to an odd sum. -/
def oddVector : Fin 8 → ℚ := fun i => if i.val = 0 then 3 / 4 else if i.val = 1 then 2 else 0

/-- A half-integer point outside the box of two bits. -/
def outerPoint : E8Point := ⟨true, fun i => if i.val = 0 then 5 else if i.val = 1 then -5 else 0, by decide⟩

theorem e8_codec_sample :
    (∃ x : E8Point, closestE8 oddVector = x.toVec ∧ ∀ z : E8Point, sqDist oddVector x.toVec ≤ sqDist oddVector z.toVec) ∧
    (∃ x, InBox 2 x ∧ decodeIndexN 0xBEEF 2 = x.toVec ∧ encodeIndexN x.toVec 2 = 0xBEEF) ∧
    ∃ y : E8Point, InBox 2 y ∧ y.coset = 1 ∧ encodeIndexN outerPoint.toVec 2 = encodeIndexN y.toVec 2 ∧
      decodeIndexN (encodeIndexN outerPoint.toVec 2) 2 = y.toVec := by
  obtain ⟨-, hcodeword, hclamped, -⟩ := e8_codec.2.1 2 (by decide) (by decide)
  refine ⟨e8_codec.1 oddVector (fun i => ?_) (fun i => ?_), hcodeword 0xBEEF (by decide), hclamped outerPoint⟩
  · simp only [oddVector]
    split_ifs <;> norm_num [roundTieAway]
  · simp only [oddVector]
    split_ifs <;> norm_num [roundTieAway]

end Hipscope.Quantize
