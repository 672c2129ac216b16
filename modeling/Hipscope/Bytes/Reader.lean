import Mathlib.Data.Nat.Bitwise
import Mathlib.Algebra.Group.Nat.Defs
import Mathlib.Data.List.Basic

/-! Fields of one width, packed into a number from the lowest one up. -/
namespace Hipscope.Bytes

def packFields (w : ℕ) (e : ℕ → ℕ) : ℕ → ℕ
  | 0 => 0
  | k + 1 => packFields w e k ||| e k <<< (k * w)

def field (w x i : ℕ) : ℕ := (x >>> (i * w)) % 2 ^ w

section
variable {w x i k : ℕ} {e e' : ℕ → ℕ}

theorem packFields_congr (h : ∀ i < k, e i = e' i) : packFields w e k = packFields w e' k := by
  induction k with
  | zero => rfl
  | succ k ih => rw [packFields, packFields, ih fun i hi => h i (Nat.lt_succ_of_lt hi), h k (Nat.lt_succ_self k)]

private theorem packFields_succ (h : packFields w e k < 2 ^ (k * w)) :
    packFields w e (k + 1) = e k * 2 ^ (k * w) + packFields w e k := by
  rw [packFields, Nat.or_comm, ← Nat.shiftLeft_add_eq_or_of_lt h, Nat.shiftLeft_eq]

theorem packFields_lt (h : ∀ i < k, e i < 2 ^ w) : packFields w e k < 2 ^ (k * w) := by
  induction k with
  | zero => exact Nat.two_pow_pos _
  | succ k ih =>
    have hlow := ih fun i hi => h i (Nat.lt_succ_of_lt hi)
    rw [packFields_succ hlow, Nat.succ_mul, Nat.pow_add]
    calc e k * 2 ^ (k * w) + packFields w e k < e k * 2 ^ (k * w) + 2 ^ (k * w) := Nat.add_lt_add_left hlow _
      _ = (e k + 1) * 2 ^ (k * w) := (Nat.succ_mul _ _).symm
      _ ≤ 2 ^ w * 2 ^ (k * w) := Nat.mul_le_mul_right _ (h k (Nat.lt_succ_self k))
      _ = 2 ^ (k * w) * 2 ^ w := Nat.mul_comm _ _

/-- A packed field is read back. -/
theorem field_packFields (h : ∀ i < k, e i < 2 ^ w) (hi : i < k) : field w (packFields w e k) i = e i := by
  induction k with
  | zero => exact absurd hi (Nat.not_lt_zero i)
  | succ k ih =>
    have hlow : ∀ i < k, e i < 2 ^ w := fun i hi => h i (Nat.lt_succ_of_lt hi)
    rw [field, packFields_succ (packFields_lt hlow), Nat.shiftRight_eq_div_pow]
    rcases Nat.lt_or_eq_of_le (Nat.le_of_lt_succ hi) with hik | rfl
    · obtain ⟨d, rfl⟩ := Nat.exists_eq_add_of_lt hik
      have hpow : 2 ^ ((i + d + 1) * w) = 2 ^ (i * w) * (2 ^ w * 2 ^ (d * w)) := by
        rw [← Nat.pow_add, ← Nat.pow_add]
        congr 1
        rw [Nat.add_mul, Nat.add_mul, Nat.one_mul, Nat.add_assoc, Nat.add_comm w]
      rw [hpow, Nat.mul_left_comm, Nat.add_comm, Nat.add_mul_div_left _ _ (Nat.two_pow_pos _), Nat.mul_left_comm,
        Nat.add_mul_mod_self_left]
      have hfield := ih hlow hik
      rwa [field, Nat.shiftRight_eq_div_pow] at hfield
    · rw [Nat.add_comm, Nat.add_mul_div_right _ _ (Nat.two_pow_pos _), Nat.div_eq_of_lt (packFields_lt hlow), Nat.zero_add,
        Nat.mod_eq_of_lt (h i (Nat.lt_succ_self i))]

/-- A number is made of its fields. -/
theorem packFields_field (w x k : ℕ) : packFields w (field w x) k = x % 2 ^ (k * w) := by
  induction k with
  | zero => rw [Nat.zero_mul, Nat.pow_zero, Nat.mod_one]; rfl
  | succ k ih =>
    have hlow : packFields w (field w x) k < 2 ^ (k * w) :=
      packFields_lt fun i _ => Nat.mod_lt _ (Nat.two_pow_pos w)
    rw [packFields_succ hlow, ih, Nat.succ_mul, Nat.pow_add, Nat.mod_mul, field, Nat.shiftRight_eq_div_pow,
      Nat.mul_comm (x / 2 ^ (k * w) % 2 ^ w), Nat.add_comm]

end
end Hipscope.Bytes

/-! Reading words out of a buffer through a cursor. A slice past the end, or a
cursor past the range of `usize`, aborts the reader. -/
namespace Hipscope.Bytes
variable {α : Type} {buffer : List α} {o o' : ℕ}

def addUsize (x y : ℕ) : Option ℕ := if x + y < 2 ^ 64 then some (x + y) else none

def mulUsize (x y : ℕ) : Option ℕ := if x * y < 2 ^ 64 then some (x * y) else none

theorem addUsize_of_lt {x y : ℕ} (h : x + y < 2 ^ 64) : addUsize x y = some (x + y) := if_pos h

theorem mulUsize_of_lt {x y : ℕ} (h : x * y < 2 ^ 64) : mulUsize x y = some (x * y) := if_pos h

theorem addUsize_eq_some_iff {x y z : ℕ} : addUsize x y = some z ↔ x + y = z ∧ z < 2 ^ 64 := by
  rw [addUsize]
  constructor
  · intro h
    split_ifs at h with hlt
    cases h
    exact ⟨rfl, hlt⟩
  · rintro ⟨rfl, hlt⟩
    rw [if_pos hlt]

theorem mulUsize_eq_some_iff {x y z : ℕ} : mulUsize x y = some z ↔ x * y = z ∧ z < 2 ^ 64 := by
  rw [mulUsize]
  constructor
  · intro h
    split_ifs at h with hlt
    cases h
    exact ⟨rfl, hlt⟩
  · rintro ⟨rfl, hlt⟩
    rw [if_pos hlt]

/-- The next `width` elements and the cursor behind them. -/
def sliceAt (buffer : List α) (o width : ℕ) : Option (List α × ℕ) := do
  let stop ← addUsize o width
  if stop ≤ buffer.length then some ((buffer.drop o).take width, stop) else none

/-- The word from one cursor to the other. -/
structure Consumes (buffer : List α) (o : ℕ) (word : List α) (o' : ℕ) : Prop where
  stop : o' = o + word.length
  inside : o' ≤ buffer.length
  front : buffer.drop o = word ++ buffer.drop o'

namespace Consumes
variable {word left right : List α}

theorem nil (h : o ≤ buffer.length) : Consumes buffer o [] o := ⟨rfl, h, rfl⟩

theorem append_iff : Consumes buffer o (left ++ right) o' ↔
    ∃ middle, Consumes buffer o left middle ∧ Consumes buffer middle right o' := by
  constructor
  · rintro ⟨hstop, hinside, hfront⟩
    rw [List.length_append] at hstop
    have hdrop : buffer.drop (o + left.length) = right ++ buffer.drop o' := by
      rw [← List.drop_drop, hfront, List.append_assoc, List.drop_left]
    refine ⟨o + left.length, ⟨rfl, by omega, ?_⟩, ⟨by omega, hinside, hdrop⟩⟩
    rw [hfront, hdrop, List.append_assoc]
  · rintro ⟨middle, hleft, hright⟩
    refine ⟨?_, hright.inside, ?_⟩
    · rw [hright.stop, hleft.stop, List.length_append]
      omega
    · rw [hleft.front, hright.front, List.append_assoc]

theorem start_iff : (∃ stop, Consumes buffer 0 word stop) ↔ word <+: buffer := by
  constructor
  · rintro ⟨stop, h⟩
    exact ⟨buffer.drop stop, h.front.symm⟩
  · rintro ⟨rest, rfl⟩
    refine ⟨word.length, by simp, by simp, by simp⟩

/-- A word is determined by its cursors. -/
theorem word_eq {word' : List α} (h : Consumes buffer o word o') (h' : Consumes buffer o word' o') :
    word = word' :=
  List.append_cancel_right (h.front.symm.trans h'.front)

/-- Inside the buffer there is a word of any width. -/
theorem slice {width : ℕ} (h : o + width ≤ buffer.length) :
    ((buffer.drop o).take width).length = width ∧
      Consumes buffer o ((buffer.drop o).take width) (o + width) := by
  have hlen : ((buffer.drop o).take width).length = width := by
    rw [List.length_take, List.length_drop]
    omega
  refine ⟨hlen, by rw [hlen], h, ?_⟩
  rw [← List.drop_drop]
  exact (List.take_append_drop width (buffer.drop o)).symm

end Consumes

theorem sliceAt_eq_some_iff (hfits : buffer.length < 2 ^ 64) {width : ℕ} {word : List α} :
    sliceAt buffer o width = some (word, o') ↔ word.length = width ∧ Consumes buffer o word o' := by
  simp only [sliceAt, Option.bind_eq_bind, Option.bind_eq_some_iff, addUsize_eq_some_iff]
  constructor
  · rintro ⟨stop, ⟨rfl, -⟩, h⟩
    split_ifs at h with hin
    cases h
    exact Consumes.slice hin
  · rintro ⟨rfl, h⟩
    have hrange := h.stop ▸ h.inside
    refine ⟨o + word.length, ⟨rfl, by omega⟩, ?_⟩
    rw [if_pos hrange, h.front, List.take_left, h.stop]

/-- Inside the buffer a slice never aborts. -/
theorem sliceAt_isSome {width : ℕ} (hfits : buffer.length < 2 ^ 64) (h : o + width ≤ buffer.length) :
    ∃ word, word.length = width ∧ sliceAt buffer o width = some (word, o + width) :=
  ⟨_, (Consumes.slice h).1, (sliceAt_eq_some_iff hfits).mpr (Consumes.slice h)⟩

end Hipscope.Bytes
