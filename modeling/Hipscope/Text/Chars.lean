import Mathlib.Data.List.Infix
import Mathlib.Data.String.Basic

/-! A text of characters and its bytes: cutting it by its length in bytes, at characters. -/
namespace Hipscope

def utf8Bytes (text : List Char) : List UInt8 := text.flatMap String.utf8EncodeChar

theorem utf8Bytes_cons (c : Char) (s : List Char) : utf8Bytes (c :: s) = String.utf8EncodeChar c ++ utf8Bytes s :=
  List.flatMap_cons

theorem utf8Bytes_append (a b : List Char) : utf8Bytes (a ++ b) = utf8Bytes a ++ utf8Bytes b := List.flatMap_append

theorem utf8Bytes_flatten (chunks : List (List Char)) : utf8Bytes chunks.flatten = (chunks.map utf8Bytes).flatten := by
  induction chunks with
  | nil => rfl
  | cons chunk chunks ih => rw [List.flatten_cons, utf8Bytes_append, ih, List.map_cons, List.flatten_cons]

end Hipscope

namespace Hipscope.Text
open String
variable {s : List Char}

/-- A check of listed characters goes along the list, not along all characters. -/
instance decidableForallListed {p : Char → Prop} [DecidablePred p] (l : List Char) : Decidable (∀ c ∈ l, p c) :=
  List.decidableBAll p l

theorem utf8Len_drop_lt {i k : ℕ} (hik : i < k) (hk : k ≤ s.length) :
    utf8Len (s.drop k) < utf8Len (s.drop i) := by
  have hcut : s.drop i = (s.drop i).take (k - i) ++ s.drop k := by
    conv_lhs => rw [← List.take_append_drop (k - i) (s.drop i)]
    rw [List.drop_drop, Nat.add_sub_cancel' hik.le]
  have hne : utf8Len ((s.drop i).take (k - i)) ≠ 0 := by
    rw [Ne, utf8Len_eq_zero, ← List.length_eq_zero_iff, List.length_take, List.length_drop]
    omega
  rw [hcut, utf8Len_append]
  omega

theorem utf8Len_pos (h : s ≠ []) : 0 < utf8Len s := by
  refine Nat.pos_of_ne_zero ?_
  rwa [Ne, utf8Len_eq_zero]

theorem utf8Len_lt_of_suffix {a b : List Char} (h : a <:+ b) (hne : a ≠ b) : utf8Len a < utf8Len b := by
  obtain ⟨t, rfl⟩ := h
  have := utf8Len_pos (s := t) (fun ht => hne (by rw [ht, List.nil_append]))
  rw [utf8Len_append]
  omega

theorem utf8Len_lt_of_prefix {a b : List Char} (h : a <+: b) (hne : a ≠ b) : utf8Len a < utf8Len b := by
  obtain ⟨t, rfl⟩ := h
  have := utf8Len_pos (s := t) (fun ht => hne (by rw [ht, List.append_nil]))
  rw [utf8Len_append]
  omega

/-- The characters of the longest front of at most `n` bytes. -/
def utf8SafeSplit : List Char → ℕ → ℕ
  | [], _ => 0
  | c :: s, n => if c.utf8Size ≤ n then utf8SafeSplit s (n - c.utf8Size) + 1 else 0

theorem utf8SafeSplit_cons (c : Char) (s : List Char) (n : ℕ) :
    utf8SafeSplit (c :: s) n = if c.utf8Size ≤ n then utf8SafeSplit s (n - c.utf8Size) + 1 else 0 := rfl

theorem utf8SafeSplit_le_length (s : List Char) (n : ℕ) : utf8SafeSplit s n ≤ s.length := by
  induction s generalizing n with
  | nil => exact Nat.le_refl _
  | cons c s ih =>
    rw [utf8SafeSplit_cons]
    split
    · exact Nat.succ_le_succ (ih _)
    · exact Nat.zero_le _

theorem utf8Len_take_safeSplit (s : List Char) (n : ℕ) : utf8Len (s.take (utf8SafeSplit s n)) ≤ n := by
  induction s generalizing n with
  | nil => exact Nat.zero_le _
  | cons c s ih =>
    rw [utf8SafeSplit_cons]
    split
    · rename_i hfit
      have := ih (n - c.utf8Size)
      rw [List.take_succ_cons, utf8Len_cons]
      omega
    · exact Nat.zero_le _

/-- The longest tail of at most `n` bytes. -/
def lastBytes (n : ℕ) : List Char → List Char
  | [] => []
  | c :: s => if utf8Len (c :: s) ≤ n then c :: s else lastBytes n s

section Last
variable {n : ℕ} {t x y : List Char}

theorem lastBytes_cons (n : ℕ) (c : Char) (s : List Char) :
    lastBytes n (c :: s) = if utf8Len (c :: s) ≤ n then c :: s else lastBytes n s := rfl

theorem lastBytes_suffix (n : ℕ) (s : List Char) : lastBytes n s <:+ s := by
  induction s with
  | nil => exact List.suffix_refl _
  | cons c s ih =>
    rw [lastBytes_cons]
    split
    · exact List.suffix_refl _
    · exact ih.trans (List.suffix_cons c s)

theorem utf8Len_lastBytes_le (n : ℕ) (s : List Char) : utf8Len (lastBytes n s) ≤ n := by
  induction s with
  | nil => exact Nat.zero_le _
  | cons c s ih =>
    rw [lastBytes_cons]
    split
    · assumption
    · exact ih

theorem lastBytes_longest (ht : t <:+ s) (hn : utf8Len t ≤ n) : t <:+ lastBytes n s := by
  induction s with
  | nil => exact ht
  | cons c s ih =>
    rw [lastBytes_cons]
    split
    · exact ht
    · next hlong =>
      rcases List.suffix_cons_iff.1 ht with rfl | ht
      · exact absurd hn hlong
      · exact ih ht

/-- Cutting before more text comes changes nothing. -/
theorem lastBytes_append (n : ℕ) (x y : List Char) : lastBytes n (lastBytes n x ++ y) = lastBytes n (x ++ y) := by
  have hshort : lastBytes n (lastBytes n x ++ y) <:+ lastBytes n (x ++ y) := by
    refine lastBytes_longest ?_ (utf8Len_lastBytes_le _ _)
    refine (lastBytes_suffix _ _).trans ?_
    obtain ⟨d, hd⟩ := lastBytes_suffix n x
    exact ⟨d, by rw [← List.append_assoc, hd]⟩
  refine hshort.eq_of_length_le (List.IsSuffix.length_le (lastBytes_longest ?_ (utf8Len_lastBytes_le _ _)))
  have hwhole := lastBytes_suffix n (x ++ y)
  rcases Nat.le_total (lastBytes n (x ++ y)).length y.length with hle | hge
  · exact (List.suffix_of_suffix_length_le hwhole (List.suffix_append x y) hle).trans (List.suffix_append _ y)
  · -- the tail reaches back into `x`
    obtain ⟨u, hu⟩ := List.suffix_of_suffix_length_le (List.suffix_append x y) hwhole hge
    have hlen := utf8Len_lastBytes_le n (x ++ y)
    rw [← hu, utf8Len_append] at hlen
    rw [← hu] at hwhole ⊢
    obtain ⟨f, hf⟩ := hwhole
    rw [← List.append_assoc, List.append_left_inj] at hf
    obtain ⟨e, he⟩ := lastBytes_longest ⟨f, hf⟩ (by omega : utf8Len u ≤ n)
    exact ⟨e, by rw [← List.append_assoc, he]⟩

end Last

end Hipscope.Text
