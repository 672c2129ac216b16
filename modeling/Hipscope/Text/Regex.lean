import Mathlib.Data.List.Infix
import Mathlib.Algebra.Group.Nat.Defs

/-! Leftmost-first matching: a pattern gives what is left of the text after each of its
matches, in order of preference. -/
namespace Hipscope.Text

/-- Patterns; repetition is of one class, greedy, between two bounds. -/
inductive Pattern (α : Type) where
  | one (accept : α → Bool)
  | rep (accept : α → Bool) (lo : ℕ) (hi : Option ℕ)
  | seq (p q : Pattern α)
  | alt (p q : Pattern α)

namespace Pattern
variable {α : Type} {p q : Pattern α} {s r : List α}

/-- How many elements at the front a repetition can take. -/
def run (accept : α → Bool) (hi : Option ℕ) (s : List α) : ℕ :=
  match hi with
  | none => (s.takeWhile accept).length
  | some hi => min hi (s.takeWhile accept).length

/-- What each match leaves, the preferred one first. -/
def remainders : Pattern α → List α → List (List α)
  | one _, [] => []
  | one accept, a :: s => if accept a then [s] else []
  | rep accept lo hi, s =>
    ((List.range (run accept hi s + 1)).reverse.filter fun k => decide (lo ≤ k)).map fun k => s.drop k
  | seq p q, s => (p.remainders s).flatMap q.remainders
  | alt p q, s => p.remainders s ++ q.remainders s

/-- The shortest match. -/
def minLen : Pattern α → ℕ
  | one _ => 1
  | rep _ lo _ => lo
  | seq p q => p.minLen + q.minLen
  | alt p q => min p.minLen q.minLen

theorem run_le (accept : α → Bool) (hi : Option ℕ) (s : List α) : run accept hi s ≤ s.length := by
  have := (List.takeWhile_prefix accept (l := s)).length_le
  cases hi with
  | none => exact this
  | some hi => exact Nat.le_trans (Nat.min_le_right _ _) this

/-- A match takes a piece of at least the least length off the front. -/
theorem remainder_suffix (p : Pattern α) :
    ∀ {s r : List α}, r ∈ p.remainders s → r <:+ s ∧ r.length + p.minLen ≤ s.length := by
  induction p with
  | one accept =>
    intro s r h
    cases s with
    | nil => cases h
    | cons a s =>
      simp only [remainders] at h
      split at h
      · obtain rfl := List.mem_singleton.1 h
        exact ⟨List.suffix_cons a r, Nat.le_refl _⟩
      · cases h
  | rep accept lo hi =>
    intro s r h
    obtain ⟨k, hk, rfl⟩ := List.mem_map.1 h
    simp only [List.mem_filter, List.mem_reverse, List.mem_range, decide_eq_true_eq] at hk
    have := run_le accept hi s
    refine ⟨List.drop_suffix k s, ?_⟩
    rw [List.length_drop, minLen]
    omega
  | seq p q ihp ihq =>
    intro s r h
    obtain ⟨m, hm, hr⟩ := List.mem_flatMap.1 h
    obtain ⟨hms, hmlen⟩ := ihp hm
    obtain ⟨hrm, hrlen⟩ := ihq hr
    refine ⟨hrm.trans hms, ?_⟩
    rw [minLen]
    omega
  | alt p q ihp ihq =>
    intro s r h
    rw [minLen]
    rcases List.mem_append.1 h with h | h
    · obtain ⟨hs, hlen⟩ := ihp h
      exact ⟨hs, by omega⟩
    · obtain ⟨hs, hlen⟩ := ihq h
      exact ⟨hs, by omega⟩

/-- A repetition that may be empty matches everywhere. -/
theorem self_mem_rep (accept : α → Bool) (hi : Option ℕ) (s : List α) : s ∈ (rep accept 0 hi).remainders s := by
  refine List.mem_map.2 ⟨0, ?_, rfl⟩
  simp

/-- One accepted element is a match of a repetition that allows one. -/
theorem tail_mem_rep {accept : α → Bool} {lo : ℕ} {hi : Option ℕ} {a : α} (ha : accept a = true) (hlo : lo ≤ 1)
    (hhi : hi ≠ some 0) (s : List α) : s ∈ (rep accept lo hi).remainders (a :: s) := by
  refine List.mem_map.2 ⟨1, ?_, rfl⟩
  have hrun : 1 ≤ run accept hi (a :: s) := by
    cases hi with
    | none => simp [run, ha]
    | some hi =>
      have : hi ≠ 0 := fun h => hhi (by rw [h])
      simp only [run, List.takeWhile_cons, ha, if_true, List.length_cons]
      omega
  simp only [List.mem_filter, List.mem_reverse, List.mem_range, decide_eq_true_eq]
  omega

theorem mem_seq {m : List α} (hm : m ∈ p.remainders s) (hr : r ∈ q.remainders m) : r ∈ (seq p q).remainders s :=
  List.mem_flatMap.2 ⟨m, hm, hr⟩

theorem mem_alt_left (h : r ∈ p.remainders s) : r ∈ (alt p q).remainders s := List.mem_append_left _ h

theorem mem_alt_right (h : r ∈ q.remainders s) : r ∈ (alt p q).remainders s := List.mem_append_right _ h

/-- The matches one after the other; an empty match moves on by one element. -/
def findFrom (p : Pattern α) : ℕ → List α → List (List α)
  | 0, _ => []
  | _ + 1, [] => []
  | rounds + 1, a :: s =>
    match (p.remainders (a :: s)).head? with
    | none => findFrom p rounds s
    | some r =>
      if r.length = s.length + 1 then [] :: findFrom p rounds s
      else (a :: s).take (s.length + 1 - r.length) :: findFrom p rounds r

/-- Leftmost-first matches that do not overlap. -/
def findIter (p : Pattern α) (s : List α) : List (List α) := findFrom p s.length s

/-- A pattern that matches a piece wherever there is something left tiles the text. -/
theorem findFrom_flatten (hpos : 0 < p.minLen) (hcovers : ∀ a s, ∃ r, r ∈ p.remainders (a :: s)) (rounds : ℕ) :
    ∀ {s : List α}, s.length ≤ rounds → (findFrom p rounds s).flatten = s := by
  induction rounds with
  | zero =>
    intro s h
    rw [List.eq_nil_of_length_eq_zero (Nat.le_zero.1 h)]
    rfl
  | succ rounds ih =>
    intro s h
    cases s with
    | nil => rfl
    | cons a s =>
      rw [findFrom]
      cases hhead : (p.remainders (a :: s)).head? with
      | none =>
        obtain ⟨r, hr⟩ := hcovers a s
        rw [List.head?_eq_none_iff] at hhead
        rw [hhead] at hr
        cases hr
      | some r =>
        obtain ⟨hsuffix, hlen⟩ := remainder_suffix p (List.mem_of_mem_head? hhead)
        rw [List.length_cons] at hlen h
        have hdrop : r = (a :: s).drop (s.length + 1 - r.length) := List.suffix_iff_eq_drop.1 hsuffix
        change (if r.length = s.length + 1 then _ else _ : List (List α)).flatten = _
        rw [if_neg (by omega), List.flatten_cons, ih (by omega)]
        conv_lhs =>
          arg 2
          rw [hdrop]
        exact List.take_append_drop _ _

theorem findIter_flatten (hpos : 0 < p.minLen) (hcovers : ∀ a s, ∃ r, r ∈ p.remainders (a :: s)) (s : List α) :
    (findIter p s).flatten = s :=
  findFrom_flatten hpos hcovers s.length (Nat.le_refl _)

end Pattern
end Hipscope.Text
