import Hipscope.Text.Search

/-! Incremental matching of a marker with a failure table. -/
namespace Hipscope.Text
variable {α : Type*} {pat w u m m' : List α} {s k : ℕ}

/-- The longest beginning of the pattern that the text ends with. -/
structure Matched (pat w : List α) (k : ℕ) : Prop where
  le : k ≤ pat.length
  tail : pat.take k <:+ w
  longest : ∀ j ≤ pat.length, pat.take j <:+ w → j ≤ k

theorem matched_nil (pat : List α) : Matched pat [] 0 where
  le := Nat.zero_le _
  tail := by simp
  longest j hj h := by
    have := h.length_le
    rw [List.length_take_of_le hj] at this
    exact this

theorem Matched.covers (h : Matched pat w k) : Covers k w pat := fun j hj => h.longest j hj.le

/-- A match only sees as much of the text as it spans. -/
theorem Matched.drop {n : ℕ} (h : Matched pat w k) (hn : n + k ≤ w.length) : Matched pat (w.drop n) k where
  le := h.le
  tail := by
    refine List.suffix_of_suffix_length_le h.tail (List.drop_suffix n w) ?_
    rw [List.length_take_of_le h.le, List.length_drop]
    omega
  longest j hj ht := h.longest j hj (ht.trans (List.drop_suffix n w))

/-- A marker not in the text before the last element, and not at its end. -/
theorem Absent.snoc {b : α} (h : Absent m u) (hend : ¬ m <:+ u ++ [b]) : Absent m (u ++ [b]) := by
  intro i hi
  have hlen := hi.length_le
  rw [List.length_drop, List.length_append, List.length_singleton] at hlen
  rcases Nat.lt_or_ge u.length i with hlt | hle
  · refine hend ?_
    have hm : m = [] := List.eq_nil_of_length_eq_zero (by omega)
    rw [hm]
    exact List.nil_suffix
  · rw [List.drop_append_of_le_length hle] at hi
    rcases List.prefix_concat_iff.mp (by simpa using hi) with heq | hin
    · refine hend ?_
      rw [heq, ← List.drop_append_of_le_length hle]
      exact List.drop_suffix _ _
    · exact h i hin

/-- Of two markers that do not nest, only one ends a text, and no other begins before it. -/
theorem not_prefix_before_end {b : α} {i : ℕ} {t : List α} (h : m' <:+ u ++ [b])
    (hnest : m' <:+: m → m' = m) (habsent : Absent m u) (hi : i + m'.length < (u ++ [b]).length) :
    ¬ m <+: (u ++ [b] ++ t).drop i := by
  have hstart : m' <+: (u ++ [b]).drop ((u ++ [b]).length - m'.length) := by
    rw [← List.suffix_iff_eq_drop.mp h]
  refine not_prefix_before hstart (by omega) (Nat.sub_le _ _) (fun hin => ?_) hnest
  have hlen := hin.length_le
  rw [List.length_drop] at hlen
  have hle : i ≤ u.length := by
    rw [List.length_append, List.length_singleton] at hi
    omega
  have hsplit : m = (u ++ [b]).drop i ∨ m <+: u.drop i := by
    rw [List.drop_append_of_le_length hle] at hin ⊢
    exact List.prefix_concat_iff.mp (by simpa using hin)
  rcases hsplit with heq | hbefore
  · have hnested : m' <:+ m := by
      rw [heq]
      refine List.suffix_of_suffix_length_le h (List.drop_suffix _ _) ?_
      rw [List.length_drop]
      omega
    rw [hnest hnested.isInfix] at hi
    rw [heq, List.length_drop] at hi
    omega
  · exact habsent i hbefore

section Table
variable [DecidableEq α] {fail : List ℕ} {b : α}

/-- The loop that fills the failure table, a step for each comparison. -/
def kmpFailLoop (pat : List α) : ℕ → ℕ → ℕ → List ℕ → List ℕ
  | 0, _, _, fail => fail
  | rounds + 1, i, j, fail =>
    if i < pat.length then
      if pat[i]? = pat[j]? then kmpFailLoop pat rounds (i + 1) (j + 1) (fail.set i (j + 1))
      else if 0 < j then kmpFailLoop pat rounds i (fail.getD (j - 1) 0) fail
      else kmpFailLoop pat rounds (i + 1) j (fail.set i 0)
    else fail

/-- `kmpFail pat` at `i` is the longest proper beginning of the first `i + 1` elements that ends them. -/
def kmpFail (pat : List α) : List ℕ :=
  kmpFailLoop pat (2 * pat.length) 1 0 (List.replicate pat.length 0)

/-- One step from `state` matched elements; every round falls back to a shorter match. -/
def advanceKmp (pat : List α) (fail : List ℕ) (b : α) : ℕ → ℕ → ℕ
  | 0, _ => 0
  | rounds + 1, s =>
    if pat[s]? = some b then s + 1
    else if s = 0 then 0
    else advanceKmp pat fail b rounds (fail.getD (s - 1) 0)

/-- What the table has to say: the longest shorter beginning that ends each beginning. -/
def Borders (pat : List α) (fail : List ℕ) : Prop :=
  ∀ s ≤ pat.length, 0 < s → fail.getD (s - 1) 0 < s ∧ pat.take (fail.getD (s - 1) 0) <:+ pat.take s ∧
    ∀ j < s, pat.take j <:+ pat.take s → j ≤ fail.getD (s - 1) 0

instance (pat : List α) (fail : List ℕ) : Decidable (Borders pat fail) :=
  inferInstanceAs (Decidable (∀ s ≤ pat.length, 0 < s → fail.getD (s - 1) 0 < s ∧
    pat.take (fail.getD (s - 1) 0) <:+ pat.take s ∧
      ∀ j < s, pat.take j <:+ pat.take s → j ≤ fail.getD (s - 1) 0))

omit [DecidableEq α] in
private theorem take_succ_suffix_concat {j : ℕ} (hj : j < pat.length) :
    pat.take (j + 1) <:+ w ++ [b] ↔ pat[j]? = some b ∧ pat.take j <:+ w := by
  rw [List.take_add_one, List.getElem?_eq_getElem hj, Option.toList_some, Option.some_inj,
    List.suffix_concat_iff]
  constructor
  · rintro (hnil | ⟨t, heq, ht⟩)
    · exact absurd hnil (List.append_ne_nil_of_right_ne_nil _ (List.cons_ne_nil _ _))
    · obtain ⟨rfl, hlast⟩ := List.append_inj' heq rfl
      exact ⟨by simpa using hlast, ht⟩
  · rintro ⟨rfl, h⟩
    exact .inr ⟨_, rfl, h⟩

/-- The fallback loop, from any match that no longer one can beat. -/
private theorem advanceKmp_matched {rounds : ℕ} (hfail : Borders pat fail) (hs : s ≤ pat.length) (hr : s < rounds)
    (htail : pat.take s <:+ w) (hbest : ∀ j < pat.length, pat.take (j + 1) <:+ w ++ [b] → j ≤ s) :
    Matched pat (w ++ [b]) (advanceKmp pat fail b rounds s) := by
  induction rounds generalizing s with
  | zero => omega
  | succ rounds ih =>
    rw [advanceKmp]
    split_ifs with hhit hzero
    · have hlt : s < pat.length := (List.getElem?_eq_some_iff.mp hhit).1
      refine ⟨hlt, (take_succ_suffix_concat hlt).mpr ⟨hhit, htail⟩, fun j hj hjtail => ?_⟩
      cases j with
      | zero => omega
      | succ j => exact Nat.succ_le_succ (hbest j hj hjtail)
    · refine ⟨Nat.zero_le _, by simp, fun j hj hjtail => ?_⟩
      cases j with
      | zero => exact le_rfl
      | succ j =>
        have := hbest j hj hjtail
        obtain rfl : j = s := by omega
        exact absurd ((take_succ_suffix_concat hj).mp hjtail).1 hhit
    · obtain ⟨hshorter, hborder, hlongest⟩ := hfail s hs (by omega)
      refine ih (by omega) (by omega) (hborder.trans htail) fun j hj hjtail => ?_
      obtain ⟨hat, hj'⟩ := (take_succ_suffix_concat hj).mp hjtail
      have hle := hbest j hj hjtail
      have hne : j ≠ s := fun h => hhit (h ▸ hat)
      refine hlongest j (by omega) (List.suffix_of_suffix_length_le hj' htail ?_)
      rw [List.length_take_of_le hs, List.length_take_of_le hj.le]
      exact hle

/-- One element read keeps the longest match. -/
theorem Matched.advance (h : Matched pat w s) (hfail : Borders pat fail) :
    Matched pat (w ++ [b]) (advanceKmp pat fail b (s + 1) s) :=
  advanceKmp_matched hfail h.le (Nat.lt_succ_self s) h.tail fun j hj hjtail =>
    h.longest j hj.le ((take_succ_suffix_concat hj).mp hjtail).2

omit [DecidableEq α] in
theorem Matched.eq_length_iff (h : Matched pat w k) : k = pat.length ↔ pat <:+ w := by
  constructor
  · rintro rfl
    simpa using h.tail
  · intro hw
    exact le_antisymm h.le (h.longest _ le_rfl (by simpa using hw))

end Table
end Hipscope.Text
