import Mathlib.Algebra.Order.Monoid.Unbundled.Basic
import Mathlib.Order.Monotone.Basic
import Mathlib.Data.List.Range

/-! Spans that follow one another without gap or overlap. -/
namespace Hipscope.Spans

/-- The spans follow one another from `lo` to `hi`. -/
inductive Tiles : ℕ → List (ℕ × ℕ) → ℕ → Prop
  | nil (lo : ℕ) : Tiles lo [] lo
  | cons {lo mid hi : ℕ} {rest : List (ℕ × ℕ)} : lo ≤ mid → Tiles mid rest hi → Tiles lo ((lo, mid) :: rest) hi

section Tiles
variable {lo mid hi x : ℕ} {s : ℕ × ℕ} {spans rest : List (ℕ × ℕ)}

theorem Tiles.le (h : Tiles lo spans hi) : lo ≤ hi := by
  induction h with
  | nil => exact le_refl _
  | cons hle _ ih => exact hle.trans ih

theorem tiles_cons_iff : Tiles lo (s :: rest) hi ↔ s.1 = lo ∧ lo ≤ s.2 ∧ Tiles s.2 rest hi := by
  constructor
  · intro h
    cases h with
    | cons hle hrest => exact ⟨rfl, hle, hrest⟩
  · obtain ⟨start, stop⟩ := s
    rintro ⟨rfl, hle, hrest⟩
    exact Tiles.cons hle hrest

theorem Tiles.append (h : Tiles lo spans mid) (h' : Tiles mid rest hi) : Tiles lo (spans ++ rest) hi := by
  induction h with
  | nil => exact h'
  | cons hle _ ih => exact Tiles.cons hle (ih h')

/-- A tiling stays inside its bounds. -/
theorem Tiles.bounds (h : Tiles lo spans hi) (hs : s ∈ spans) : lo ≤ s.1 ∧ s.1 ≤ s.2 ∧ s.2 ≤ hi := by
  induction h with
  | nil => cases hs
  | cons hle hrest ih =>
    obtain rfl | hs := List.mem_cons.mp hs
    · exact ⟨le_refl _, hle, hrest.le⟩
    · exact ⟨hle.trans (ih hs).1, (ih hs).2⟩

/-- Every position between the bounds is in exactly one of the spans. -/
theorem Tiles.existsUnique (h : Tiles lo spans hi) (hlo : lo ≤ x) (hhi : x < hi) :
    ∃! i : ℕ, ∃ s : ℕ × ℕ, spans[i]? = some s ∧ s.1 ≤ x ∧ x < s.2 := by
  induction h with
  | nil => exact absurd hhi (Nat.not_lt.mpr hlo)
  | @cons lo mid top rest hle hrest ih =>
    obtain hx | hx := Nat.lt_or_ge x mid
    · refine ⟨0, ⟨(lo, mid), rfl, hlo, hx⟩, ?_⟩
      rintro (_ | i) ⟨s, hs, hstart, -⟩
      · rfl
      · have hin := hrest.bounds (List.mem_of_getElem? hs)
        omega
    · obtain ⟨i, hi, honly⟩ := ih hx hhi
      refine ⟨i + 1, hi, ?_⟩
      rintro (_ | j) ⟨s, hs, hstart, hstop⟩
      · cases hs
        exact absurd hstop (Nat.not_lt.mpr hx)
      · exact congrArg (· + 1) (honly j ⟨s, hs, hstart, hstop⟩)

/-- The steps of a climb tile what is climbed. -/
theorem tiles_steps {b : ℕ → ℕ} (hb : Monotone b) (n : ℕ) :
    Tiles (b 0) ((List.range n).map fun r => (b r, b (r + 1))) (b n) := by
  induction n with
  | zero => exact Tiles.nil _
  | succ n ih =>
    rw [List.range_succ, List.map_append]
    exact ih.append (Tiles.cons (hb (Nat.le_succ n)) (Tiles.nil _))

/-- Blocks of one width tile what they add up to. -/
theorem tiles_blocks (width n : ℕ) : Tiles 0 ((List.range n).map fun r => (r * width, (r + 1) * width)) (n * width) := by
  have h := tiles_steps (b := fun r => r * width) (fun _ _ hle => Nat.mul_le_mul_right width hle) n
  rwa [Nat.zero_mul] at h

/-- A run of blocks is the union of its blocks. -/
theorem mem_blocks {start stop width x : ℕ} : start * width ≤ x ∧ x < stop * width ↔
    ∃ block, (start ≤ block ∧ block < stop) ∧ block * width ≤ x ∧ x < (block + 1) * width := by
  constructor
  · rintro ⟨hstart, hstop⟩
    have hwidth : 0 < width := Nat.pos_of_ne_zero fun h => by simp [h] at hstop
    refine ⟨x / width, ⟨(Nat.le_div_iff_mul_le hwidth).mpr hstart, (Nat.div_lt_iff_lt_mul hwidth).mpr hstop⟩,
      Nat.div_mul_le_self x width, Nat.lt_mul_of_div_lt (Nat.lt_succ_self _) hwidth⟩
  · rintro ⟨block, ⟨hstart, hstop⟩, hlo, hhi⟩
    exact ⟨(Nat.mul_le_mul_right width hstart).trans hlo, hhi.trans_le (Nat.mul_le_mul_right width hstop)⟩

/-- The numbers below `n` that are in a span, in order. -/
theorem filter_range (start stop n : ℕ) :
    ((List.range n).filter fun e => decide (start ≤ e ∧ e < stop)) = List.range' start (min stop n - start) := by
  induction n with
  | zero => rw [Nat.min_zero, Nat.zero_sub, List.range'_zero, List.range_zero, List.filter_nil]
  | succ n ih =>
    rw [List.range_succ, List.filter_append, ih]
    by_cases hin : start ≤ n ∧ n < stop
    · have hnext : min stop (n + 1) - start = (min stop n - start) + 1 := by omega
      have hlast : start + (min stop n - start) = n := by omega
      rw [List.filter_cons_of_pos (p := fun e => decide (start ≤ e ∧ e < stop)) (decide_eq_true hin), hnext,
        List.range'_1_concat, hlast]
      rfl
    · have hsame : min stop (n + 1) - start = min stop n - start := by omega
      rw [List.filter_cons_of_neg (p := fun e => decide (start ≤ e ∧ e < stop)) fun h => hin (of_decide_eq_true h), hsame]
      exact List.append_nil _

end Tiles

end Hipscope.Spans
