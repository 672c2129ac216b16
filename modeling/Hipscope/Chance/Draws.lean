import Mathlib.MeasureTheory.Integral.Lebesgue.Add
import Mathlib.MeasureTheory.Measure.Lebesgue.Basic
import Mathlib.MeasureTheory.Measure.Typeclasses.Probability

/-! Programs that draw numbers, and their expectations when the draws are independent and uniform on
the half-open unit interval. -/
namespace Hipscope.Chance
open MeasureTheory
open scoped ENNReal

inductive Draws (K : Type) (α : Type) where
  | pure (a : α)
  | draw (next : K → Draws K α)

namespace Draws
variable {K α β : Type}

def bind : Draws K α → (α → Draws K β) → Draws K β
  | .pure a, f => f a
  | .draw next, f => .draw fun u => bind (next u) f

instance : Monad (Draws K) where
  pure := .pure
  bind := bind

/-- One number. -/
def number : Draws K K := .draw .pure

/-- The program's result on given numbers, if there are enough of them. -/
def run : Draws K α → List K → Option α
  | .pure a, _ => some a
  | .draw _, [] => none
  | .draw next, u :: rest => run (next u) rest

@[simp] theorem pure_bind (a : α) (f : α → Draws K β) : ((Pure.pure a : Draws K α) >>= f) = f a := rfl

theorem number_bind (f : K → Draws K β) : ((number : Draws K K) >>= f) = .draw f := rfl

theorem bind_assoc {γ : Type} (m : Draws K α) (f : α → Draws K β) (g : β → Draws K γ) :
    (m >>= f) >>= g = m >>= fun a => f a >>= g := by
  induction m with
  | pure a => rfl
  | draw next ih => exact congrArg Draws.draw (funext fun u => ih u)

end Draws

/-- The uniform measure on the numbers a draw can give. -/
noncomputable def unitMeasure : Measure ℝ := volume.restrict (Set.Ico 0 1)

instance : IsProbabilityMeasure unitMeasure := by
  refine ⟨?_⟩
  rw [unitMeasure, Measure.restrict_apply_univ, Real.volume_Ico]
  norm_num

namespace Draws
variable {α β : Type} {f g : α → ℝ≥0∞} {m : Draws ℝ α}

noncomputable def expect (f : α → ℝ≥0∞) : Draws ℝ α → ℝ≥0∞
  | .pure a => f a
  | .draw next => ∫⁻ u, expect f (next u) ∂unitMeasure

/-- The probability that the result is in the set. -/
noncomputable def prob (m : Draws ℝ α) (S : Set α) : ℝ≥0∞ := m.expect (S.indicator 1)

@[simp] theorem expect_pure (f : α → ℝ≥0∞) (a : α) : expect f (Pure.pure a) = f a := rfl

theorem expect_draw (f : α → ℝ≥0∞) (next : ℝ → Draws ℝ α) :
    expect f (.draw next) = ∫⁻ u, expect f (next u) ∂unitMeasure := rfl

theorem expect_bind (m : Draws ℝ α) (k : α → Draws ℝ β) (f : β → ℝ≥0∞) :
    expect f (m >>= k) = m.expect fun a => expect f (k a) := by
  induction m with
  | pure a => rfl
  | draw next ih => exact lintegral_congr fun u => ih u

theorem expect_const (m : Draws ℝ α) (c : ℝ≥0∞) : m.expect (fun _ => c) = c := by
  induction m with
  | pure a => rfl
  | draw next ih =>
    rw [expect_draw, lintegral_congr ih, lintegral_const, measure_univ, mul_one]

/-- Constants and constant factors come out of an expectation. -/
theorem expect_affine (m : Draws ℝ α) (c : ℝ≥0∞) {r : ℝ≥0∞} (hr : r ≠ ⊤) (f : α → ℝ≥0∞) :
    m.expect (fun a => c + r * f a) = c + r * m.expect f := by
  induction m with
  | pure a => rfl
  | draw next ih =>
    rw [expect_draw, lintegral_congr ih, lintegral_add_left measurable_const, lintegral_const, measure_univ, mul_one,
      lintegral_const_mul' _ _ hr, expect_draw]

end Draws
end Hipscope.Chance

/-! Picking an index by running sums of weights: over a uniform draw, each index comes up as often
as its share of the total. -/
namespace Hipscope.Chance
open MeasureTheory
open scoped ENNReal

/-- The first index at which the running sum from `acc` passes the mark. -/
def scanFrom {K ι : Type} [Add K] [LT K] [DecidableLT K] (w : ι → K) (mark : K) : K → List ι → Option ι
  | _, [] => none
  | acc, i :: rest => if mark < acc + w i then some i else scanFrom w mark (acc + w i) rest

variable {ι α : Type} {w : ι → ℝ} {s : ℝ} {l : List ι}

private theorem lintegral_scanFrom (hs : 0 < s) (hw : ∀ i ∈ l, 0 ≤ w i) (a : ℝ) (g : Option ι → ℝ≥0∞) :
    ∫⁻ u in Set.Ico (a / s) ((a + (l.map w).sum) / s), g (scanFrom w (u * s) a l) =
      (l.map fun i => ENNReal.ofReal (w i / s) * g (some i)).sum := by
  induction l generalizing a with
  | nil => simp
  | cons i l ih =>
    have hi := hw i List.mem_cons_self
    have hrest : ∀ j ∈ l, 0 ≤ w j := fun j hj => hw j (List.mem_cons_of_mem i hj)
    have hsum : 0 ≤ (l.map w).sum := List.sum_nonneg (by simpa using hrest)
    have hfirst : a / s ≤ (a + w i) / s := div_le_div_of_nonneg_right (by linarith) hs.le
    have hsecond : (a + w i) / s ≤ (a + w i + (l.map w).sum) / s :=
      div_le_div_of_nonneg_right (by linarith) hs.le
    have hsplit : Set.Ico (a / s) ((a + ((i :: l).map w).sum) / s) =
        Set.Ico (a / s) ((a + w i) / s) ∪ Set.Ico ((a + w i) / s) ((a + w i + (l.map w).sum) / s) := by
      rw [Set.Ico_union_Ico_eq_Ico hfirst hsecond, List.map_cons, List.sum_cons, add_assoc]
    have hleft : ∫⁻ u in Set.Ico (a / s) ((a + w i) / s), g (scanFrom w (u * s) a (i :: l)) =
        ENNReal.ofReal (w i / s) * g (some i) := by
      have hpick : ∀ u ∈ Set.Ico (a / s) ((a + w i) / s), g (scanFrom w (u * s) a (i :: l)) = g (some i) := by
        intro u hu
        rw [scanFrom, if_pos ((lt_div_iff₀ hs).1 hu.2)]
      rw [setLIntegral_congr_fun measurableSet_Ico hpick, setLIntegral_const, Real.volume_Ico, mul_comm,
        ← sub_div, add_sub_cancel_left]
    have hright : ∫⁻ u in Set.Ico ((a + w i) / s) ((a + w i + (l.map w).sum) / s),
        g (scanFrom w (u * s) a (i :: l)) = (l.map fun i => ENNReal.ofReal (w i / s) * g (some i)).sum := by
      rw [← ih hrest]
      refine setLIntegral_congr_fun measurableSet_Ico fun u hu => ?_
      rw [scanFrom, if_neg (not_lt.2 ((div_le_iff₀ hs).1 hu.1))]
    rw [hsplit, lintegral_union measurableSet_Ico Set.Ico_disjoint_Ico_same, hleft, hright, List.map_cons,
      List.sum_cons]

/-- Going on with the index a draw picks: the sum over the indices, each with its share. -/
theorem Draws.expect_scan (hs : 0 < s) (hw : ∀ i ∈ l, 0 ≤ w i) (hsum : (l.map w).sum = s)
    (k : Option ι → Draws ℝ α) (f : α → ℝ≥0∞) :
    expect f (.draw fun u => k (scanFrom w (u * s) 0 l)) =
      (l.map fun i => ENNReal.ofReal (w i / s) * expect f (k (some i))).sum := by
  rw [expect_draw, ← lintegral_scanFrom hs hw 0 fun o => expect f (k o), zero_add, hsum, zero_div, div_self hs.ne']
  rfl

/-- A draw below a chance: the one case with the chance, the other with the rest. -/
theorem Draws.expect_chance {r : ℝ} (h0 : 0 ≤ r) (h1 : r ≤ 1) (a b : Draws ℝ α) (f : α → ℝ≥0∞) :
    expect f (.draw fun u => if u < r then a else b) =
      ENNReal.ofReal r * expect f a + ENNReal.ofReal (1 - r) * expect f b := by
  let w : Bool → ℝ := fun hit => if hit then r else 1 - r
  let k : Option Bool → Draws ℝ α := fun o => if o = some true then a else b
  have hw : ∀ hit ∈ [true, false], 0 ≤ w hit := by
    intro hit _
    cases hit with
    | true => exact h0
    | false => exact sub_nonneg.2 h1
  have hsum : ([true, false].map w).sum = 1 := by simp [w]
  have hscan := expect_scan one_pos hw hsum k f
  have hdraw : ∀ u, k (scanFrom w (u * 1) 0 [true, false]) = if u < r then a else b := by
    intro u
    by_cases hu : u < r
    · simp [scanFrom, w, k, hu]
    · have hrest : scanFrom w (u * 1) 0 [true, false] ≠ some true := by
        simp only [scanFrom, w, mul_one, zero_add, if_pos, hu, if_false]
        split <;> simp
      rw [if_neg hu]
      exact if_neg hrest
  simp only [hdraw] at hscan
  rw [hscan]
  simp [w, k]

end Hipscope.Chance
