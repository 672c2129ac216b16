import Mathlib.Data.List.Infix

/-! Readings that keep some letters and drop the rest: where a word of the kept text comes from. -/
namespace Hipscope.Text
variable {σ α : Type*} (step : σ → Option α → σ → Prop)

/-- The letters kept on the way from one state to another. -/
inductive Keeps : σ → List α → σ → Prop where
  | refl (s : σ) : Keeps s [] s
  | keep {s t r : σ} {a : α} {u : List α} (h : step s (some a) t) : Keeps t u r → Keeps s (a :: u) r
  | drop {s t r : σ} {u : List α} (h : step s none t) : Keeps t u r → Keeps s u r

/-- The letters are kept one right after the other. -/
inductive Adjoins : σ → List α → σ → Prop where
  | one {s t : σ} {a : α} (h : step s (some a) t) : Adjoins s [a] t
  | cons {s t r : σ} {a : α} {u : List α} (h : step s (some a) t) : Adjoins t u r → Adjoins s (a :: u) r

/-- The word is kept with something dropped inside it. -/
def Parted (s : σ) (m : List α) (r : σ) : Prop :=
  ∃ x y t t', x ≠ [] ∧ y ≠ [] ∧ m = x ++ y ∧ Keeps step s x t ∧ step t none t' ∧ Keeps step t' y r

/-- Somewhere on from `s` the word is kept with something dropped inside it. -/
def Scatters (s : σ) (m : List α) : Prop := ∃ u t r, Keeps step s u t ∧ Parted step t m r

/-- A state has at most one way to go on. -/
def Deterministic : Prop := ∀ s l t l' t', step s l t → step s l' t' → l = l' ∧ t = t'

section Kept
variable {step} {s t r : σ} {u v m : List α}

theorem Keeps.trans (h : Keeps step s u t) (h' : Keeps step t v r) : Keeps step s (u ++ v) r := by
  induction h with
  | refl => exact h'
  | keep hstep _ ih => exact .keep hstep (ih h')
  | drop hstep _ ih => exact .drop hstep (ih h')

theorem Keeps.split (h : Keeps step s m r) :
    ∀ u v, m = u ++ v → ∃ t, Keeps step s u t ∧ Keeps step t v r := by
  induction h with
  | refl s =>
    intro u v huv
    obtain ⟨rfl, rfl⟩ := List.append_eq_nil_iff.mp huv.symm
    exact ⟨s, .refl s, .refl s⟩
  | @keep s t r a m hstep hrest ih =>
    intro u v huv
    cases u with
    | nil =>
      obtain rfl : a :: m = v := huv
      exact ⟨s, .refl s, .keep hstep hrest⟩
    | cons b u =>
      obtain ⟨rfl, rfl⟩ := List.cons.inj huv
      obtain ⟨t', hu, hv⟩ := ih u v rfl
      exact ⟨t', .keep hstep hu, hv⟩
  | drop hstep _ ih =>
    intro u v huv
    obtain ⟨t', hu, hv⟩ := ih u v huv
    exact ⟨t', .drop hstep hu, hv⟩

/-- A word that is kept is kept in one piece or with something dropped inside it. -/
theorem Keeps.adjoins_or_parted (h : Keeps step s m r) (hm : m ≠ []) :
    (∃ t t', Keeps step s [] t ∧ Keeps step t m r ∧ Adjoins step t m t') ∨ Parted step s m r := by
  induction h with
  | refl => exact absurd rfl hm
  | drop hstep _ ih =>
    obtain ⟨t', r', hbefore, hkept, hword⟩ | ⟨x, y, t', r', hx, hy, hxy, hbefore, hparted⟩ := ih hm
    · exact .inl ⟨t', r', .drop hstep hbefore, hkept, hword⟩
    · exact .inr ⟨x, y, t', r', hx, hy, hxy, .drop hstep hbefore, hparted⟩
  | @keep s t r a u hstep hrest ih =>
    by_cases hu : u = []
    · subst hu
      exact .inl ⟨s, t, .refl s, .keep hstep hrest, .one hstep⟩
    obtain ⟨t', r', hbefore, hkept, hword⟩ | ⟨x, y, t', r', hx, hy, hxy, hbefore, hparted⟩ := ih hu
    · cases hbefore with
      | refl => exact .inl ⟨s, r', .refl s, .keep hstep hrest, .cons hstep hword⟩
      | drop hgap hafter =>
        exact .inr ⟨[a], u, t, _, List.cons_ne_nil _ _, hu, rfl, .keep hstep (.refl t), hgap, hafter.trans hkept⟩
    · exact .inr ⟨a :: x, y, t', r', List.cons_ne_nil _ _, hy, congrArg (a :: ·) hxy, .keep hstep hbefore, hparted⟩

theorem Parted.keeps (h : Parted step s m r) : Keeps step s m r := by
  obtain ⟨x, y, t, t', -, -, rfl, hx, hgap, hy⟩ := h
  exact hx.trans (.drop hgap hy)

/-- A word of the kept text that is nowhere kept in one piece has something dropped inside it. -/
theorem Keeps.parted (h : Keeps step s (u ++ m ++ v) r) (hm : m ≠ []) (hwhole : ∀ t t', ¬Adjoins step t m t') :
    ∃ t t', Keeps step s u t ∧ Parted step t m t' ∧ Keeps step t' v r := by
  obtain ⟨t', hfront, hback⟩ := h.split (u ++ m) v rfl
  obtain ⟨t, hbefore, hword⟩ := hfront.split u m rfl
  obtain ⟨a, b, -, -, hone⟩ | hparted := hword.adjoins_or_parted hm
  · exact absurd hone (hwhole a b)
  · exact ⟨t, t', hbefore, hparted, hback⟩

theorem Keeps.scatters (h : Keeps step s v r) (hm : m ≠ []) (hin : m <:+: v) (hwhole : ∀ t t', ¬Adjoins step t m t') :
    Scatters step s m := by
  obtain ⟨before, after, rfl⟩ := hin
  obtain ⟨t, t', hbefore, hparted, -⟩ := h.parted hm hwhole
  exact ⟨before, t, t', hbefore, hparted⟩

theorem Scatters.keeps (h : Scatters step s m) : ∃ u r, Keeps step s (u ++ m) r := by
  obtain ⟨u, t, r, hbefore, hparted⟩ := h
  exact ⟨u, r, hbefore.trans hparted.keeps⟩

theorem Adjoins.of_front (h : Adjoins step s m r) (hm : u ≠ []) (hu : u <+: m) : ∃ t, Adjoins step s u t := by
  induction h generalizing u with
  | @one s t a h =>
    cases u with
    | nil => exact absurd rfl hm
    | cons b u =>
      obtain ⟨rfl, hnil⟩ := List.cons_prefix_cons.mp hu
      obtain rfl := List.prefix_nil.mp hnil
      exact ⟨t, .one h⟩
  | @cons s t r a m h _ ih =>
    cases u with
    | nil => exact absurd rfl hm
    | cons b u =>
      obtain ⟨rfl, hrest⟩ := List.cons_prefix_cons.mp hu
      by_cases hu : u = []
      · subst hu
        exact ⟨t, .one h⟩
      · obtain ⟨t', hword⟩ := ih hu hrest
        exact ⟨t', .cons h hword⟩

theorem Adjoins.of_infix (h : Adjoins step s m r) (hm : u ≠ []) (hu : u <:+: m) : ∃ t t', Adjoins step t u t' := by
  induction h generalizing u with
  | @one s t a h =>
    have hfront : u <+: [a] := by
      obtain hfront | hnil := List.infix_cons_iff.mp hu
      · exact hfront
      · exact absurd (List.infix_nil.mp hnil) hm
    exact ⟨s, (Adjoins.one h).of_front hm hfront⟩
  | @cons s t r a m h hrest ih =>
    obtain hfront | hback := List.infix_cons_iff.mp hu
    · exact ⟨s, (Adjoins.cons h hrest).of_front hm hfront⟩
    · exact ih hm hback

/-- A run up to where nothing goes on passes through every state that can be reached. -/
theorem Keeps.goes_on (hdet : Deterministic step) (h : Keeps step s u t) (hv : Keeps step s v r)
    (hend : ∀ l t, ¬step r l t) : ∃ w, v = u ++ w ∧ Keeps step t w r := by
  induction h generalizing v with
  | refl => exact ⟨v, rfl, hv⟩
  | keep hstep _ ih =>
    cases hv with
    | refl => exact absurd hstep (hend _ _)
    | keep hstep' hrest =>
      obtain ⟨hletter, rfl⟩ := hdet _ _ _ _ _ hstep hstep'
      obtain rfl := Option.some.inj hletter
      obtain ⟨w, rfl, hw⟩ := ih hrest
      exact ⟨w, rfl, hw⟩
    | drop hstep' _ => cases (hdet _ _ _ _ _ hstep hstep').1
  | drop hstep _ ih =>
    cases hv with
    | refl => exact absurd hstep (hend _ _)
    | keep hstep' _ => cases (hdet _ _ _ _ _ hstep hstep').1
    | drop hstep' hrest =>
      obtain ⟨-, rfl⟩ := hdet _ _ _ _ _ hstep hstep'
      exact ih hrest

/-- What is kept on the way is the front of what is kept up to where nothing goes on. -/
theorem Keeps.begins (hdet : Deterministic step) (h : Keeps step s u t) (hv : Keeps step s v r)
    (hend : ∀ l t, ¬step r l t) : u <+: v := by
  obtain ⟨w, rfl, -⟩ := h.goes_on hdet hv hend
  exact List.prefix_append u w

theorem Keeps.stuck (h : Keeps step s u r) (hend : ∀ l t, ¬step s l t) : r = s := by
  cases h with
  | refl => rfl
  | keep hstep _ => exact absurd hstep (hend _ _)
  | drop hstep _ => exact absurd hstep (hend _ _)

end Kept
end Hipscope.Text
