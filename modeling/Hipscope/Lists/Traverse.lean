import Mathlib.Data.List.Basic
import Mathlib.Data.List.Forall2

/-! Rows of one size laid out one behind another. -/
namespace Hipscope.Lists
variable {α : Type} {m s : ℕ} {l row : List α} {rows : List (List α)}

/-- Row `s` of a list of rows of `m` entries. -/
def rowAt (m : ℕ) (l : List α) (s : ℕ) : List α := (l.drop (s * m)).take m

theorem length_flatten_of_size (h : ∀ r ∈ rows, r.length = m) : rows.flatten.length = rows.length * m := by
  induction rows with
  | nil => rw [List.flatten_nil, List.length_nil, List.length_nil, Nat.zero_mul]
  | cons r rows ih =>
    obtain ⟨hr, hrows⟩ := List.forall_mem_cons.mp h
    rw [List.flatten_cons, List.length_append, ih hrows, hr, List.length_cons, Nat.succ_mul, Nat.add_comm]

/-- Entry `k` of rows of one size is in row `k / m`. -/
theorem getElem?_flatten_of_size (hm : 0 < m) (h : ∀ r ∈ rows, r.length = m) (k : ℕ) :
    rows.flatten[k]? = rows[k / m]?.bind fun row => row[k % m]? := by
  induction rows generalizing k with
  | nil => rfl
  | cons r rows ih =>
    obtain ⟨hr, hrows⟩ := List.forall_mem_cons.mp h
    rw [List.flatten_cons]
    obtain hlt | hge := Nat.lt_or_ge k m
    · rw [List.getElem?_append_left (hr.symm ▸ hlt), Nat.div_eq_of_lt hlt, Nat.mod_eq_of_lt hlt]
      rfl
    · rw [List.getElem?_append_right (hr.symm ▸ hge), hr, ih hrows, Nat.div_eq_sub_div hm hge, Nat.mod_eq_sub_mod hge]
      rfl

theorem rowAt_flatten (h : ∀ r ∈ rows, r.length = m) (hrow : rows[s]? = some row) : rowAt m rows.flatten s = row := by
  induction rows generalizing s with
  | nil => cases hrow
  | cons r rows ih =>
    obtain ⟨rfl, hrows⟩ := List.forall_mem_cons.mp h
    rw [rowAt, List.flatten_cons]
    cases s with
    | zero =>
      obtain rfl := Option.some.inj hrow
      rw [Nat.zero_mul, List.drop_zero, List.take_left]
    | succ s =>
      rw [Nat.succ_mul, Nat.add_comm, ← List.drop_drop, List.drop_left]
      exact ih hrows hrow

theorem length_rowAt (h : (s + 1) * m ≤ l.length) : (rowAt m l s).length = m := by
  rw [rowAt, List.length_take, List.length_drop]
  rw [Nat.succ_mul] at h
  omega

end Hipscope.Lists

/-! Fallible maps over a list: what makes them succeed, and what a result says of every element. -/
namespace Hipscope

theorem bind_ok {ε α β : Type} {x : Except ε α} {f : α → Except ε β} {b : β} (h : x.bind f = .ok b) :
    ∃ a, x = .ok a ∧ f a = .ok b := by
  cases x with
  | error _ => cases h
  | ok a => exact ⟨a, rfl, h⟩

theorem bind_error {ε α β : Type} {x : Except ε α} {f : α → Except ε β} {e : ε} (h : x.bind f = .error e) :
    x = .error e ∨ ∃ a, x = .ok a ∧ f a = .error e := by
  cases x with
  | error e' => exact Or.inl (congrArg Except.error (Except.error.inj h))
  | ok a => exact Or.inr ⟨a, rfl, h⟩

theorem mapError_ok {ε ε' α : Type} {x : Except ε α} {f : ε → ε'} {a : α} (h : x.mapError f = .ok a) : x = .ok a := by
  cases x with
  | error _ => cases h
  | ok b => exact congrArg Except.ok (Except.ok.inj h)

/-- A check in front of the rest. -/
theorem ite_error_ok {ε α : Type} {c : Prop} [Decidable c] {e : ε} {x : Except ε α} {a : α}
    (h : (if c then .error e else x) = .ok a) : ¬ c ∧ x = .ok a := by
  by_cases hc : c
  · rw [if_pos hc] at h
    cases h
  · rw [if_neg hc] at h
    exact ⟨hc, h⟩

namespace Lists

section Except
variable {ε α β : Type} {f : α → Except ε β} {g : α → β} {l : List α} {bs : List β}

theorem mapM_pure (h : ∀ a ∈ l, f a = .ok (g a)) : l.mapM f = .ok (l.map g) := by
  induction l with
  | nil => rfl
  | cons a l ih =>
    rw [List.mapM_cons, h a List.mem_cons_self, ih fun b hb => h b (List.mem_cons_of_mem _ hb)]
    rfl

theorem mapM_forall₂ (hl : l.mapM f = .ok bs) : List.Forall₂ (fun a b => f a = .ok b) l bs := by
  induction l generalizing bs with
  | nil =>
    cases hl
    exact .nil
  | cons a l ih =>
    rw [List.mapM_cons] at hl
    obtain ⟨b, hb, hl⟩ := bind_ok hl
    obtain ⟨cs, hcs, hl⟩ := bind_ok hl
    cases hl
    exact .cons hb (ih hcs)

theorem mapM_getElem? (hl : l.mapM f = .ok bs) {i : ℕ} {b : β} (hb : bs[i]? = some b) :
    ∃ a, l[i]? = some a ∧ f a = .ok b := by
  obtain ⟨hlen, hget⟩ := List.forall₂_iff_get.mp (mapM_forall₂ hl)
  obtain ⟨hi, rfl⟩ := List.getElem?_eq_some_iff.mp hb
  have hil : i < l.length := hlen ▸ hi
  exact ⟨l[i], List.getElem?_eq_getElem hil, hget i hil hi⟩

theorem mapM_getElem?_left (hl : l.mapM f = .ok bs) {i : ℕ} {a : α} (ha : l[i]? = some a) :
    ∃ b, bs[i]? = some b ∧ f a = .ok b := by
  obtain ⟨hlen, hget⟩ := List.forall₂_iff_get.mp (mapM_forall₂ hl)
  obtain ⟨hi, rfl⟩ := List.getElem?_eq_some_iff.mp ha
  have hib : i < bs.length := hlen ▸ hi
  exact ⟨bs[i], List.getElem?_eq_getElem hib, hget i hi hib⟩

theorem mapM_ok (h : ∀ a b, f a = .ok b → b = g a) (hl : l.mapM f = .ok bs) : bs = l.map g := by
  have hall := (mapM_forall₂ hl).imp fun a b hab => (h a b hab).symm
  exact (List.forall₂_eq_eq_eq ▸ (List.forall₂_map_left_iff.mpr hall)).symm

theorem forall₂_mapM {γ : Type} {S : γ → β → Prop} {m : List γ}
    (h : List.Forall₂ (fun c a => ∃ b, f a = .ok b ∧ S c b) m l) : ∃ bs, l.mapM f = .ok bs ∧ List.Forall₂ S m bs := by
  induction h with
  | nil => exact ⟨[], rfl, .nil⟩
  | cons hb _ ih =>
    obtain ⟨b, hb, hS⟩ := hb
    obtain ⟨bs, hl, hrest⟩ := ih
    refine ⟨b :: bs, ?_, .cons hS hrest⟩
    rw [List.mapM_cons, hb, hl]
    rfl

end Except

section Option
variable {α β : Type} {f : α → Option β} {g : α → β} {P : β → Prop}

theorem mapM_some {l : List α} (h : ∀ a ∈ l, f a = some (g a)) : l.mapM f = some (l.map g) := by
  induction l with
  | nil => rfl
  | cons a l ih =>
    rw [List.mapM_cons, h a List.mem_cons_self, ih fun b hb => h b (List.mem_cons_of_mem _ hb)]
    rfl

theorem mapM_forall₂_some {l : List α} {bs : List β} (hl : l.mapM f = some bs) :
    List.Forall₂ (fun a b => f a = some b) l bs := by
  induction l generalizing bs with
  | nil =>
    cases hl
    exact .nil
  | cons a l ih =>
    rw [List.mapM_cons] at hl
    obtain ⟨b, hb, hl⟩ := Option.bind_eq_some_iff.mp hl
    obtain ⟨cs, hcs, hl⟩ := Option.bind_eq_some_iff.mp hl
    cases hl
    exact .cons hb (ih hcs)

/-- Every result comes from an element. -/
theorem mapM_mem {l : List α} {bs : List β} (hl : l.mapM f = some bs) {b : β} (hb : b ∈ bs) : ∃ a ∈ l, f a = some b := by
  obtain ⟨hlength, hget⟩ := List.forall₂_iff_get.mp (mapM_forall₂_some hl)
  obtain ⟨i, hi, rfl⟩ := List.mem_iff_getElem.mp hb
  exact ⟨l[i], List.getElem_mem _, hget i (hlength ▸ hi) hi⟩

/-- Every element has a result. -/
theorem mapM_defined {l : List α} {bs : List β} (hl : l.mapM f = some bs) {a : α} (ha : a ∈ l) : ∃ b ∈ bs, f a = some b := by
  obtain ⟨hlength, hget⟩ := List.forall₂_iff_get.mp (mapM_forall₂_some hl)
  obtain ⟨i, hi, rfl⟩ := List.mem_iff_getElem.mp ha
  exact ⟨bs[i], List.getElem_mem _, hget i hi (hlength ▸ hi)⟩

theorem mapM_rel {R : α → β → Prop} (l : List α) (h : ∀ a ∈ l, ∃ b, f a = some b ∧ R a b) :
    ∃ values, l.mapM f = some values ∧ List.Forall₂ R l values := by
  induction l with
  | nil => exact ⟨[], rfl, .nil⟩
  | cons a l ih =>
    obtain ⟨b, hb, hr⟩ := h a List.mem_cons_self
    obtain ⟨values, hvalues, hall⟩ := ih fun x hx => h x (List.mem_cons_of_mem a hx)
    refine ⟨b :: values, ?_, .cons hr hall⟩
    rw [List.mapM_cons, hb, hvalues]
    rfl

theorem mapM_all (l : List α) (h : ∀ a ∈ l, ∃ b, f a = some b ∧ P b) :
    ∃ values, l.mapM f = some values ∧ values.length = l.length ∧ ∀ b ∈ values, P b := by
  obtain ⟨values, hvalues, hall⟩ := mapM_rel (R := fun _ b => P b) l h
  refine ⟨values, hvalues, hall.length_eq.symm, fun b hb => ?_⟩
  obtain ⟨i, hi, rfl⟩ := List.mem_iff_getElem.mp hb
  exact (List.forall₂_iff_get.mp hall).2 i (hall.length_eq ▸ hi) hi

theorem mapM_isSome {l : List α} (h : ∀ a ∈ l, (f a).isSome) : (l.mapM f).isSome := by
  have hsome : ∀ a ∈ l, ∃ b, f a = some b ∧ True := fun a ha =>
    (Option.isSome_iff_exists.mp (h a ha)).imp fun b hb => ⟨hb, trivial⟩
  obtain ⟨values, hvalues, -, -⟩ := mapM_all (P := fun _ => True) l hsome
  exact Option.isSome_of_eq_some hvalues

/-- A loop whose every turn keeps the invariant of the turns before it. -/
theorem foldlM_range {σ : Type} {t : σ → ℕ → Option σ} {P : ℕ → σ → Prop} {n : ℕ} {s : σ}
    (h : ∀ i < n, ∀ s, P i s → ∃ s', t s i = some s' ∧ P (i + 1) s') (h0 : P 0 s) :
    ∃ s', (List.range n).foldlM t s = some s' ∧ P n s' := by
  induction n with
  | zero => exact ⟨s, rfl, h0⟩
  | succ n ih =>
    obtain ⟨before, hbefore, hkept⟩ := ih fun i hi => h i (Nat.lt_succ_of_lt hi)
    obtain ⟨after, hafter, hnext⟩ := h n (Nat.lt_succ_self n) before hkept
    refine ⟨after, ?_, hnext⟩
    rw [List.range_succ, List.foldlM_append, hbefore]
    change (t before n).bind some = some after
    rw [hafter, Option.bind_some]

/-- What every turn of a loop keeps, a loop that ends keeps. -/
theorem foldlM_keeps {σ : Type} {t : σ → α → Option σ} {P : σ → Prop} (h : ∀ s a s', P s → t s a = some s' → P s')
    {l : List α} {s s' : σ} (hs : P s) (hl : l.foldlM t s = some s') : P s' := by
  induction l generalizing s with
  | nil =>
    cases hl
    exact hs
  | cons a l ih =>
    obtain ⟨next, hnext, hl⟩ := Option.bind_eq_some_iff.mp hl
    exact ih (h s a next hs hnext) hl

private theorem filterAuxM_some {p : α → Bool} {f : α → Option Bool} {l : List α} (h : ∀ a ∈ l, f a = some (p a))
    (kept : List α) : l.filterAuxM f kept = some ((l.filter p).reverse ++ kept) := by
  induction l generalizing kept with
  | nil => rfl
  | cons a l ih =>
    rw [List.filterAuxM, h a List.mem_cons_self, List.filter_cons]
    change List.filterAuxM f l (cond (p a) (a :: kept) kept) = _
    rw [ih fun b hb => h b (List.mem_cons_of_mem a hb)]
    cases p a with
    | true => rw [cond_true, if_pos rfl, List.reverse_cons, List.append_assoc, List.singleton_append]
    | false => rw [cond_false, if_neg (by decide)]

theorem filterM_some {p : α → Bool} {f : α → Option Bool} {l : List α} (h : ∀ a ∈ l, f a = some (p a)) :
    l.filterM f = some (l.filter p) := by
  rw [List.filterM, filterAuxM_some h, List.append_nil]
  exact congrArg some (List.reverse_reverse _)

end Option

section Relations
variable {α β : Type} {R S : α → β → Prop} {P : α → Prop} {l : List α} {bs : List β}

/-- Where one relation holds, the other is a condition on the elements. -/
theorem forall₂_iff_all (hiff : ∀ a b, R a b → (S a b ↔ P a)) (h : List.Forall₂ R l bs) :
    List.Forall₂ S l bs ↔ ∀ a ∈ l, P a := by
  induction h with
  | nil => exact ⟨fun _ a ha => absurd ha List.not_mem_nil, fun _ => .nil⟩
  | cons hab _ ih => rw [List.forall₂_cons, List.forall_mem_cons, hiff _ _ hab, ih]

/-- Everything on the right stands in the relation with something on the left. -/
theorem forall₂_mem_right (h : List.Forall₂ R l bs) {b : β} (hb : b ∈ bs) : ∃ a ∈ l, R a b := by
  induction h with
  | nil => exact absurd hb List.not_mem_nil
  | @cons a _ l _ hab _ ih =>
    rcases List.mem_cons.mp hb with rfl | hb
    · exact ⟨a, List.mem_cons_self, hab⟩
    · exact (ih hb).imp fun a' ha' => ⟨List.mem_cons_of_mem a ha'.1, ha'.2⟩

end Relations

end Lists
end Hipscope
