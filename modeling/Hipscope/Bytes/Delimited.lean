import Mathlib.Data.List.Basic

/-! Encodings that can be read back from the front of a longer word. An encoding
determines a view of its argument when equal words have equal views and rests. -/
namespace Hipscope.Bytes
variable {α β γ δ ε : Type*} {P Q : α → Prop} {encode encode' : α → List β} {view : α → γ}
  {view' : α → δ}

def Determines (P : α → Prop) (encode : α → List β) (view : α → γ) : Prop :=
  ∀ ⦃a b : α⦄ ⦃x y : List β⦄, P a → P b → encode a ++ x = encode b ++ y → view a = view b ∧ x = y

/-- A word of a known length is read back by counting. -/
theorem determines_of_length (n : ℕ) (hlen : ∀ a, P a → (encode a).length = n)
    (hview : ∀ a b, P a → P b → encode a = encode b → view a = view b) :
    Determines P encode view := by
  intro a b x y ha hb h
  obtain ⟨hword, hrest⟩ := List.append_inj h ((hlen a ha).trans (hlen b hb).symm)
  exact ⟨hview a b ha hb hword, hrest⟩

private theorem append_mark_inj {mark : β} {w w' x y : List β} (hw : mark ∉ w) (hw' : mark ∉ w')
    (h : w ++ mark :: x = w' ++ mark :: y) : w = w' ∧ x = y := by
  induction w generalizing w' with
  | nil =>
    cases w' with
    | nil => exact ⟨rfl, (List.cons.inj h).2⟩
    | cons b w' => exact absurd (List.mem_cons.2 (.inl (List.cons.inj h).1)) hw'
  | cons a w ih =>
    cases w' with
    | nil => exact absurd (List.mem_cons.2 (.inl (List.cons.inj h).1.symm)) hw
    | cons b w' =>
      obtain ⟨rfl, htail⟩ := List.cons.inj h
      obtain ⟨rfl, hrest⟩ := ih (fun hin => hw (List.mem_cons_of_mem _ hin))
        (fun hin => hw' (List.mem_cons_of_mem _ hin)) htail
      exact ⟨rfl, hrest⟩

/-- A word that ends at the first mark. -/
theorem determines_of_mark {mark : β} (hfree : ∀ a, P a → mark ∉ encode a)
    (hview : ∀ a b, P a → P b → encode a = encode b → view a = view b) :
    Determines P (fun a => encode a ++ [mark]) view := by
  intro a b x y ha hb h
  rw [List.append_assoc, List.append_assoc] at h
  obtain ⟨hword, hrest⟩ := append_mark_inj (hfree a ha) (hfree b hb) h
  exact ⟨hview a b ha hb hword, hrest⟩

namespace Determines

theorem restrict (h : Determines P encode view) (hQ : ∀ a, Q a → P a) : Determines Q encode view :=
  fun a b _ _ ha hb heq => h (hQ a ha) (hQ b hb) heq

theorem coarsen (h : Determines P encode view)
    (hview : ∀ a b, P a → P b → view a = view b → view' a = view' b) :
    Determines P encode view' := by
  intro a b x y ha hb heq
  obtain ⟨hsame, hrest⟩ := h ha hb heq
  exact ⟨hview a b ha hb hsame, hrest⟩

theorem comp (h : Determines P encode view) (f : ε → α) :
    Determines (fun e => P (f e)) (fun e => encode (f e)) (fun e => view (f e)) :=
  fun _ _ _ _ ha hb heq => h ha hb heq

theorem append (h : Determines P encode view) (h' : Determines P encode' view') :
    Determines P (fun a => encode a ++ encode' a) (fun a => (view a, view' a)) := by
  intro a b x y ha hb heq
  rw [List.append_assoc, List.append_assoc] at heq
  obtain ⟨hfirst, heq⟩ := h ha hb heq
  obtain ⟨hsecond, hrest⟩ := h' ha hb heq
  exact ⟨Prod.ext hfirst hsecond, hrest⟩

/-- The second part may itself be read in two steps. -/
theorem append_pair {left right : α → List β} (h : Determines P encode view)
    (h' : Determines P (fun a => left a ++ right a) view') :
    Determines P (fun a => encode a ++ left a ++ right a) (fun a => (view a, view' a)) := by
  simpa only [List.append_assoc] using h.append h'

/-- A constant word in front says nothing. -/
theorem constant (word : List β) : Determines P (fun _ : α => word) fun _ => () :=
  fun _ _ _ _ _ _ heq => ⟨rfl, List.append_cancel_left heq⟩

/-- Without a rest, the word itself determines the view. -/
theorem word (h : Determines P encode view) {a b : α} (ha : P a) (hb : P b)
    (heq : encode a = encode b) : view a = view b :=
  (h ha hb (x := []) (y := []) (by rw [heq])).1

/-- As many elements as announced. -/
theorem sequence (h : Determines P encode view) {l l' : List α} (hl : ∀ a ∈ l, P a)
    (hl' : ∀ a ∈ l', P a) (hlen : l.length = l'.length) {x y : List β}
    (heq : l.flatMap encode ++ x = l'.flatMap encode ++ y) : l.map view = l'.map view ∧ x = y := by
  induction l generalizing l' with
  | nil =>
    obtain rfl := List.length_eq_zero_iff.mp hlen.symm
    exact ⟨rfl, heq⟩
  | cons a l ih =>
    cases l' with
    | nil => cases hlen
    | cons b l' =>
      rw [List.flatMap_cons, List.flatMap_cons, List.append_assoc, List.append_assoc] at heq
      obtain ⟨hfirst, heq⟩ := h (hl a List.mem_cons_self) (hl' b List.mem_cons_self) heq
      obtain ⟨hothers, hrest⟩ := ih (fun c hc => hl c (List.mem_cons_of_mem a hc))
        (fun c hc => hl' c (List.mem_cons_of_mem b hc)) (Nat.succ.inj hlen) heq
      exact ⟨by rw [List.map_cons, List.map_cons, hfirst, hothers], hrest⟩

/-- A list behind its length. -/
theorem counted {R : ℕ → Prop} {count : ℕ → List β} (hcount : Determines R count id)
    (h : Determines P encode view) :
    Determines (fun l : List α => R l.length ∧ ∀ a ∈ l, P a)
      (fun l => count l.length ++ l.flatMap encode) (fun l => l.map view) := by
  intro l l' x y hl hl' heq
  rw [List.append_assoc, List.append_assoc] at heq
  obtain ⟨hlen, heq⟩ := hcount hl.1 hl'.1 heq
  exact h.sequence hl.2 hl'.2 hlen heq

/-- A list that runs to the end of the word needs no length. -/
theorem remainder (h : Determines P encode view) (hne : ∀ a, P a → encode a ≠ []) {l l' : List α}
    (hl : ∀ a ∈ l, P a) (hl' : ∀ a ∈ l', P a) (heq : l.flatMap encode = l'.flatMap encode) :
    l.map view = l'.map view := by
  induction l generalizing l' with
  | nil =>
    cases l' with
    | nil => rfl
    | cons b l' => exact absurd (List.append_eq_nil_iff.mp heq.symm).1 (hne b (hl' b List.mem_cons_self))
  | cons a l ih =>
    cases l' with
    | nil => exact absurd (List.append_eq_nil_iff.mp heq).1 (hne a (hl a List.mem_cons_self))
    | cons b l' =>
      rw [List.flatMap_cons, List.flatMap_cons] at heq
      obtain ⟨hfirst, heq⟩ := h (hl a List.mem_cons_self) (hl' b List.mem_cons_self) heq
      rw [List.map_cons, List.map_cons, hfirst, ih (fun c hc => hl c (List.mem_cons_of_mem a hc))
        (fun c hc => hl' c (List.mem_cons_of_mem b hc)) heq]

/-- Nor does a list in front of a word of known length. -/
theorem before (h : Determines P encode view) (hne : ∀ a, P a → encode a ≠ []) {l l' : List α}
    (hl : ∀ a ∈ l, P a) (hl' : ∀ a ∈ l', P a) {x y : List β} (hlen : x.length = y.length)
    (heq : l.flatMap encode ++ x = l'.flatMap encode ++ y) : l.map view = l'.map view ∧ x = y := by
  induction l generalizing l' with
  | nil =>
    cases l' with
    | nil => exact ⟨rfl, heq⟩
    | cons b l' =>
      have hpos := List.length_pos_iff.2 (hne b (hl' b List.mem_cons_self))
      have htotal := congrArg List.length heq
      simp only [List.flatMap_nil, List.nil_append, List.flatMap_cons, List.length_append] at htotal
      omega
  | cons a l ih =>
    cases l' with
    | nil =>
      have hpos := List.length_pos_iff.2 (hne a (hl a List.mem_cons_self))
      have htotal := congrArg List.length heq
      simp only [List.flatMap_nil, List.nil_append, List.flatMap_cons, List.length_append] at htotal
      omega
    | cons b l' =>
      rw [List.flatMap_cons, List.flatMap_cons, List.append_assoc, List.append_assoc] at heq
      obtain ⟨hfirst, heq⟩ := h (hl a List.mem_cons_self) (hl' b List.mem_cons_self) heq
      obtain ⟨hothers, hrest⟩ := ih (fun c hc => hl c (List.mem_cons_of_mem a hc))
        (fun c hc => hl' c (List.mem_cons_of_mem b hc)) heq
      exact ⟨by rw [List.map_cons, List.map_cons, hfirst, hothers], hrest⟩

end Determines
end Hipscope.Bytes
