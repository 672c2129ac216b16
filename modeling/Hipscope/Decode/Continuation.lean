import Mathlib.Data.List.Basic

/-! Autoregressive continuation of a context under a deterministic choice of the
next element. -/
namespace Hipscope.Decode
variable {α : Type*} (choice : List α → α)

/-- The first elements chosen one at a time. -/
def continuation (context : List α) : ℕ → List α
  | 0 => []
  | n + 1 => choice context :: continuation (context ++ [choice context]) n

/-- Every element is the choice after what precedes it. -/
def Follows (context : List α) : List α → Prop
  | [] => True
  | a :: rest => choice context = a ∧ Follows (context ++ [a]) rest

variable {choice} {context left right : List α} {a : α}

theorem follows_iff {out : List α} :
    Follows choice context out ↔ out = continuation choice context out.length := by
  induction out generalizing context with
  | nil => exact ⟨fun _ => rfl, fun _ => trivial⟩
  | cons a rest ih =>
    rw [Follows, ih, List.length_cons, continuation]
    constructor
    · rintro ⟨rfl, hrest⟩
      rw [← hrest]
    · intro h
      obtain ⟨hfirst, hrest⟩ := List.cons.inj h
      rw [← hfirst] at hrest
      exact ⟨hfirst.symm, hrest⟩

theorem follows_append :
    Follows choice context (left ++ right) ↔
      Follows choice context left ∧ Follows choice (context ++ left) right := by
  induction left generalizing context with
  | nil => simp [Follows]
  | cons a left ih =>
    rw [List.cons_append, Follows, Follows, ih, and_assoc, List.append_assoc, List.singleton_append]

theorem follows_snoc : Follows choice context (left ++ [a]) ↔
    Follows choice context left ∧ choice (context ++ left) = a := by
  rw [follows_append, Follows, Follows, and_true]

theorem Follows.take {out : List α} (h : Follows choice context out) (n : ℕ) :
    Follows choice context (out.take n) := by
  rw [← List.take_append_drop n out, follows_append] at h
  exact h.1

/-- Two continuations of one length agree. -/
theorem Follows.eq_of_length {out out' : List α} (h : Follows choice context out)
    (h' : Follows choice context out') (hlen : out.length = out'.length) : out = out' := by
  rw [follows_iff] at h h'
  rw [h, h', hlen]

end Hipscope.Decode
