import Mathlib.Data.List.Basic

/-! Text in pieces on several channels: adjacent pieces of one channel are one. -/
namespace Hipscope.Text.Channels
variable {κ α : Type*} [DecidableEq κ]

/-- Join a piece to what follows on its channel. -/
def glue (piece : κ × List α) : List (κ × List α) → List (κ × List α)
  | [] => [piece]
  | next :: rest => if piece.1 = next.1 then (piece.1, piece.2 ++ next.2) :: rest else piece :: next :: rest

def merge (pieces : List (κ × List α)) : List (κ × List α) := pieces.foldr glue []

variable {a b : List (κ × List α)}

theorem merge_append (a b : List (κ × List α)) : merge (a ++ b) = a.foldr glue (merge b) := List.foldr_append

theorem merge_congr (h : merge a = merge b) (pieces : List (κ × List α)) : merge (pieces ++ a) = merge (pieces ++ b) := by
  rw [merge_append, merge_append, h]

private theorem glue_glue (channel : κ) (x y : List α) (pieces : List (κ × List α)) :
    glue (channel, x) (glue (channel, y) pieces) = glue (channel, x ++ y) pieces := by
  cases pieces with
  | nil => exact if_pos rfl
  | cons next rest =>
    rw [glue, glue]
    split
    · rw [glue, if_pos rfl, List.append_assoc]
    · rw [glue, if_pos rfl]

theorem merge_cons (piece : κ × List α) (pieces : List (κ × List α)) : merge (piece :: pieces) = glue piece (merge pieces) :=
  rfl

/-- A text as one piece or element by element merges to the same. -/
theorem merge_text (channel : κ) {text : List α} (htext : text ≠ []) (pieces : List (κ × List α)) :
    merge (text.map (fun c => (channel, [c])) ++ pieces) = merge ((channel, text) :: pieces) := by
  induction text with
  | nil => exact absurd rfl htext
  | cons c text ih =>
    rw [List.map_cons, List.cons_append, merge_cons]
    cases text with
    | nil => rfl
    | cons d text =>
      rw [ih (List.cons_ne_nil d text), merge_cons, glue_glue]
      rfl

private theorem merge_merge_append (a pieces : List (κ × List α)) : merge (merge a ++ pieces) = merge (a ++ pieces) := by
  induction a with
  | nil => rfl
  | cons piece a ih =>
    rw [List.cons_append, merge_cons, merge_cons, ← ih]
    cases merge a with
    | nil => rfl
    | cons next rest =>
      rw [glue]
      split
      · rename_i hsame
        obtain ⟨channel, y⟩ := next
        obtain ⟨channel', x⟩ := piece
        dsimp only at hsame
        subst hsame
        exact (glue_glue channel' x y _).symm
      · rfl

/-- Merging the front first changes nothing. -/
theorem merge_append_congr (h : merge a = merge b) (pieces : List (κ × List α)) :
    merge (a ++ pieces) = merge (b ++ pieces) := by
  rw [← merge_merge_append a, ← merge_merge_append b, h]

end Hipscope.Text.Channels
