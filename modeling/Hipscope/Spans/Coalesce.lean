import Mathlib.Data.List.Sort
import Mathlib.Order.MinMax
import Mathlib.Algebra.BigOperators.Group.List.Basic
import Mathlib.Algebra.GroupWithZero.Nat
import Mathlib.Order.Interval.Finset.Nat

/-! Half-open spans of a linear order: sorting them and joining those that overlap or touch. -/
namespace Hipscope.Spans
variable {α : Type*} [LinearOrder α]

/-- Some span has the point. -/
def Covers (spans : List (α × α)) (x : α) : Prop := ∃ s ∈ spans, s.1 ≤ x ∧ x < s.2

instance (spans : List (α × α)) (x : α) : Decidable (Covers spans x) := List.decidableBEx _ spans

/-- Join each span to the last one as long as it begins inside or at its end. -/
def absorb (last : α × α) : List (α × α) → List (α × α)
  | [] => [last]
  | s :: spans => if s.1 ≤ last.2 then absorb (last.1, max last.2 s.2) spans else last :: absorb s spans

def byStart (spans : List (α × α)) : List (α × α) := spans.mergeSort fun a b => decide (a.1 ≤ b.1)

def coalesce (spans : List (α × α)) : List (α × α) :=
  match byStart spans with
  | [] => []
  | s :: spans => absorb s spans

/-- Ascending spans with a gap between any two. -/
def Gapped (spans : List (α × α)) : Prop := spans.Pairwise fun a b => a.2 < b.1

section Covers
variable {s last : α × α} {spans rest : List (α × α)} {x : α}

theorem covers_nil : ¬ Covers [] x := fun ⟨_, h, _⟩ => List.not_mem_nil h

theorem covers_cons : Covers (s :: spans) x ↔ (s.1 ≤ x ∧ x < s.2) ∨ Covers spans x := by
  constructor
  · rintro ⟨t, ht, hin⟩
    obtain rfl | ht := List.mem_cons.mp ht
    · exact Or.inl hin
    · exact Or.inr ⟨t, ht, hin⟩
  · rintro (hin | ⟨t, ht, hin⟩)
    · exact ⟨s, List.mem_cons_self, hin⟩
    · exact ⟨t, List.mem_cons_of_mem s ht, hin⟩

theorem covers_append : Covers (spans ++ rest) x ↔ Covers spans x ∨ Covers rest x := by
  induction spans with
  | nil => exact (or_iff_right covers_nil).symm
  | cons s spans ih => rw [List.cons_append, covers_cons, covers_cons, ih, or_assoc]

theorem covers_perm (h : spans.Perm rest) : Covers spans x ↔ Covers rest x :=
  exists_congr fun _ => and_congr_left fun _ => h.mem_iff

end Covers

section Absorb
variable {last : α × α} {spans : List (α × α)}

theorem absorb_covers (hsorted : (last :: spans).Pairwise fun a b => a.1 ≤ b.1) (x : α) :
    Covers (absorb last spans) x ↔ Covers (last :: spans) x := by
  induction spans generalizing last with
  | nil => rfl
  | cons s spans ih =>
    obtain ⟨hlast, hrest⟩ := List.pairwise_cons.mp hsorted
    rw [absorb]
    split
    · rename_i hjoin
      have hjoined : ((last.1, max last.2 s.2) :: spans).Pairwise fun a b => a.1 ≤ b.1 :=
        List.pairwise_cons.mpr ⟨fun t ht => hlast t (List.mem_cons_of_mem s ht), (List.pairwise_cons.mp hrest).2⟩
      rw [ih hjoined, covers_cons, covers_cons, covers_cons, ← or_assoc]
      refine or_congr_left ⟨?_, ?_⟩
      · rintro ⟨hstart, hstop⟩
        obtain hstop | hstop := lt_max_iff.mp hstop
        · exact Or.inl ⟨hstart, hstop⟩
        · obtain hlt | hge := lt_or_ge x last.2
          · exact Or.inl ⟨hstart, hlt⟩
          · exact Or.inr ⟨hjoin.trans hge, hstop⟩
      · rintro (⟨hstart, hstop⟩ | ⟨hstart, hstop⟩)
        · exact ⟨hstart, lt_max_of_lt_left hstop⟩
        · exact ⟨(hlast s List.mem_cons_self).trans hstart, lt_max_of_lt_right hstop⟩
    · rw [covers_cons, ih hrest, ← covers_cons]

private theorem absorb_starts (hsorted : (last :: spans).Pairwise fun a b => a.1 ≤ b.1) :
    ∀ s ∈ absorb last spans, last.1 ≤ s.1 := by
  induction spans generalizing last with
  | nil =>
    intro s hs
    rw [List.mem_singleton.mp hs]
  | cons t spans ih =>
    obtain ⟨hlast, hrest⟩ := List.pairwise_cons.mp hsorted
    intro s hs
    rw [absorb] at hs
    split at hs
    · refine @ih (last.1, max last.2 t.2) (List.pairwise_cons.mpr ⟨?_, (List.pairwise_cons.mp hrest).2⟩) s hs
      exact fun u hu => hlast u (List.mem_cons_of_mem t hu)
    · obtain rfl | hs := List.mem_cons.mp hs
      · exact le_rfl
      · exact (hlast t List.mem_cons_self).trans (ih hrest s hs)

theorem absorb_gapped (hsorted : (last :: spans).Pairwise fun a b => a.1 ≤ b.1) : Gapped (absorb last spans) := by
  induction spans generalizing last with
  | nil => exact List.pairwise_singleton _ _
  | cons s spans ih =>
    obtain ⟨hlast, hrest⟩ := List.pairwise_cons.mp hsorted
    rw [absorb]
    split
    · refine ih (List.pairwise_cons.mpr ⟨?_, (List.pairwise_cons.mp hrest).2⟩)
      exact fun t ht => hlast t (List.mem_cons_of_mem s ht)
    · rename_i hgap
      refine List.pairwise_cons.mpr ⟨fun t ht => ?_, ih hrest⟩
      exact (not_le.mp hgap).trans_le (absorb_starts hrest t ht)

/-- A property of spans that joining keeps. -/
theorem absorb_all {P : α × α → Prop} (hjoin : ∀ a b : α × α, P a → P b → a.1 ≤ b.1 → P (a.1, max a.2 b.2))
    (hsorted : (last :: spans).Pairwise fun a b => a.1 ≤ b.1) (h : ∀ s ∈ last :: spans, P s) :
    ∀ s ∈ absorb last spans, P s := by
  induction spans generalizing last with
  | nil => exact h
  | cons t spans ih =>
    obtain ⟨hlast, hrest⟩ := List.pairwise_cons.mp hsorted
    rw [absorb]
    split
    · refine ih (List.pairwise_cons.mpr ⟨fun u hu => hlast u (List.mem_cons_of_mem t hu), (List.pairwise_cons.mp hrest).2⟩) ?_
      rintro s hs
      obtain rfl | hs := List.mem_cons.mp hs
      · exact hjoin _ _ (h last List.mem_cons_self) (h t (List.mem_cons_of_mem _ List.mem_cons_self))
          (hlast t List.mem_cons_self)
      · exact h s (List.mem_cons_of_mem _ (List.mem_cons_of_mem _ hs))
    · intro s hs
      obtain rfl | hs := List.mem_cons.mp hs
      · exact h s List.mem_cons_self
      · exact ih hrest (fun u hu => h u (List.mem_cons_of_mem _ hu)) s hs

end Absorb

section Coalesce
variable {spans : List (α × α)}

private theorem byStart_perm (spans : List (α × α)) : (byStart spans).Perm spans := List.mergeSort_perm _ _

private theorem byStart_sorted (spans : List (α × α)) : (byStart spans).Pairwise fun a b => a.1 ≤ b.1 := by
  have hsorted : (byStart spans).Pairwise fun a b => decide (a.1 ≤ b.1) := List.pairwise_mergeSort
    (fun a b c hab hbc => decide_eq_true ((of_decide_eq_true hab).trans (of_decide_eq_true hbc)))
    (fun a b => by simpa using le_total a.1 b.1) spans
  exact hsorted.imp of_decide_eq_true

theorem coalesce_covers (spans : List (α × α)) (x : α) : Covers (coalesce spans) x ↔ Covers spans x := by
  have hsorted := byStart_sorted spans
  rw [← covers_perm (byStart_perm spans), coalesce]
  cases hs : byStart spans with
  | nil => rfl
  | cons s rest =>
    rw [hs] at hsorted
    exact absorb_covers hsorted x

theorem coalesce_gapped (spans : List (α × α)) : Gapped (coalesce spans) := by
  have hsorted := byStart_sorted spans
  rw [coalesce]
  cases hs : byStart spans with
  | nil => exact List.Pairwise.nil
  | cons s rest =>
    rw [hs] at hsorted
    exact absorb_gapped hsorted

theorem coalesce_all {P : α × α → Prop} (hjoin : ∀ a b : α × α, P a → P b → a.1 ≤ b.1 → P (a.1, max a.2 b.2))
    (h : ∀ s ∈ spans, P s) : ∀ s ∈ coalesce spans, P s := by
  have hsorted := byStart_sorted spans
  have hall : ∀ s ∈ byStart spans, P s := fun s hs => h s ((byStart_perm spans).mem_iff.mp hs)
  rw [coalesce]
  cases hs : byStart spans with
  | nil => exact fun s hs => absurd hs List.not_mem_nil
  | cons s rest =>
    rw [hs] at hsorted hall
    exact absorb_all hjoin hsorted hall

end Coalesce
end Hipscope.Spans

/-! Spans of positions: how many positions they have in a window, and the items of a list that stand there. -/
namespace Hipscope.Spans

/-- The positions below `n` that the spans have. -/
def covered (n : ℕ) (spans : List (ℕ × ℕ)) : Finset ℕ := (Finset.range n).filter (Covers spans)

/-- The lengths of what the spans have of a window, added up. -/
def clipped (start stop : ℕ) (spans : List (ℕ × ℕ)) : ℕ := (spans.map fun s => min stop s.2 - max start s.1).sum

section Count
variable {start stop n : ℕ} {spans rest : List (ℕ × ℕ)}

/-- No position of the window is in two of the spans. -/
def DisjointIn (start stop : ℕ) (spans : List (ℕ × ℕ)) : Prop :=
  spans.Pairwise fun a b => min stop a.2 ≤ max start b.1 ∨ min stop b.2 ≤ max start a.1

theorem clipped_eq_card (h : DisjointIn start stop spans) :
    clipped start stop spans = ((Finset.Ico start stop).filter (Covers spans)).card := by
  induction spans with
  | nil =>
    rw [Finset.filter_false_of_mem fun x _ => covers_nil]
    rfl
  | cons s spans ih =>
    obtain ⟨hs, hspans⟩ := List.pairwise_cons.mp h
    have hsplit : (Finset.Ico start stop).filter (Covers (s :: spans)) =
        Finset.Ico (max start s.1) (min stop s.2) ∪ (Finset.Ico start stop).filter (Covers spans) := by
      ext x
      rw [Finset.mem_union, Finset.mem_filter, Finset.mem_filter, covers_cons, Finset.mem_Ico, Finset.mem_Ico,
        max_le_iff, lt_min_iff]
      tauto
    have hdisjoint : Disjoint (Finset.Ico (max start s.1) (min stop s.2)) ((Finset.Ico start stop).filter (Covers spans)) := by
      rw [Finset.disjoint_left]
      intro x hx hx'
      obtain ⟨hwindow, t, ht, hstart, hstop⟩ := Finset.mem_filter.mp hx'
      have hone := Finset.mem_Ico.mp hx
      have hwindow := Finset.mem_Ico.mp hwindow
      have happart := hs t ht
      omega
    rw [hsplit, Finset.card_union_of_disjoint hdisjoint, ← ih hspans, Nat.card_Ico]
    rfl

/-- Ascending spans are disjoint in every window. -/
theorem Gapped.disjointIn (h : Gapped spans) (start stop : ℕ) : DisjointIn start stop spans :=
  h.imp fun hgap => Or.inl (by omega)

theorem total_eq_card (h : Gapped spans) (hn : ∀ s ∈ spans, s.2 ≤ n) :
    (spans.map fun s => s.2 - s.1).sum = (covered n spans).card := by
  have hwhole : clipped 0 n spans = (spans.map fun s => s.2 - s.1).sum := by
    apply congrArg List.sum
    apply List.map_congr_left
    intro s hs
    rw [min_eq_right (hn s hs), Nat.zero_max]
  rw [← hwhole, clipped_eq_card (h.disjointIn 0 n), ← Finset.range_eq_Ico]
  rfl

theorem covered_congr (h : ∀ x, Covers spans x ↔ Covers rest x) : covered n spans = covered n rest :=
  Finset.filter_congr fun x _ => h x

/-- A span adds the positions it has and the others have not. -/
theorem card_covered_concat {s : ℕ × ℕ} (hstop : s.2 ≤ n) (h : DisjointIn s.1 s.2 spans) :
    (covered n (spans ++ [s])).card = (covered n spans).card + ((s.2 - s.1) - clipped s.1 s.2 spans) := by
  have hsplit : covered n (spans ++ [s]) =
      covered n spans ∪ ((Finset.Ico s.1 s.2).filter fun x => ¬ Covers spans x) := by
    ext x
    rw [covered, covered, Finset.mem_union, Finset.mem_filter, Finset.mem_filter, Finset.mem_filter, covers_append,
      covers_cons, Finset.mem_range, Finset.mem_Ico, or_iff_left covers_nil]
    constructor
    · rintro ⟨hx, hin | hin⟩
      · exact Or.inl ⟨hx, hin⟩
      · exact (em (Covers spans x)).imp (fun hcov => ⟨hx, hcov⟩) fun hnot => ⟨hin, hnot⟩
    · rintro (⟨hx, hin⟩ | ⟨hin, -⟩)
      · exact ⟨hx, Or.inl hin⟩
      · exact ⟨hin.2.trans_le hstop, Or.inr hin⟩
  have hdisjoint : Disjoint (covered n spans) ((Finset.Ico s.1 s.2).filter fun x => ¬ Covers spans x) := by
    rw [Finset.disjoint_left]
    intro x hx hx'
    exact (Finset.mem_filter.mp hx').2 (Finset.mem_filter.mp hx).2
  have hnew : ((Finset.Ico s.1 s.2).filter fun x => ¬ Covers spans x).card = (s.2 - s.1) - clipped s.1 s.2 spans := by
    have hboth := Finset.card_filter_add_card_filter_not (s := Finset.Ico s.1 s.2) (Covers spans)
    rw [Nat.card_Ico, ← clipped_eq_card h] at hboth
    omega
  rw [hsplit, Finset.card_union_of_disjoint hdisjoint, hnew]

/-- A window without new positions has none outside the spans. -/
theorem covers_of_full (h : DisjointIn start stop spans) (hfull : (stop - start) - clipped start stop spans = 0) :
    ∀ x, start ≤ x → x < stop → Covers spans x := by
  intro x hx hx'
  rw [clipped_eq_card h] at hfull
  have hcard : ((Finset.Ico start stop).filter (Covers spans)).card = (Finset.Ico start stop).card := by
    apply le_antisymm (Finset.card_filter_le _ _)
    rw [Nat.card_Ico]
    omega
  have hall := Finset.filter_card_eq hcard
  exact hall x (Finset.mem_Ico.mpr ⟨hx, hx'⟩)

end Count

section Gather
variable {β : Type*} {spans : List (ℕ × ℕ)}

/-- The items of the spans, one span after the other. -/
def gather (source : List β) (spans : List (ℕ × ℕ)) : List β := spans.flatMap fun s => (source.take s.2).drop s.1

/-- The items at the positions of a set, where the first has position `k`. -/
def itemsAt (p : ℕ → Bool) (k : ℕ) (items : List β) : List β := ((items.zipIdx k).filter fun m => p m.2).map Prod.fst

variable {source items : List β} {k : ℕ} {p q : ℕ → Bool}

private theorem itemsAt_none (h : ∀ x, k ≤ x → x < k + items.length → p x = false) : itemsAt p k items = [] := by
  rw [itemsAt, List.map_eq_nil_iff, List.filter_eq_nil_iff]
  rintro ⟨a, x⟩ hm
  rw [h x (List.le_snd_of_mem_zipIdx hm) (List.snd_lt_add_of_mem_zipIdx hm)]
  exact Bool.false_ne_true

private theorem itemsAt_all (h : ∀ x, k ≤ x → x < k + items.length → p x = true) : itemsAt p k items = items := by
  have hall : (items.zipIdx k).filter (fun m => p m.2) = items.zipIdx k := by
    rw [List.filter_eq_self]
    rintro ⟨a, x⟩ hm
    exact h x (List.le_snd_of_mem_zipIdx hm) (List.snd_lt_add_of_mem_zipIdx hm)
  rw [itemsAt, hall, List.zipIdx_map_fst]

private theorem itemsAt_congr (h : ∀ x, k ≤ x → p x = q x) : itemsAt p k items = itemsAt q k items := by
  apply congrArg (List.map Prod.fst)
  apply List.filter_congr
  rintro ⟨a, x⟩ hm
  exact h x (List.le_snd_of_mem_zipIdx hm)

private theorem itemsAt_append (a b : List β) : itemsAt p k (a ++ b) = itemsAt p k a ++ itemsAt p (k + a.length) b := by
  rw [itemsAt, List.zipIdx_append, List.filter_append, List.map_append]
  rfl

private theorem itemsAt_drop (h : Gapped spans) (hne : ∀ s ∈ spans, s.1 < s.2) (hn : ∀ s ∈ spans, s.2 ≤ source.length)
    (hk : ∀ s ∈ spans, k ≤ s.1) : itemsAt (fun x => decide (Covers spans x)) k (source.drop k) = gather source spans := by
  induction spans generalizing k with
  | nil => exact itemsAt_none fun x _ _ => decide_eq_false covers_nil
  | cons s spans ih =>
    obtain ⟨hgap, hrest⟩ := List.pairwise_cons.mp h
    have hks := hk s List.mem_cons_self
    have hs := hne s List.mem_cons_self
    have hsn := hn s List.mem_cons_self
    have hlater : source.drop s.1 = (source.take s.2).drop s.1 ++ source.drop s.2 := by
      conv_lhs => rw [← List.take_append_drop s.2 source]
      rw [List.drop_append_of_le_length]
      rw [List.length_take]
      omega
    have hcut : source.drop k = (source.drop k).take (s.1 - k) ++ ((source.take s.2).drop s.1 ++ source.drop s.2) := by
      rw [← hlater]
      conv_lhs => rw [← List.take_append_drop (s.1 - k) (source.drop k), List.drop_drop, Nat.add_sub_cancel' hks]
    have hbefore : ((source.drop k).take (s.1 - k)).length = s.1 - k := by
      rw [List.length_take, List.length_drop]
      omega
    have hinside : ((source.take s.2).drop s.1).length = s.2 - s.1 := by
      rw [List.length_drop, List.length_take]
      omega
    rw [hcut, itemsAt_append, itemsAt_append, hbefore, hinside, Nat.add_sub_cancel' hks, Nat.add_sub_cancel' hs.le]
    -- before the span nothing is kept, inside it everything, behind it what the later spans have
    have hnone : itemsAt (fun x => decide (Covers (s :: spans) x)) k ((source.drop k).take (s.1 - k)) = [] := by
      apply itemsAt_none
      rintro x - hx
      apply decide_eq_false
      rintro ⟨t, ht, hstart, -⟩
      rw [hbefore] at hx
      obtain rfl | ht := List.mem_cons.mp ht
      · omega
      · have hafter := hgap t ht
        omega
    have hall : itemsAt (fun x => decide (Covers (s :: spans) x)) s.1 ((source.take s.2).drop s.1) =
        (source.take s.2).drop s.1 := by
      apply itemsAt_all
      intro x hx hx'
      rw [hinside] at hx'
      exact decide_eq_true (covers_cons.mpr (Or.inl ⟨hx, by omega⟩))
    have hbehind : itemsAt (fun x => decide (Covers (s :: spans) x)) s.2 (source.drop s.2) = gather source spans := by
      rw [← ih hrest (fun t ht => hne t (List.mem_cons_of_mem s ht)) (fun t ht => hn t (List.mem_cons_of_mem s ht))
        fun t ht => (hgap t ht).le]
      apply itemsAt_congr
      intro x hx
      apply decide_eq_decide.mpr
      rw [covers_cons, or_iff_right]
      exact fun hin => absurd hin.2 (Nat.not_lt.mpr hx)
    rw [hnone, hall, hbehind]
    rfl

/-- Ascending spans gather the subsequence of the items at the positions they have. -/
theorem gather_eq (h : Gapped spans) (hne : ∀ s ∈ spans, s.1 < s.2) (hn : ∀ s ∈ spans, s.2 ≤ source.length) :
    gather source spans = itemsAt (fun x => decide (Covers spans x)) 0 source :=
  (itemsAt_drop h hne hn fun _ _ => Nat.zero_le _).symm

end Gather
end Hipscope.Spans
