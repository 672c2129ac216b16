import Hipscope.Spans.Coalesce

/-! Prompt compression: the spans of the source that survive, and the tokens they hold. -/
namespace Hipscope.Pflash
open Spans

/-- One finite score for each block of the source. -/
structure BlockScores (F : Type) where
  scores : List F
  blockSize : ℕ
  sourceTokens : ℕ
  blockSize_pos : 0 < blockSize
  sourceTokens_pos : 0 < sourceTokens
  scores_length : scores.length = (sourceTokens + (blockSize - 1)) / blockSize

/-- The sink, the recent tail and the spans to keep, clamped to the source. -/
def rawAnchors (n sinkTokens recentTokens : ℕ) (mustKeepSpans : List (ℕ × ℕ)) : List (ℕ × ℕ) :=
  let sinkEnd := min sinkTokens n
  let recentStart := if n ≤ recentTokens then 0 else n - recentTokens
  (if 0 < sinkEnd then [(0, sinkEnd)] else []) ++ ((if recentStart < n then [(recentStart, n)] else []) ++
    (mustKeepSpans.map fun s => (min s.1 n, min s.2 n)).filter fun s => decide (s.1 < s.2))

/-- The tokens of a window that no span has yet. -/
def blockIncremental (spans : List (ℕ × ℕ)) (start stop : ℕ) : ℕ := stop - start - clipped start stop spans

section Rank
variable {F : Type} [LinearOrder F]

/-- Higher scores first, equal ones by block. -/
def ranksBefore (a b : ℕ × F) : Prop := b.2 < a.2 ∨ a.2 = b.2 ∧ a.1 ≤ b.1

instance (a b : ℕ × F) : Decidable (ranksBefore a b) := inferInstanceAs (Decidable (_ ∨ _))

def ranked (scores : List F) : List (ℕ × F) :=
  (scores.zipIdx.map Prod.swap).mergeSort fun a b => decide (ranksBefore a b)

end Rank

namespace BlockScores
variable {F : Type} (scores : BlockScores F)

def nBlocks : ℕ := scores.scores.length

/-- The tokens of a block; the last one may be short. -/
def blockSpan (b : ℕ) : ℕ × ℕ := (b * scores.blockSize, min ((b + 1) * scores.blockSize) scores.sourceTokens)

/-- Take blocks in order until the budget is met, each for the tokens it adds. -/
def addBlocks (middleBudget : ℕ) : List (ℕ × F) → List (ℕ × ℕ) → ℕ → List ℕ
  | [], _, _ => []
  | (b, _) :: middle, spans, middleKept =>
    if middleBudget ≤ middleKept then []
    else
      let span := scores.blockSpan b
      let incr := blockIncremental spans span.1 span.2
      if incr = 0 then addBlocks middleBudget middle spans middleKept
      else b :: addBlocks middleBudget middle (spans ++ [span]) (middleKept + incr)

variable [LinearOrder F] (sinkTokens recentTokens targetKept : ℕ) (mustKeepSpans : List (ℕ × ℕ))

def anchors : List (ℕ × ℕ) := coalesce (rawAnchors scores.sourceTokens sinkTokens recentTokens mustKeepSpans)

/-- The length of all anchors. -/
def anchored : ℕ := ((scores.anchors sinkTokens recentTokens mustKeepSpans).map fun s => s.2 - s.1).sum

/-- The blocks added for their score, in the order they are added. -/
def addedBlocks : List ℕ :=
  let anchors := scores.anchors sinkTokens recentTokens mustKeepSpans
  let anchored := scores.anchored sinkTokens recentTokens mustKeepSpans
  if scores.sourceTokens ≤ targetKept ∨ targetKept ≤ anchored then []
  else scores.addBlocks (targetKept - anchored) (ranked scores.scores) anchors 0

/-- The kept spans, for the number of tokens to keep that the ratio and the floor give. -/
def selectSpans : List (ℕ × ℕ) :=
  let anchors := scores.anchors sinkTokens recentTokens mustKeepSpans
  let anchored := scores.anchored sinkTokens recentTokens mustKeepSpans
  if scores.sourceTokens ≤ targetKept then [(0, scores.sourceTokens)]
  else if targetKept ≤ anchored then anchors
  else coalesce (anchors ++ (scores.addedBlocks sinkTokens recentTokens targetKept mustKeepSpans).map scores.blockSpan)

end BlockScores

/-- The tokens of the spans in source order. -/
def emitCompressed (sourceTokens : List ℕ) (keptSpans : List (ℕ × ℕ)) : List ℕ :=
  keptSpans.flatMap fun s =>
    let start := min s.1 sourceTokens.length
    let stop := min s.2 sourceTokens.length
    if start < stop then (sourceTokens.take stop).drop start else []

/-- A position that must survive. -/
def Anchor (n sinkTokens recentTokens : ℕ) (mustKeepSpans : List (ℕ × ℕ)) (x : ℕ) : Prop :=
  x < n ∧ (x < sinkTokens ∨ n ≤ x + recentTokens ∨ Covers mustKeepSpans x)

instance (n sinkTokens recentTokens : ℕ) (mustKeepSpans : List (ℕ × ℕ)) (x : ℕ) :
    Decidable (Anchor n sinkTokens recentTokens mustKeepSpans x) := inferInstanceAs (Decidable (_ ∧ _))

section Anchors
variable {n sinkTokens recentTokens : ℕ} {mustKeepSpans : List (ℕ × ℕ)}

private theorem covers_guarded {p : Prop} [Decidable p] (start stop x : ℕ) :
    Covers (if p then [(start, stop)] else []) x ↔ p ∧ start ≤ x ∧ x < stop := by
  split
  · rename_i hp
    rw [covers_cons, or_iff_left covers_nil, and_iff_right hp]
  · rename_i hp
    exact ⟨fun h => absurd h covers_nil, fun h => absurd h.1 hp⟩

private theorem covers_clamped (x : ℕ) :
    Covers ((mustKeepSpans.map fun s => (min s.1 n, min s.2 n)).filter fun s => decide (s.1 < s.2)) x ↔
      x < n ∧ Covers mustKeepSpans x := by
  constructor
  · rintro ⟨t, ht, hstart, hstop⟩
    obtain ⟨s, hs, rfl⟩ := List.mem_map.mp (List.mem_filter.mp ht).1
    dsimp only at hstart hstop
    exact ⟨by omega, s, hs, by omega, by omega⟩
  · rintro ⟨hx, s, hs, hstart, hstop⟩
    refine ⟨(min s.1 n, min s.2 n), List.mem_filter.mpr ⟨List.mem_map_of_mem hs, decide_eq_true ?_⟩, ?_, ?_⟩
    · dsimp only
      omega
    · exact (Nat.min_le_left _ _).trans hstart
    · exact lt_min hstop hx

theorem rawAnchors_covers (x : ℕ) : Covers (rawAnchors n sinkTokens recentTokens mustKeepSpans) x ↔
    Anchor n sinkTokens recentTokens mustKeepSpans x := by
  rw [rawAnchors, covers_append, covers_append, covers_guarded, covers_guarded, covers_clamped, Anchor]
  have hsink : (0 < min sinkTokens n ∧ 0 ≤ x ∧ x < min sinkTokens n) ↔ x < n ∧ x < sinkTokens := by omega
  have hrecent : ((if n ≤ recentTokens then 0 else n - recentTokens) < n ∧
      (if n ≤ recentTokens then 0 else n - recentTokens) ≤ x ∧ x < n) ↔ x < n ∧ n ≤ x + recentTokens := by
    split <;> omega
  rw [hsink, hrecent, ← and_or_left, ← and_or_left]

private theorem mem_guarded {p : Prop} [Decidable p] {s t : ℕ × ℕ} (h : s ∈ if p then [t] else []) : p ∧ s = t := by
  split at h
  · rename_i hp
    exact ⟨hp, List.mem_singleton.mp h⟩
  · exact absurd h List.not_mem_nil

theorem rawAnchors_fit : ∀ s ∈ rawAnchors n sinkTokens recentTokens mustKeepSpans, s.1 < s.2 ∧ s.2 ≤ n := by
  intro s hs
  rw [rawAnchors, List.mem_append, List.mem_append] at hs
  obtain hs | hs | hs := hs
  · obtain ⟨hpos, rfl⟩ := mem_guarded hs
    exact ⟨hpos, Nat.min_le_right _ _⟩
  · obtain ⟨hpos, rfl⟩ := mem_guarded hs
    exact ⟨hpos, le_rfl⟩
  · obtain ⟨hmem, hlt⟩ := List.mem_filter.mp hs
    obtain ⟨t, -, rfl⟩ := List.mem_map.mp hmem
    exact ⟨of_decide_eq_true hlt, Nat.min_le_right _ _⟩

end Anchors

/-- Joining keeps spans non-empty and inside the source. -/
private theorem fit_join {n : ℕ} (a b : ℕ × ℕ) (ha : a.1 < a.2 ∧ a.2 ≤ n) (hb : b.1 < b.2 ∧ b.2 ≤ n) (_ : a.1 ≤ b.1) :
    a.1 < max a.2 b.2 ∧ max a.2 b.2 ≤ n :=
  ⟨lt_max_of_lt_left ha.1, max_le ha.2 hb.2⟩

namespace BlockScores
variable {F : Type} {scores : BlockScores F}

section Blocks
variable {b c : ℕ}

theorem nBlocks_eq (scores : BlockScores F) :
    scores.nBlocks = (scores.sourceTokens + (scores.blockSize - 1)) / scores.blockSize := scores.scores_length

private theorem block_start_lt (hb : b < scores.nBlocks) : b * scores.blockSize < scores.sourceTokens := by
  rw [nBlocks_eq, Nat.lt_iff_add_one_le, Nat.le_div_iff_mul_le scores.blockSize_pos, Nat.add_mul] at hb
  have hpos := scores.blockSize_pos
  omega

theorem blockSpan_fit (hb : b < scores.nBlocks) :
    (scores.blockSpan b).1 < (scores.blockSpan b).2 ∧ (scores.blockSpan b).2 ≤ scores.sourceTokens := by
  refine ⟨lt_min ?_ (block_start_lt hb), Nat.min_le_right _ _⟩
  exact Nat.mul_lt_mul_of_pos_right (Nat.lt_succ_self b) scores.blockSize_pos

theorem blockSpan_length_le (b : ℕ) : (scores.blockSpan b).2 - (scores.blockSpan b).1 ≤ scores.blockSize := by
  have hnext : (b + 1) * scores.blockSize = b * scores.blockSize + scores.blockSize := Nat.succ_mul _ _
  rw [blockSpan]
  dsimp only
  omega

/-- Different blocks have no token in common. -/
theorem blockSpan_apart (h : b ≠ c) :
    (scores.blockSpan b).2 ≤ (scores.blockSpan c).1 ∨ (scores.blockSpan c).2 ≤ (scores.blockSpan b).1 := by
  obtain hlt | hlt := Nat.lt_or_gt_of_ne h
  · exact Or.inl ((Nat.min_le_left _ _).trans (Nat.mul_le_mul_right _ hlt))
  · exact Or.inr ((Nat.min_le_left _ _).trans (Nat.mul_le_mul_right _ hlt))

/-- Every token is in a block. -/
theorem exists_block {x : ℕ} (hx : x < scores.sourceTokens) :
    ∃ b < scores.nBlocks, (scores.blockSpan b).1 ≤ x ∧ x < (scores.blockSpan b).2 := by
  have hpos := scores.blockSize_pos
  refine ⟨x / scores.blockSize, ?_, Nat.div_mul_le_self _ _, lt_min ?_ hx⟩
  · rw [nBlocks_eq, Nat.lt_iff_add_one_le, Nat.le_div_iff_mul_le hpos, Nat.add_mul]
    have hle := Nat.div_mul_le_self x scores.blockSize
    omega
  · rw [Nat.mul_comm]
    exact Nat.lt_mul_div_succ x hpos

end Blocks

section Added
variable {middle : List (ℕ × F)} {spans : List (ℕ × ℕ)} {budget kept target : ℕ}

/-- What the loop over the remaining blocks starts from: the count of the tokens so far is exact,
and so is every block's count of new tokens. -/
structure Counted (scores : BlockScores F) (budget target : ℕ) (middle : List (ℕ × F)) (spans : List (ℕ × ℕ)) (kept : ℕ) :
    Prop where
  count : (covered scores.sourceTokens spans).card + budget = target + kept
  below : kept < budget + scores.blockSize
  apart : ∀ m ∈ middle, DisjointIn (scores.blockSpan m.1).1 (scores.blockSpan m.1).2 spans
  nodup : (middle.map Prod.fst).Nodup
  blocks : ∀ m ∈ middle, m.1 < scores.nBlocks

/-- The blocks up to the end of the budget end up covered, and only they are added. -/
structure Filled (scores : BlockScores F) (target : ℕ) (middle : List (ℕ × F)) (spans : List (ℕ × ℕ)) (added : List ℕ)
    (front back : List (ℕ × F)) : Prop where
  split : middle = front ++ back
  only : ∀ b ∈ added, b ∈ front.map Prod.fst
  covered : ∀ m ∈ front, ∀ x, (scores.blockSpan m.1).1 ≤ x → x < (scores.blockSpan m.1).2 →
    Covers (spans ++ added.map scores.blockSpan) x
  met : back = [] ∨ target ≤ (Spans.covered scores.sourceTokens (spans ++ added.map scores.blockSpan)).card
  below : (Spans.covered scores.sourceTokens (spans ++ added.map scores.blockSpan)).card < target + scores.blockSize

/-- Adding a block keeps the counts exact. -/
theorem Counted.add {b : ℕ} {f : F} (h : Counted scores budget target ((b, f) :: middle) spans kept) (hmore : kept < budget) :
    Counted scores budget target middle (spans ++ [scores.blockSpan b])
      (kept + blockIncremental spans (scores.blockSpan b).1 (scores.blockSpan b).2) where
  count := by
    have hapart : DisjointIn (scores.blockSpan b).1 (scores.blockSpan b).2 spans := h.apart _ List.mem_cons_self
    have hblock : b < scores.nBlocks := h.blocks _ List.mem_cons_self
    have hcard := card_covered_concat (blockSpan_fit hblock).2 hapart
    have hcount := h.count
    rw [hcard, blockIncremental]
    omega
  below := by
    have hlength := scores.blockSpan_length_le b
    rw [blockIncremental]
    omega
  apart := by
    intro m hm
    have hne : b ≠ m.1 := by
      rintro rfl
      have hin : m.1 ∈ middle.map Prod.fst := List.mem_map_of_mem hm
      exact (List.nodup_cons.mp h.nodup).1 hin
    refine List.pairwise_append.mpr ⟨h.apart m (List.mem_cons_of_mem _ hm), List.pairwise_singleton _ _, ?_⟩
    intro s _ t ht
    rw [List.mem_singleton.mp ht]
    have happart := scores.blockSpan_apart hne
    omega
  nodup := (List.nodup_cons.mp h.nodup).2
  blocks := fun m hm => h.blocks m (List.mem_cons_of_mem _ hm)

theorem Counted.skip {m : ℕ × F} (h : Counted scores budget target (m :: middle) spans kept) :
    Counted scores budget target middle spans kept where
  count := h.count
  below := h.below
  apart := fun m hm => h.apart m (List.mem_cons_of_mem _ hm)
  nodup := (List.nodup_cons.mp h.nodup).2
  blocks := fun m hm => h.blocks m (List.mem_cons_of_mem _ hm)

private theorem filled_stop (h : Counted scores budget target middle spans kept) (hmet : middle = [] ∨ budget ≤ kept) :
    Filled scores target middle spans [] [] middle where
  split := rfl
  only := fun b hb => absurd hb List.not_mem_nil
  covered := fun m hm => absurd hm List.not_mem_nil
  met := by
    have hcount := h.count
    rw [List.map_nil, List.append_nil]
    exact hmet.imp_right fun hbudget => by omega
  below := by
    have hcount := h.count
    have hbelow := h.below
    rw [List.map_nil, List.append_nil]
    omega

theorem addBlocks_filled (h : Counted scores budget target middle spans kept) :
    ∃ front back, Filled scores target middle spans (scores.addBlocks budget middle spans kept) front back := by
  induction middle generalizing spans kept with
  | nil => exact ⟨[], [], filled_stop h (Or.inl rfl)⟩
  | cons m middle ih =>
    obtain ⟨b, f⟩ := m
    have hapart : DisjointIn (scores.blockSpan b).1 (scores.blockSpan b).2 spans := h.apart _ List.mem_cons_self
    rw [addBlocks]
    split
    · rename_i hfull
      exact ⟨[], _, filled_stop h (Or.inr hfull)⟩
    · rename_i hmore
      dsimp only
      split
      · -- the block is covered already
        rename_i hnone
        obtain ⟨front, back, hfilled⟩ := ih h.skip
        refine ⟨(b, f) :: front, back, ?_, ?_, ?_, hfilled.met, hfilled.below⟩
        · rw [hfilled.split, List.cons_append]
        · exact fun c hc => List.mem_cons_of_mem b (hfilled.only c hc)
        · intro m hm x hx hx'
          obtain rfl | hm := List.mem_cons.mp hm
          · exact covers_append.mpr (Or.inl (covers_of_full hapart hnone x hx hx'))
          · exact hfilled.covered m hm x hx hx'
      · obtain ⟨front, back, hfilled⟩ := ih (h.add (not_le.mp hmore))
        have hsame (added : List ℕ) : spans ++ (b :: added).map scores.blockSpan =
            spans ++ [scores.blockSpan b] ++ added.map scores.blockSpan := by
          rw [List.append_assoc]
          rfl
        refine ⟨(b, f) :: front, back, ?_, ?_, ?_, ?_, ?_⟩
        · rw [hfilled.split, List.cons_append]
        · intro c hc
          obtain rfl | hc := List.mem_cons.mp hc
          · exact List.mem_cons_self
          · exact List.mem_cons_of_mem b (hfilled.only c hc)
        · intro m hm x hx hx'
          rw [hsame]
          obtain rfl | hm := List.mem_cons.mp hm
          · refine covers_append.mpr (Or.inl (covers_append.mpr (Or.inr ?_)))
            exact covers_cons.mpr (Or.inl ⟨hx, hx'⟩)
          · exact hfilled.covered m hm x hx hx'
        · rw [hsame]
          exact hfilled.met
        · rw [hsame]
          exact hfilled.below

end Added
section Ranked
variable [LinearOrder F]

private theorem mem_ranked {scores : List F} {m : ℕ × F} : m ∈ ranked scores ↔ scores[m.1]? = some m.2 := by
  rw [ranked, List.mem_mergeSort, List.mem_map]
  constructor
  · rintro ⟨p, hp, rfl⟩
    exact List.mem_zipIdx_iff_getElem?.mp hp
  · intro h
    exact ⟨m.swap, List.mem_zipIdx_iff_getElem?.mpr h, Prod.swap_swap m⟩

private theorem ranksBefore_trans {a b c : ℕ × F} (hab : ranksBefore a b) (hbc : ranksBefore b c) : ranksBefore a c := by
  obtain hab | ⟨hab, hle⟩ := hab
  · obtain hbc | ⟨hbc, -⟩ := hbc
    · exact Or.inl (hbc.trans hab)
    · exact Or.inl (hbc ▸ hab)
  · obtain hbc | ⟨hbc, hle'⟩ := hbc
    · exact Or.inl (hab ▸ hbc)
    · exact Or.inr ⟨hab.trans hbc, hle.trans hle'⟩

private theorem ranksBefore_total (a b : ℕ × F) : ranksBefore a b ∨ ranksBefore b a := by
  obtain hlt | heq | hgt := lt_trichotomy a.2 b.2
  · exact Or.inr (Or.inl hlt)
  · exact (le_total a.1 b.1).imp (fun hle => Or.inr ⟨heq, hle⟩) fun hle => Or.inr ⟨heq.symm, hle⟩
  · exact Or.inl (Or.inl hgt)

private theorem ranked_sorted (scores : List F) : (ranked scores).Pairwise ranksBefore := by
  have htotal (a b : ℕ × F) : (decide (ranksBefore a b) || decide (ranksBefore b a)) = true := by
    simpa using ranksBefore_total a b
  have htrans (a b c : ℕ × F) (hab : decide (ranksBefore a b) = true) (hbc : decide (ranksBefore b c) = true) :
      decide (ranksBefore a c) = true :=
    decide_eq_true (ranksBefore_trans (of_decide_eq_true hab) (of_decide_eq_true hbc))
  exact (List.pairwise_mergeSort htrans htotal (scores.zipIdx.map Prod.swap)).imp of_decide_eq_true

private theorem ranked_nodup (scores : List F) : ((ranked scores).map Prod.fst).Nodup := by
  have hperm := (List.mergeSort_perm (scores.zipIdx.map Prod.swap) fun a b => decide (ranksBefore a b)).map Prod.fst
  have hfst : (scores.zipIdx.map Prod.swap).map Prod.fst = List.range' 0 scores.length := by
    rw [List.map_map]
    exact List.zipIdx_map_snd 0 scores
  rw [hfst] at hperm
  exact hperm.nodup_iff.mpr List.nodup_range'

private theorem ranked_counted (scores : BlockScores F) {anchors : List (ℕ × ℕ)} (hgapped : Gapped anchors) {target : ℕ}
    (htarget : (covered scores.sourceTokens anchors).card ≤ target) :
    Counted scores (target - (covered scores.sourceTokens anchors).card) target (ranked scores.scores) anchors 0 where
  count := by omega
  below := Nat.add_pos_right _ scores.blockSize_pos
  apart := fun m _ => hgapped.disjointIn _ _
  nodup := ranked_nodup scores.scores
  blocks := by
    intro m hm
    obtain ⟨hlt, -⟩ := List.getElem?_eq_some_iff.mp (mem_ranked.mp hm)
    exact hlt

end Ranked

section Select
variable (scores : BlockScores F) (sinkTokens recentTokens targetKept : ℕ) (mustKeepSpans : List (ℕ × ℕ))

/-- How many tokens must survive. -/
def anchorCount : ℕ :=
  ((Finset.range scores.sourceTokens).filter (Anchor scores.sourceTokens sinkTokens recentTokens mustKeepSpans)).card

section Anchors

private theorem anchors_covers (x : ℕ) : Covers (scores.anchors sinkTokens recentTokens mustKeepSpans) x ↔
    Anchor scores.sourceTokens sinkTokens recentTokens mustKeepSpans x :=
  (coalesce_covers _ x).trans (rawAnchors_covers x)

private theorem anchors_gapped : Gapped (scores.anchors sinkTokens recentTokens mustKeepSpans) := coalesce_gapped _

private theorem anchors_fit :
    ∀ s ∈ scores.anchors sinkTokens recentTokens mustKeepSpans, s.1 < s.2 ∧ s.2 ≤ scores.sourceTokens :=
  coalesce_all fit_join rawAnchors_fit

private theorem covered_anchors : (covered scores.sourceTokens (scores.anchors sinkTokens recentTokens mustKeepSpans)).card =
    scores.anchorCount sinkTokens recentTokens mustKeepSpans :=
  congrArg Finset.card (Finset.filter_congr fun x _ => scores.anchors_covers sinkTokens recentTokens mustKeepSpans x)

private theorem anchored_eq : scores.anchored sinkTokens recentTokens mustKeepSpans =
    scores.anchorCount sinkTokens recentTokens mustKeepSpans := by
  rw [anchored, total_eq_card (scores.anchors_gapped _ _ _) fun s hs => (scores.anchors_fit _ _ _ s hs).2, covered_anchors]

end Anchors

variable [LinearOrder F]

/-- What a selection promises: well-formed spans that keep the anchors, the budget with less than a block to
spare, and blocks taken in the order of their rank. -/
structure Selected (spans : List (ℕ × ℕ)) (added : List ℕ) : Prop where
  fit : ∀ s ∈ spans, s.1 < s.2 ∧ s.2 ≤ scores.sourceTokens
  gapped : Gapped spans
  keeps : ∀ x, Anchor scores.sourceTokens sinkTokens recentTokens mustKeepSpans x → Covers spans x
  anchorsOnly : targetKept ≤ scores.anchorCount sinkTokens recentTokens mustKeepSpans →
    (covered scores.sourceTokens spans).card = scores.anchorCount sinkTokens recentTokens mustKeepSpans
  budget : scores.anchorCount sinkTokens recentTokens mustKeepSpans < targetKept →
    targetKept ≤ (covered scores.sourceTokens spans).card ∧
      (covered scores.sourceTokens spans).card < targetKept + scores.blockSize
  ranks : ∀ b f c g, scores.scores[b]? = some f → scores.scores[c]? = some g → b ∈ added →
    (∃ x, (scores.blockSpan c).1 ≤ x ∧ x < (scores.blockSpan c).2 ∧ ¬ Covers spans x) → g < f ∨ f = g ∧ b < c

private theorem selected_whole (htarget : targetKept = scores.sourceTokens) :
    Selected scores sinkTokens recentTokens targetKept mustKeepSpans [(0, scores.sourceTokens)] [] := by
  have hall : covered scores.sourceTokens [(0, scores.sourceTokens)] = Finset.range scores.sourceTokens := by
    apply Finset.filter_true_of_mem
    intro x hx
    exact covers_cons.mpr (Or.inl ⟨Nat.zero_le x, Finset.mem_range.mp hx⟩)
  have hcard : (covered scores.sourceTokens [(0, scores.sourceTokens)]).card = scores.sourceTokens := by
    rw [hall, Finset.card_range]
  have hle : scores.anchorCount sinkTokens recentTokens mustKeepSpans ≤ scores.sourceTokens :=
    (Finset.card_filter_le _ _).trans (Finset.card_range _).le
  refine ⟨?_, List.pairwise_singleton _ _, ?_, ?_, ?_, ?_⟩
  · intro s hs
    rw [List.mem_singleton.mp hs]
    exact ⟨scores.sourceTokens_pos, le_rfl⟩
  · exact fun x hx => covers_cons.mpr (Or.inl ⟨Nat.zero_le x, hx.1⟩)
  · intro hmet
    rw [hcard]
    omega
  · have hpos := scores.blockSize_pos
    rw [hcard]
    omega
  · exact fun _ _ _ _ _ _ hb => absurd hb List.not_mem_nil

private theorem selected_anchors (hmet : targetKept ≤ scores.anchorCount sinkTokens recentTokens mustKeepSpans) :
    Selected scores sinkTokens recentTokens targetKept mustKeepSpans (scores.anchors sinkTokens recentTokens mustKeepSpans) [] where
  fit := scores.anchors_fit _ _ _
  gapped := scores.anchors_gapped _ _ _
  keeps := fun x hx => (scores.anchors_covers _ _ _ x).mpr hx
  anchorsOnly := fun _ => scores.covered_anchors _ _ _
  budget := fun hlt => absurd hmet (Nat.not_le.mpr hlt)
  ranks := fun _ _ _ _ _ _ hb => absurd hb List.not_mem_nil

/-- A block that is not covered comes after every block added. -/
private theorem filled_ranks {target : ℕ} {spans : List (ℕ × ℕ)} {added : List ℕ} {front back : List (ℕ × F)}
    (h : Filled scores target (ranked scores.scores) spans added front back) {b c : ℕ} {f g : F} (hb : scores.scores[b]? = some f)
    (hc : scores.scores[c]? = some g) (hadded : b ∈ added) {x : ℕ} (hx : (scores.blockSpan c).1 ≤ x)
    (hx' : x < (scores.blockSpan c).2)
    (hmissing : ¬ Covers (spans ++ added.map scores.blockSpan) x) : g < f ∨ f = g ∧ b < c := by
  have hsorted := ranked_sorted scores.scores
  rw [h.split] at hsorted
  obtain ⟨m, hm, rfl⟩ := List.mem_map.mp (h.only b hadded)
  have hranked : m ∈ ranked scores.scores := h.split ▸ List.mem_append_left back hm
  have hf : m.2 = f := Option.some.inj ((mem_ranked.mp hranked).symm.trans hb)
  have hnot : (c, g) ∉ front := fun hin => hmissing (h.covered (c, g) hin x hx hx')
  have hback : (c, g) ∈ back := by
    have hin : (c, g) ∈ ranked scores.scores := mem_ranked.mpr hc
    rw [h.split] at hin
    exact (List.mem_append.mp hin).resolve_left hnot
  obtain hlt | ⟨heq, hle⟩ := (List.pairwise_append.mp hsorted).2.2 m hm (c, g) hback
  · exact Or.inl (hf ▸ hlt)
  · refine Or.inr ⟨hf ▸ heq, lt_of_le_of_ne hle fun hsame => hnot ?_⟩
    have hmc : m = (c, g) := Prod.ext hsame heq
    exact hmc ▸ hm

private theorem selected_blocks (htarget : targetKept ≤ scores.sourceTokens)
    (hmore : scores.anchorCount sinkTokens recentTokens mustKeepSpans < targetKept) {added : List ℕ} {front back : List (ℕ × F)}
    (h : Filled scores targetKept (ranked scores.scores) (scores.anchors sinkTokens recentTokens mustKeepSpans) added front back) :
    Selected scores sinkTokens recentTokens targetKept mustKeepSpans
      (coalesce (scores.anchors sinkTokens recentTokens mustKeepSpans ++ added.map scores.blockSpan)) added := by
  have hcovers := coalesce_covers (scores.anchors sinkTokens recentTokens mustKeepSpans ++ added.map scores.blockSpan)
  have hcovered := covered_congr (n := scores.sourceTokens) hcovers
  refine ⟨?_, coalesce_gapped _, ?_, ?_, ?_, ?_⟩
  · apply coalesce_all fit_join
    intro s hs
    obtain hs | hs := List.mem_append.mp hs
    · exact scores.anchors_fit _ _ _ s hs
    · obtain ⟨b, hb, rfl⟩ := List.mem_map.mp hs
      obtain ⟨m, hm, rfl⟩ := List.mem_map.mp (h.only b hb)
      have hranked : m ∈ ranked scores.scores := h.split ▸ List.mem_append_left back hm
      obtain ⟨hlt, -⟩ := List.getElem?_eq_some_iff.mp (mem_ranked.mp hranked)
      exact blockSpan_fit hlt
  · intro x hx
    exact (hcovers x).mpr (covers_append.mpr (Or.inl ((scores.anchors_covers _ _ _ x).mpr hx)))
  · exact fun hmet => absurd hmet (Nat.not_le.mpr hmore)
  · intro _
    rw [hcovered]
    refine ⟨h.met.elim (fun hnil => ?_) id, h.below⟩
    -- all blocks were looked at: every token is covered
    have hall : covered scores.sourceTokens (scores.anchors sinkTokens recentTokens mustKeepSpans ++ added.map scores.blockSpan) =
        Finset.range scores.sourceTokens := by
      apply Finset.filter_true_of_mem
      intro x hx
      obtain ⟨b, hb, hstart, hstop⟩ := exists_block (Finset.mem_range.mp hx)
      have hin : (b, scores.scores.get ⟨b, hb⟩) ∈ ranked scores.scores := mem_ranked.mpr (List.getElem?_eq_getElem hb)
      rw [h.split, hnil, List.append_nil] at hin
      exact h.covered _ hin x hstart hstop
    rw [hall, Finset.card_range]
    exact htarget
  · rintro b f c g hb hc hadded ⟨x, hx, hx', hmissing⟩
    exact scores.filled_ranks h hb hc hadded hx hx' fun hcov => hmissing ((hcovers x).mpr hcov)

theorem select_selected (htarget : targetKept ≤ scores.sourceTokens) :
    Selected scores sinkTokens recentTokens targetKept mustKeepSpans
      (scores.selectSpans sinkTokens recentTokens targetKept mustKeepSpans)
      (scores.addedBlocks sinkTokens recentTokens targetKept mustKeepSpans) := by
  rw [selectSpans, addedBlocks, anchored_eq]
  by_cases hwhole : scores.sourceTokens ≤ targetKept
  · rw [if_pos hwhole, if_pos (Or.inl hwhole)]
    exact scores.selected_whole _ _ _ _ (le_antisymm htarget hwhole)
  by_cases hmet : targetKept ≤ scores.anchorCount sinkTokens recentTokens mustKeepSpans
  · rw [if_neg hwhole, if_pos hmet, if_pos (Or.inr hmet)]
    exact scores.selected_anchors _ _ _ _ hmet
  · rw [if_neg hwhole, if_neg hmet, if_neg (not_or.mpr ⟨hwhole, hmet⟩)]
    have hmore := not_le.mp hmet
    have hcounted : Counted scores _ targetKept _ _ _ :=
      ranked_counted scores (scores.anchors_gapped sinkTokens recentTokens mustKeepSpans)
        ((scores.covered_anchors _ _ _).le.trans hmore.le)
    rw [covered_anchors] at hcounted
    obtain ⟨front, back, hfilled⟩ := addBlocks_filled hcounted
    exact scores.selected_blocks _ _ _ _ htarget hmore hfilled

end Select
end BlockScores

section Emit
variable {n : ℕ} {sourceTokens : List ℕ} {spans : List (ℕ × ℕ)}

theorem emitCompressed_eq (h : Gapped spans) (hfit : ∀ s ∈ spans, s.1 < s.2 ∧ s.2 ≤ sourceTokens.length) :
    emitCompressed sourceTokens spans = itemsAt (fun x => decide (Covers spans x)) 0 sourceTokens := by
  rw [← gather_eq h (fun s hs => (hfit s hs).1) fun s hs => (hfit s hs).2]
  apply List.flatMap_congr
  intro s hs
  obtain ⟨hlt, hle⟩ := hfit s hs
  dsimp only
  rw [min_eq_left hle, min_eq_left (hlt.le.trans hle), if_pos hlt]

end Emit

/-- Prompt compression keeps what it must and at most a block too much, and the compressed source
is the subsequence of the tokens at the covered positions. -/
theorem compression_keeps {F : Type} [LinearOrder F] (scores : BlockScores F) (sinkTokens recentTokens targetKept : ℕ)
    (mustKeepSpans : List (ℕ × ℕ)) (htarget : targetKept ≤ scores.sourceTokens) :
    let spans := scores.selectSpans sinkTokens recentTokens targetKept mustKeepSpans
    scores.Selected sinkTokens recentTokens targetKept mustKeepSpans spans
        (scores.addedBlocks sinkTokens recentTokens targetKept mustKeepSpans) ∧
      ∀ sourceTokens : List ℕ, sourceTokens.length = scores.sourceTokens →
        emitCompressed sourceTokens spans = itemsAt (fun x => decide (Covers spans x)) 0 sourceTokens := by
  have hselected := scores.select_selected sinkTokens recentTokens targetKept mustKeepSpans htarget
  refine ⟨hselected, fun sourceTokens hlength => emitCompressed_eq hselected.gapped fun s hs => ?_⟩
  rw [hlength]
  exact hselected.fit s hs

/-- Five blocks, the last one short. -/
def raggedScores : BlockScores ℕ where
  scores := [1, 5, 2, 5, 9]
  blockSize := 4
  sourceTokens := 18
  blockSize_pos := by decide
  sourceTokens_pos := by decide
  scores_length := by decide

/-- An anchor that straddles two blocks, and one that is inverted. -/
theorem compression_keeps_ragged :
    let spans := raggedScores.selectSpans 1 0 9 [(6, 9), (30, 2)]
    Gapped spans ∧ (covered 18 spans).card < 9 + 4 ∧
      emitCompressed (List.range 18) spans = itemsAt (fun x => decide (Covers spans x)) 0 (List.range 18) := by
  obtain ⟨hselected, hemit⟩ := compression_keeps raggedScores 1 0 9 [(6, 9), (30, 2)] (by decide)
  exact ⟨hselected.gapped, (hselected.budget (by decide)).2, hemit (List.range 18) rfl⟩

end Hipscope.Pflash
