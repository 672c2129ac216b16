import Hipscope.Floats.Single
import Hipscope.Kv.SlotTiles
import Hipscope.Lists.Traverse
import Mathlib.Data.List.Perm.Lattice

/-! Folding a key-value cache down to a budget of slots: the core keeps single positions, the other slots each merge
a group of them. The numbers of a type `F` stand for single-precision ones. -/
namespace Hipscope.Cask
open Floats

/-- The arithmetic of single-precision numbers that a fold uses. -/
structure Arithmetic (F : Type) where
  zero : F
  one : F
  negInf : F
  add : F → F → F
  sub : F → F → F
  mul : F → F → F
  div : F → F → F
  max : F → F → F
  exp : F → F
  lt : F → F → Bool
  ofU32 : UInt32 → F
  ofI8 : Int8 → F
  /-- `f16_to_f32` of the two bytes of a half-precision number. -/
  ofF16 : UInt8 → UInt8 → F
  toU32 : F → UInt32

inductive KTier where
  | f32
  | q8
  | hfq4
  | q4
  | int8c
  | hfq8
  | asym4 (fwht : Bool)
  | asym3 (fwht : Bool)
  | asym2 (fwht : Bool)
  deriving DecidableEq, Repr

def KTier.isQ8 (tier : KTier) : Bool := tier == .q8

def maxFoldM : ℕ := 8

/-- The policy, with what it uses of the eviction context. -/
structure CaskCtx where
  budget : ℕ
  beta : ℕ
  nKvHeads : ℕ
  headDim : ℕ
  coreFrac : ℚ
  foldM : ℕ
  deriving DecidableEq, Repr

/-- A core fraction outside the unit interval, or a fold of fewer than two, fails an assertion. -/
def CaskCtx.new (budget beta nKvHeads headDim : ℕ) (coreFrac : ℚ) (foldM : ℕ) : Option CaskCtx :=
  if (0 ≤ coreFrac ∧ coreFrac ≤ 1) ∧ 2 ≤ foldM then some ⟨budget, beta, nKvHeads, headDim, coreFrac, foldM⟩ else none

def subUsize (x y : ℕ) : Option ℕ := if y ≤ x then some (x - y) else none

/-- `(budget as f32 * core_frac).floor() as usize`. -/
def CaskCtx.targetCore (c : CaskCtx) : ℕ := min ⌊roundSingle (roundSingle c.budget * c.coreFrac)⌋.toNat (2 ^ 64 - 1)

/-- No more merge slots than the positions past the budget allow. -/
def CaskCtx.mergeSlots (c : CaskCtx) (targetMerge physical : ℕ) : Option ℕ :=
  if c.foldM > 1 ∧ physical > c.budget then do
    let surplus ← subUsize physical c.budget
    let foldMore ← subUsize c.foldM 1
    let maxByInput := surplus / foldMore
    return min targetMerge maxByInput
  else some 0

/-- The numbers of core slots and of merge slots. -/
def CaskCtx.slots (c : CaskCtx) (physical : ℕ) : Option (ℕ × ℕ) := do
  let targetMerge ← subUsize c.budget c.targetCore
  let mergeSlots ← c.mergeSlots targetMerge physical
  let coreSlots ← subUsize c.budget mergeSlots
  return (coreSlots, mergeSlots)

/-- `&xs[start..stop]`. -/
def slice {α : Type} (xs : List α) (start stop : ℕ) : Option (List α) :=
  if start ≤ stop ∧ stop ≤ xs.length then some ((xs.drop start).take (stop - start)) else none

/-- `xs[i] = x`. -/
def store {α : Type} (xs : List α) (i : ℕ) (x : α) : Option (List α) := if i < xs.length then some (xs.set i x) else none

section Fold
variable {F : Type} (a : Arithmetic F)

def softmax (xs : List F) : List F :=
  let max := xs.foldl a.max a.negInf
  let exps := xs.map fun x => a.exp (a.sub x max)
  let sum := exps.foldl a.add a.zero
  exps.map fun e => a.div e sum

/-- The numbers of a quantised row: blocks of a scale and 32 bytes. -/
def dequantQ8Row (row : List UInt8) (nKv headDim : ℕ) : Option (List F) :=
  let nBlocks := headDim / 32
  (List.range nKv).foldlM (fun out h =>
    (List.range nBlocks).foldlM (fun out b => do
      let blockOff := (h * nBlocks + b) * 34
      let scale := a.ofF16 (← row[blockOff]?) (← row[blockOff + 1]?)
      (List.range 32).foldlM (fun out q => do
        let v ← row[blockOff + 2 + q]?
        store out (h * headDim + b * 32 + q) (a.mul scale (a.ofI8 v.toInt8))) out) out)
    (List.replicate (nKv * headDim) a.zero)

/-- The squared distance of two rows. -/
def distance (x y : List F) : F := (x.zip y).foldl (fun sum p => a.add sum (a.mul (a.sub p.1 p.2) (a.sub p.1 p.2))) a.zero

/-- The comparison is a strict order of the numbers in which incomparable ones are alike. -/
def OrderedOn (lt : F → F → Bool) (xs : List F) : Prop :=
  (∀ x ∈ xs, ∀ y ∈ xs, lt x y → ¬ lt y x) ∧ ∀ x ∈ xs, ∀ y ∈ xs, ∀ z ∈ xs, lt x z → lt x y ∨ lt y z

instance (lt : F → F → Bool) (xs : List F) : Decidable (OrderedOn lt xs) := inferInstanceAs (Decidable (_ ∧ _))

/-- `sort_by` with `partial_cmp` or else `Equal`: stable where that is an order of the keys, and it may panic elsewhere,
as it may where one of them is no number. -/
def sortBy (lt : F → F → Bool) (cands : List (F × ℕ)) : Option (List (F × ℕ)) :=
  if OrderedOn lt (cands.map Prod.fst) then some (cands.mergeSort fun x y => !lt y.1 x.1) else none

/-- One anchor: if it is free and groups are missing, it takes the nearest free rows. -/
def groupAnchor (feats : List (List F)) (n m : ℕ) (state : List Bool × List (List ℕ)) (anchor : ℕ) :
    Option (List Bool × List (List ℕ)) := do
  let (used, groups) := state
  if (← used[anchor]?) || groups.length == n / m then return (used, groups)
  let used ← store used anchor true
  let anchorFeat ← feats[anchor]?
  let free ← (List.range n).filterM fun j => do return !(← used[j]?)
  let cands ← free.mapM fun j => do return (distance a anchorFeat (← feats[j]?), j)
  let sorted ← sortBy a.lt cands
  let near := (sorted.take (m - 1)).map Prod.snd
  let used ← near.foldlM (fun used j => store used j true) used
  let group := anchor :: near
  return (used, if group.length == m then groups ++ [group] else groups)

/-- The numbers of the row of a position. -/
def rowFeat (kAll : List UInt8) (nKv headDim : ℕ) (pos : UInt32) : Option (List F) := do
  let rowBytes := nKv * (headDim / 32) * 34
  dequantQ8Row a (← slice kAll (pos.toNat * rowBytes) ((pos.toNat + 1) * rowBytes)) nKv headDim

/-- Groups of `m` of the scratch positions, by the rows' distance; a group of none fails in the division. -/
def greedyGroupByL2 (kAll : List UInt8) (scratchIdx : List UInt32) (nKv headDim m : ℕ) : Option (List (List ℕ)) := do
  let n := scratchIdx.length
  let feats ← scratchIdx.mapM (rowFeat a kAll nKv headDim)
  if m = 0 then none
  else
    let (_, groups) ← (List.range n).foldlM (groupAnchor a feats n m) (List.replicate n false, [])
    return groups

/-- Consecutive groups of `m`. -/
def rankGroups (n m : ℕ) : List (List ℕ) :=
  ((List.range n).filter fun start => start % m == 0 && decide (start + m ≤ n)).map fun start => List.range' start m

/-- The table entries of a slot, of a fixed number. -/
abbrev Slot (F : Type) := List (UInt32 × F)

/-- A core slot: its position once with weight, and in the entries past it without. -/
def coreSlot (foldM : ℕ) (pos : UInt32) : Option (Slot F) :=
  if 1 ≤ foldM ∧ foldM ≤ maxFoldM then
    some ((pos, a.one) :: List.replicate (foldM - 1) (pos, a.zero) ++ List.replicate (maxFoldM - foldM) (0, a.zero))
  else none

def mergeSlot (foldM : ℕ) (positions : List UInt32) (weights : List F) : Option (Slot F) :=
  (List.range foldM).foldlM (fun slot i => do store slot i (← positions[i]?, ← weights[i]?))
    (List.replicate maxFoldM (0, a.zero))

/-- The slot of a group, under the weighted mean of its positions. -/
def mergeEntry (foldM : ℕ) (scratchIdx : List UInt32) (scratchScores : List F) (group : List ℕ) :
    Option (UInt32 × Slot F) := do
  let absPositions ← group.mapM fun gi => scratchIdx[gi]?
  let rawScores ← group.mapM fun gi => scratchScores[gi]?
  let weights := softmax a rawScores
  let centroid := (absPositions.zip weights).foldl (fun sum p => a.add sum (a.mul (a.ofU32 p.1) p.2)) a.zero
  return (a.toU32 centroid, ← mergeSlot a foldM absPositions weights)

/-- Groups by distance where the rows can be read, by rank elsewhere. -/
def CaskCtx.scratchGroups (c : CaskCtx) (tier : KTier) (kAll : List UInt8) (scratchIdx : List UInt32) :
    Option (List (List ℕ)) :=
  if tier.isQ8 then greedyGroupByL2 a kAll scratchIdx c.nKvHeads c.headDim c.foldM
  else some (rankGroups scratchIdx.length c.foldM)

def CaskCtx.mergeEntries (c : CaskCtx) (tier : KTier) (kAll : List UInt8) (mergeSlots : ℕ) (scratchIdx : List UInt32)
    (scratchScores : List F) : Option (List (UInt32 × Slot F)) :=
  if mergeSlots > 0 then do
    let groups ← c.scratchGroups a tier kAll scratchIdx
    groups.mapM (mergeEntry a c.foldM scratchIdx scratchScores)
  else some []

/-- The positions by falling score, those of one score in order. -/
def rank (agg : List F) : List (F × ℕ) := agg.zipIdx.mergeSort fun x y => !a.lt x.1 y.1

/-- The positions and weights of every slot, for a ranking of the positions. -/
def CaskCtx.layerTable (c : CaskCtx) (tier : KTier) (physical : ℕ) (ranked : List (F × ℕ)) (kAll : List UInt8) :
    Option (List ℤ × List F) := do
  let (coreSlots, mergeSlots) ← c.slots physical
  let mergePool := mergeSlots * c.foldM
  let coreRanked ← slice ranked 0 coreSlots
  let scratchRanked ← slice ranked coreSlots (coreSlots + mergePool)
  let coreIdx := coreRanked.map fun p => UInt32.ofNat p.2
  let scratchIdx := scratchRanked.map fun p => UInt32.ofNat p.2
  let scratchScores := scratchRanked.map Prod.fst
  let coreEntries ← coreIdx.mapM fun pos => do return (pos, ← coreSlot a c.foldM pos)
  let mergeEntries ← c.mergeEntries a tier kAll mergeSlots scratchIdx scratchScores
  let entries := (coreEntries ++ mergeEntries).mergeSort fun x y => decide (x.1 ≤ y.1)
  let flat ← entries.mapM fun entry => (List.range c.foldM).mapM fun i => entry.2[i]?
  return (flat.flatten.map fun p => Kv.asI32 p.1.toNat, flat.flatten.map Prod.snd)

end Fold
end Hipscope.Cask

/-! Both ways to group the scratch positions split them into groups of the fold factor. -/
namespace Hipscope.Cask
open Hipscope.Lists

/-- Disjoint groups of `m` that cover the numbers below `n`. -/
structure Splits (n m : ℕ) (groups : List (List ℕ)) : Prop where
  cover : groups.flatten.Perm (List.range n)
  size : ∀ g ∈ groups, g.length = m

section Splits
variable {n m k : ℕ} {groups : List (List ℕ)}

theorem Splits.length (hm : 0 < m) (h : Splits (k * m) m groups) : groups.length = k := by
  have hlength := h.cover.length_eq
  rw [length_flatten_of_size h.size, List.length_range] at hlength
  exact Nat.eq_of_mul_eq_mul_right hm hlength

private theorem range_mul_succ (k m : ℕ) : List.range ((k + 1) * m) = List.range (k * m) ++ List.range' (k * m) m := by
  rw [Nat.succ_mul, List.range_add, List.range'_eq_map_range]

private theorem filter_multiples (hm : 0 < m) (k : ℕ) :
    ((List.range (k * m)).filter fun start => start % m == 0) = (List.range k).map (· * m) := by
  induction k with
  | zero => rw [Nat.zero_mul]; rfl
  | succ k ih =>
    obtain ⟨w, rfl⟩ := Nat.exists_eq_succ_of_ne_zero hm.ne'
    have hrest : (List.range' (k * (w + 1) + 1) w).filter (fun start => start % (w + 1) == 0) = [] := by
      apply List.filter_eq_nil_iff.mpr
      intro start hstart hmod
      obtain ⟨i, hi, rfl⟩ := List.mem_range'.mp hstart
      have hsum : k * (w + 1) + 1 + 1 * i = (1 + i) + (w + 1) * k := by rw [Nat.mul_comm k]; omega
      rw [hsum, Nat.add_mul_mod_self_left, Nat.mod_eq_of_lt (by omega)] at hmod
      exact absurd (beq_iff_eq.mp hmod) (by omega)
    rw [range_mul_succ, List.filter_append, ih, List.range_succ, List.map_append, List.range'_succ,
      List.filter_cons_of_pos (by rw [Nat.mul_mod_left]; rfl), hrest]
    rfl

/-- Consecutive groups split a multiple of their size. -/
theorem rankGroups_splits (hm : 0 < m) (k : ℕ) : Splits (k * m) m (rankGroups (k * m) m) := by
  have hstarts : (List.range (k * m)).filter (fun start => start % m == 0 && decide (start + m ≤ k * m)) =
      (List.range (k * m)).filter fun start => start % m == 0 := by
    apply List.filter_congr
    intro start hstart
    by_cases hmod : start % m = 0
    · obtain ⟨q, rfl⟩ := Nat.dvd_of_mod_eq_zero hmod
      have hlt : q < k := by
        rw [List.mem_range, Nat.mul_comm k] at hstart
        exact Nat.lt_of_mul_lt_mul_left hstart
      have hfits : m * q + m ≤ k * m := by
        rw [← Nat.mul_succ, Nat.mul_comm k]
        exact Nat.mul_le_mul_left m hlt
      rw [decide_eq_true hfits, Bool.and_true]
    · rw [beq_false_of_ne hmod, Bool.false_and]
  rw [rankGroups, hstarts, filter_multiples hm, List.map_map]
  refine ⟨?_, ?_⟩
  · have hflat : ((List.range k).map ((fun start => List.range' start m) ∘ (· * m))).flatten = List.range (k * m) := by
      clear hstarts
      induction k with
      | zero => rw [Nat.zero_mul]; rfl
      | succ k ih =>
        rw [List.range_succ, List.map_append, List.flatten_append, ih, range_mul_succ, List.map_singleton,
          List.flatten_singleton]
        rfl
    rw [hflat]
  · intro g hg
    obtain ⟨i, -, rfl⟩ := List.mem_map.mp hg
    exact List.length_range'

end Splits

section Store
variable {α : Type} {xs : List α} {i : ℕ} {x : α}

theorem store_of_lt (h : i < xs.length) : store xs i x = some (xs.set i x) := if_pos h

theorem slice_of_le {start stop : ℕ} (hle : start ≤ stop) (hstop : stop ≤ xs.length) :
    ∃ part, slice xs start stop = some part ∧ part.length = stop - start := by
  refine ⟨_, if_pos ⟨hle, hstop⟩, ?_⟩
  rw [List.length_take, List.length_drop]
  omega

end Store

section Rows
variable {F : Type} (a : Arithmetic F)

/-- A row of whole blocks is read to its end, and every number has its place. -/
theorem dequantQ8Row_some {row : List UInt8} {nKv headDim : ℕ} (hrow : row.length = nKv * (headDim / 32) * 34) :
    ∃ feat, dequantQ8Row a row nKv headDim = some feat := by
  have hinit : (List.replicate (nKv * headDim) a.zero).length = nKv * headDim := List.length_replicate
  suffices hall : ∃ feat, dequantQ8Row a row nKv headDim = some feat ∧ feat.length = nKv * headDim from
    hall.imp fun feat hfeat => hfeat.1
  refine foldlM_range (P := fun _ (out : List F) => out.length = nKv * headDim) (fun h hh out hout => ?_) hinit
  · refine foldlM_range (P := fun _ (out : List F) => out.length = nKv * headDim) (fun b hb out hout => ?_) hout
    have hblock : (h * (headDim / 32) + b) * 34 + 34 ≤ row.length := by
      have hnext : h * (headDim / 32) + b + 1 ≤ nKv * (headDim / 32) := by
        calc
          _ ≤ (h + 1) * (headDim / 32) := by rw [Nat.succ_mul]; omega
          _ ≤ nKv * (headDim / 32) := Nat.mul_le_mul_right _ hh
      rw [hrow]
      omega
    have hhead : h * headDim + headDim ≤ nKv * headDim := by
      rw [← Nat.succ_mul]
      exact Nat.mul_le_mul_right _ hh
    have hdim : b * 32 + 32 ≤ headDim := by
      have hmul := Nat.div_mul_le_self headDim 32
      omega
    simp only [List.getElem?_eq_getElem (show (h * (headDim / 32) + b) * 34 < row.length by omega),
      List.getElem?_eq_getElem (show (h * (headDim / 32) + b) * 34 + 1 < row.length by omega), Option.bind_eq_bind,
      Option.bind_some]
    refine foldlM_range (P := fun _ (out : List F) => out.length = nKv * headDim) (fun q hq out hout => ?_) hout
    rw [List.getElem?_eq_getElem (show (h * (headDim / 32) + b) * 34 + 2 + q < row.length by omega)]
    refine ⟨_, store_of_lt (by omega), ?_⟩
    rw [List.length_set, hout]

end Rows

section Greedy
variable {F : Type} (a : Arithmetic F) {n m k anchor : ℕ} {seen near : List ℕ} {groups : List (List ℕ)}

/-- The flags of the positions that are in a list. -/
def flagged (n : ℕ) (seen : List ℕ) : List Bool := (List.range n).map fun j => decide (j ∈ seen)

theorem flagged_get (h : k < n) (seen : List ℕ) : (flagged n seen)[k]? = some (decide (k ∈ seen)) := by
  rw [flagged, List.getElem?_map, List.getElem?_range h]
  rfl

theorem store_flagged (h : k < n) (seen : List ℕ) : store (flagged n seen) k true = some (flagged n (seen ++ [k])) := by
  have hlength : (flagged n seen).length = n := by rw [flagged, List.length_map, List.length_range]
  rw [store_of_lt (hlength.symm ▸ h)]
  apply congrArg some
  apply List.ext_getElem?
  intro j
  obtain hj | hj := Nat.lt_or_ge j n
  · rw [List.getElem?_set, flagged_get hj, flagged_get hj, hlength]
    by_cases hkj : k = j
    · subst hkj
      rw [if_pos rfl, if_pos h, decide_eq_true (List.mem_append_right _ (List.mem_singleton_self k))]
    · rw [if_neg hkj]
      apply congrArg some
      apply decide_eq_decide.mpr
      rw [List.mem_append, List.mem_singleton, or_iff_left fun heq => hkj heq.symm]
  · rw [List.getElem?_eq_none, List.getElem?_eq_none]
    · rwa [flagged, List.length_map, List.length_range]
    · rwa [List.length_set, hlength]

theorem store_all_flagged (h : ∀ j ∈ near, j < n) :
    near.foldlM (fun used j => store used j true) (flagged n seen) = some (flagged n (seen ++ near)) := by
  induction near generalizing seen with
  | nil => rw [List.append_nil]; rfl
  | cons j near ih =>
    obtain ⟨hj, hnear⟩ := List.forall_mem_cons.mp h
    have hrest : near.foldlM (fun used j => store used j true) (flagged n (seen ++ [j])) =
        some (flagged n (seen ++ [j] ++ near)) := ih hnear
    rw [List.append_assoc, List.singleton_append] at hrest
    rw [List.foldlM_cons, store_flagged hj]
    exact hrest

/-- What is left of the numbers below `n`. -/
theorem length_free (hnodup : seen.Nodup) (hbelow : ∀ j ∈ seen, j < n) :
    seen.length + ((List.range n).filter fun j => !decide (j ∈ seen)).length = n := by
  have hin : ((List.range n).filter fun j => decide (j ∈ seen)).Perm seen := by
    apply (List.perm_ext_iff_of_nodup (List.nodup_range.filter _) hnodup).mpr
    intro j
    rw [List.mem_filter, decide_eq_true_iff, List.mem_range]
    exact ⟨And.right, fun hj => ⟨hbelow j hj, hj⟩⟩
  have hall := (List.filter_append_perm (fun j => decide (j ∈ seen)) (List.range n)).length_eq
  rwa [List.length_append, hin.length_eq, List.length_range] at hall

/-- Groups of `m` different numbers below `n`, flagged, that leave out an anchor only if no group is missing. -/
structure Grouped (n m k : ℕ) (state : List Bool × List (List ℕ)) : Prop where
  flags : state.1 = flagged n state.2.flatten
  nodup : state.2.flatten.Nodup
  below : ∀ j ∈ state.2.flatten, j < n
  size : ∀ g ∈ state.2, g.length = m
  passed : ∀ j < k, j ∈ state.2.flatten ∨ state.2.length = n / m

/-- The numbers below `n` that a list leaves. -/
def left (n : ℕ) (seen : List ℕ) : List ℕ := (List.range n).filter fun j => !decide (j ∈ seen)

/-- An anchor that is in a group, or that no group waits for, is passed. -/
theorem Grouped.pass {state : List Bool × List (List ℕ)} (h : Grouped n m k state)
    (hpass : k ∈ state.2.flatten ∨ state.2.length = n / m) : Grouped n m (k + 1) state := by
  refine ⟨h.flags, h.nodup, h.below, h.size, fun j hj => ?_⟩
  obtain hlt | rfl := Nat.lt_succ_iff_lt_or_eq.mp hj
  · exact h.passed j hlt
  · exact hpass

/-- While a group is missing there is room for one. -/
theorem Grouped.room {state : List Bool × List (List ℕ)} (hm : 0 < m) (h : Grouped n m k state)
    (hmissing : state.2.length ≠ n / m) : (state.2.length + 1) * m ≤ n := by
  have hfew := length_free h.nodup h.below
  rw [length_flatten_of_size h.size] at hfew
  have hle : state.2.length * m ≤ n := by omega
  have hlt := lt_of_le_of_ne ((Nat.le_div_iff_mul_le hm).mpr hle) hmissing
  exact (Nat.mul_le_mul_right m hlt).trans (Nat.div_mul_le_self n m)

/-- A fresh anchor keeps the seen ones apart and below `n`. -/
theorem Grouped.fresh {state : List Bool × List (List ℕ)} (h : Grouped n m k state) (hanchor : k < n)
    (hfresh : k ∉ state.2.flatten) :
    (state.2.flatten ++ [k]).Nodup ∧ ∀ j ∈ state.2.flatten ++ [k], j < n := by
  refine ⟨List.nodup_append.mpr ⟨h.nodup, List.nodup_singleton k, ?_⟩, ?_⟩
  · rintro x hx y hy rfl
    exact hfresh (List.mem_singleton.mp hy ▸ hx)
  · exact List.forall_mem_append.mpr ⟨h.below, List.forall_mem_singleton.mpr hanchor⟩

/-- A fresh anchor with numbers that are left makes a group. -/
theorem Grouped.add {state : List Bool × List (List ℕ)} (h : Grouped n m k state) (hanchor : k < n)
    (hfresh : k ∉ state.2.flatten) (hmissing : state.2.length ≠ n / m)
    (hnear : near.Subperm (left n (state.2.flatten ++ [k]))) (hcount : near.length + 1 = m) :
    Grouped n m (k + 1) (flagged n (state.2.flatten ++ [k] ++ near), state.2 ++ [k :: near]) := by
  obtain ⟨hseen, hbelow⟩ := h.fresh hanchor hfresh
  have hleft : ∀ j ∈ near, j < n ∧ j ∉ state.2.flatten ++ [k] := by
    intro j hj
    obtain ⟨hrange, hnot⟩ := List.mem_filter.mp (hnear.subset hj)
    exact ⟨List.mem_range.mp hrange, fun hin => by simp [hin] at hnot⟩
  have hflat : (state.2 ++ [k :: near]).flatten = state.2.flatten ++ [k] ++ near := by
    rw [List.flatten_append, List.flatten_singleton, List.append_assoc, List.singleton_append]
  refine ⟨congrArg (flagged n) hflat.symm, ?_, ?_, ?_, fun j hj => ?_⟩
  · rw [hflat, List.nodup_append]
    obtain ⟨part, hperm, hpart⟩ := hnear
    refine ⟨hseen, hperm.nodup_iff.mp (hpart.nodup (List.nodup_range.filter _)), ?_⟩
    rintro x hx y hy rfl
    exact (hleft x hy).2 hx
  · rw [hflat]
    exact List.forall_mem_append.mpr ⟨hbelow, fun j hj => (hleft j hj).1⟩
  · exact List.forall_mem_append.mpr ⟨h.size, List.forall_mem_singleton.mpr hcount⟩
  · rw [hflat]
    obtain hlt | rfl := Nat.lt_succ_iff_lt_or_eq.mp hj
    · obtain hin | hfull := h.passed j hlt
      · exact .inl (List.mem_append_left _ (List.mem_append_left _ hin))
      · exact absurd hfull hmissing
    · exact .inl (List.mem_append_left _ (List.mem_append_right _ (List.mem_singleton_self j)))

/-- The numbers with their distances. -/
def candidates (feats : List (List F)) (feat : List F) (js : List ℕ) : List (F × ℕ) :=
  js.map fun j => (distance a feat (feats.getD j []), j)

/-- What a fresh anchor does while a group is missing. -/
theorem groupAnchor_fresh {feats : List (List F)} (hfeats : feats.length = n) (hanchor : anchor < n)
    (hfresh : anchor ∉ seen) (hmissing : groups.length ≠ n / m) :
    groupAnchor a feats n m (flagged n seen, groups) anchor =
      (sortBy a.lt (candidates a feats feats[anchor] (left n (seen ++ [anchor])))).bind fun sorted =>
        (((sorted.take (m - 1)).map Prod.snd).foldlM (fun used j => store used j true)
          (flagged n (seen ++ [anchor]))).bind fun used =>
            some (used, if (anchor :: (sorted.take (m - 1)).map Prod.snd).length == m then
              groups ++ [anchor :: (sorted.take (m - 1)).map Prod.snd] else groups) := by
  have hleft : (List.range n).filterM (fun j => (flagged n (seen ++ [anchor]))[j]?.bind fun used => some !used) =
      some (left n (seen ++ [anchor])) := by
    apply filterM_some
    intro j hj
    rw [flagged_get (List.mem_range.mp hj)]
    rfl
  have hcands : (left n (seen ++ [anchor])).mapM
        (fun j => feats[j]?.bind fun feat => some (distance a feats[anchor] feat, j)) =
      some (candidates a feats feats[anchor] (left n (seen ++ [anchor]))) := by
    apply mapM_some
    intro j hj
    have hlt := List.mem_range.mp (List.mem_filter.mp hj).1
    rw [List.getD_eq_getElem?_getD, List.getElem?_eq_getElem (hfeats.symm ▸ hlt)]
    rfl
  rw [groupAnchor]
  simp only [flagged_get hanchor, Option.bind_eq_bind, Option.bind_some, decide_eq_false hfresh, Bool.false_or,
    beq_eq_false_iff_ne.mpr hmissing, Bool.false_eq_true, if_false, store_flagged hanchor,
    List.getElem?_eq_getElem (hfeats.symm ▸ hanchor), pure, hleft, hcands]

/-- The nearest are some of the numbers that are left, whatever the order of the distances. -/
theorem sorted_near {lt : F → F → Bool} {feats : List (List F)} {feat : List F} {js : List ℕ} {sorted : List (F × ℕ)}
    (h : sortBy lt (candidates a feats feat js) = some sorted) (count : ℕ) :
    ((sorted.take count).map Prod.snd).Subperm js ∧
      ((sorted.take count).map Prod.snd).length = min count js.length := by
  rw [sortBy] at h
  split at h
  · cases h
    have hperm := (List.mergeSort_perm (candidates a feats feat js) fun x y => !lt y.1 x.1).map Prod.snd
    rw [candidates, List.map_map] at hperm
    refine ⟨((List.take_sublist count _).map Prod.snd).subperm.trans (hperm.subperm.trans ?_), ?_⟩
    · exact List.map_id _ ▸ List.Subperm.refl _
    · rw [List.length_map, List.length_take, List.length_mergeSort, candidates, List.length_map]
  · cases h

theorem OrderedOn.mono {lt : F → F → Bool} {xs ys : List F} (h : OrderedOn lt xs) (hsub : ∀ y ∈ ys, y ∈ xs) :
    OrderedOn lt ys :=
  ⟨fun x hx y hy => h.1 x (hsub x hx) y (hsub y hy),
    fun x hx y hy z hz => h.2 x (hsub x hx) y (hsub y hy) z (hsub z hz)⟩

/-- From every one of the rows, the distances to the others are ordered. -/
def OrderedRows (rows : List F → Prop) : Prop :=
  ∀ feat, rows feat → ∀ others : List (List F), (∀ other ∈ others, rows other) →
    OrderedOn a.lt (others.map (distance a feat))

/-- Ordered distances can be sorted. -/
theorem OrderedRows.sort {rows : List F → Prop} (h : OrderedRows a rows) {feats : List (List F)}
    (hfeats : feats.length = n) (hrows : ∀ feat ∈ feats, rows feat) {feat : List F} (hfeat : rows feat) (seen : List ℕ) :
    ∃ sorted, sortBy a.lt (candidates a feats feat (left n seen)) = some sorted := by
  refine ⟨_, if_pos ?_⟩
  rw [candidates, List.map_map]
  have hothers := h feat hfeat ((left n seen).map fun j => feats.getD j []) fun other hother => by
    obtain ⟨j, hj, rfl⟩ := List.mem_map.mp hother
    have hlt := List.mem_range.mp (List.mem_filter.mp hj).1
    rw [List.getD_eq_getElem?_getD, List.getElem?_eq_getElem (hfeats.symm ▸ hlt)]
    exact hrows _ (List.getElem_mem _)
  rwa [List.map_map] at hothers

/-- The turn of one anchor. -/
theorem groupAnchor_grouped (hm : 0 < m) {rows : List F → Prop} (hordered : OrderedRows a rows)
    {feats : List (List F)} (hfeats : feats.length = n) (hrows : ∀ feat ∈ feats, rows feat)
    (hanchor : anchor < n) {state : List Bool × List (List ℕ)} (h : Grouped n m anchor state) :
    ∃ state', groupAnchor a feats n m state anchor = some state' ∧ Grouped n m (anchor + 1) state' := by
  obtain ⟨used, groups⟩ := state
  obtain rfl : used = flagged n groups.flatten := h.flags
  by_cases hpass : anchor ∈ groups.flatten ∨ groups.length = n / m
  · refine ⟨_, ?_, h.pass hpass⟩
    rw [groupAnchor]
    simp only [flagged_get hanchor, Option.bind_eq_bind, Option.bind_some]
    rw [if_pos (by rwa [Bool.or_eq_true, decide_eq_true_iff, beq_iff_eq])]
    rfl
  · obtain ⟨hfresh, hmissing⟩ := not_or.mp hpass
    have hanchorRow := hrows feats[anchor] (List.getElem_mem (hfeats.symm ▸ hanchor))
    obtain ⟨sorted, hsorted⟩ := hordered.sort a hfeats hrows hanchorRow (groups.flatten ++ [anchor])
    obtain ⟨hnear, hlength⟩ := sorted_near a hsorted (m - 1)
    obtain ⟨hseen, hbelow⟩ := h.fresh hanchor hfresh
    have hcount : ((sorted.take (m - 1)).map Prod.snd).length + 1 = m := by
      have hroom : (groups.length + 1) * m ≤ n := h.room hm hmissing
      have hleft : (groups.flatten ++ [anchor]).length + (left n (groups.flatten ++ [anchor])).length = n :=
        length_free hseen hbelow
      have hsize : ∀ g ∈ groups, g.length = m := h.size
      rw [List.length_append, List.length_singleton, length_flatten_of_size hsize] at hleft
      rw [Nat.succ_mul] at hroom
      omega
    refine ⟨_, ?_, h.add hanchor hfresh hmissing hnear hcount⟩
    rw [groupAnchor_fresh a hfeats hanchor hfresh hmissing, hsorted, Option.bind_some,
      store_all_flagged fun j hj => List.mem_range.mp (List.mem_filter.mp (hnear.subset hj)).1, Option.bind_some,
      if_pos (beq_iff_eq.mpr (by rw [List.length_cons, hcount]))]

/-- In the end the groups split the numbers. -/
theorem Grouped.splits {state : List Bool × List (List ℕ)} (hdvd : m ∣ n) (h : Grouped n m n state) :
    Splits n m state.2 := by
  refine ⟨?_, h.size⟩
  have hsub := h.nodup.subperm fun j hj => List.mem_range.mpr (h.below j hj)
  by_cases hfull : state.2.length = n / m
  · apply hsub.perm_of_length_le
    rw [length_flatten_of_size h.size, hfull, Nat.div_mul_cancel hdvd, List.length_range]
  · apply (List.perm_ext_iff_of_nodup h.nodup List.nodup_range).mpr
    intro j
    rw [List.mem_range]
    exact ⟨h.below j, fun hj => (h.passed j hj).resolve_right hfull⟩

/-- The rows that can be read from the buffer. -/
def RowOf (kAll : List UInt8) (nKv headDim : ℕ) (feat : List F) : Prop := ∃ pos, rowFeat a kAll nKv headDim pos = some feat

variable {kAll : List UInt8} {scratchIdx : List UInt32} {nKv headDim : ℕ}

/-- A row inside the buffer can be read. -/
theorem rowFeat_some {pos : UInt32} (h : (pos.toNat + 1) * (nKv * (headDim / 32) * 34) ≤ kAll.length) :
    ∃ feat, rowFeat a kAll nKv headDim pos = some feat := by
  obtain ⟨row, hrow, hlength⟩ := slice_of_le (Nat.mul_le_mul_right _ (Nat.le_succ pos.toNat)) h
  rw [Nat.succ_mul, Nat.add_sub_cancel_left] at hlength
  obtain ⟨feat, hfeat⟩ := dequantQ8Row_some a hlength
  refine ⟨feat, ?_⟩
  change (slice kAll _ _).bind _ = _
  rw [hrow]
  exact hfeat

/-- A row that can be read is inside the buffer. -/
theorem rowFeat_inside {pos : UInt32} {feat : List F} (h : rowFeat a kAll nKv headDim pos = some feat) :
    (pos.toNat + 1) * (nKv * (headDim / 32) * 34) ≤ kAll.length := by
  obtain ⟨row, hrow, -⟩ := Option.bind_eq_some_iff.mp h
  rw [slice] at hrow
  split at hrow
  · next hle => exact hle.2
  · cases hrow

theorem grouped_start (n m : ℕ) : Grouped n m 0 (List.replicate n false, []) := by
  refine ⟨?_, List.nodup_nil, fun j hj => absurd hj List.not_mem_nil, fun g hg => absurd hg List.not_mem_nil,
    fun j hj => absurd hj (Nat.not_lt_zero j)⟩
  have hnone : flagged n [] = (List.range n).map fun _ => false :=
    List.map_congr_left fun j _ => decide_eq_false List.not_mem_nil
  change List.replicate n false = flagged n []
  rw [hnone, List.map_const', List.length_range]

/-- The grouping, once the rows are read. -/
theorem greedyGroupByL2_eq (hm : 0 < m) {feats : List (List F)}
    (hfeats : scratchIdx.mapM (rowFeat a kAll nKv headDim) = some feats) :
    greedyGroupByL2 a kAll scratchIdx nKv headDim m =
      ((List.range scratchIdx.length).foldlM (groupAnchor a feats scratchIdx.length m)
        (List.replicate scratchIdx.length false, [])).bind fun state => some state.2 := by
  rw [greedyGroupByL2, hfeats]
  change (if m = 0 then none else _) = _
  rw [if_neg hm.ne']
  rfl

/-- Rows inside the buffer are split into groups, if their distances are ordered. -/
theorem greedyGroupByL2_splits (hm : 0 < m) (hordered : OrderedRows a (RowOf a kAll nKv headDim))
    (hdvd : m ∣ scratchIdx.length)
    (hrows : ∀ pos ∈ scratchIdx, (pos.toNat + 1) * (nKv * (headDim / 32) * 34) ≤ kAll.length) :
    ∃ groups, greedyGroupByL2 a kAll scratchIdx nKv headDim m = some groups ∧ Splits scratchIdx.length m groups := by
  have hread : ∀ pos ∈ scratchIdx, ∃ feat, rowFeat a kAll nKv headDim pos = some feat ∧ RowOf a kAll nKv headDim feat :=
    fun pos hpos => (rowFeat_some a (hrows pos hpos)).imp fun feat hfeat => ⟨hfeat, pos, hfeat⟩
  obtain ⟨feats, hall, hcount, hfeats⟩ := mapM_all scratchIdx hread
  obtain ⟨state, hrun, hgrouped⟩ := foldlM_range (P := Grouped scratchIdx.length m)
    (fun anchor hanchor state h => groupAnchor_grouped a hm hordered hcount hfeats hanchor h)
    (grouped_start scratchIdx.length m)
  refine ⟨state.2, ?_, hgrouped.splits hdvd⟩
  rw [greedyGroupByL2_eq a hm hall, hrun, Option.bind_some]

/-- A grouping that ends has sorted the distances of its first anchor to all the others. -/
theorem ordered_of_greedyGroupByL2 (hm : 2 ≤ m) {anchorPos : UInt32} (hdvd : m ∣ (anchorPos :: scratchIdx).length)
    {feat : List F} {others : List (List F)} (hfeat : rowFeat a kAll nKv headDim anchorPos = some feat)
    (hothers : scratchIdx.mapM (rowFeat a kAll nKv headDim) = some others) {groups : List (List ℕ)}
    (h : greedyGroupByL2 a kAll (anchorPos :: scratchIdx) nKv headDim m = some groups) :
    OrderedOn a.lt (others.map (distance a feat)) := by
  have hall : (anchorPos :: scratchIdx).mapM (rowFeat a kAll nKv headDim) = some (feat :: others) := by
    rw [List.mapM_cons, hfeat, hothers]
    rfl
  have hlength : (feat :: others).length = (anchorPos :: scratchIdx).length :=
    (mapM_forall₂_some hall).length_eq.symm
  rw [greedyGroupByL2_eq a (by omega) hall] at h
  generalize hn : (anchorPos :: scratchIdx).length = n at h hlength hdvd
  have hpos : 0 < n := hn ▸ Nat.succ_pos _
  have hsome : n / m ≠ 0 := (Nat.div_pos (Nat.le_of_dvd hpos hdvd) (by omega)).ne'
  obtain ⟨w, rfl⟩ := Nat.exists_eq_succ_of_ne_zero hpos.ne'
  obtain ⟨state, hrun, -⟩ := Option.bind_eq_some_iff.mp h
  rw [List.range_succ_eq_map, List.foldlM_cons] at hrun
  obtain ⟨first, hfirst, -⟩ := Option.bind_eq_some_iff.mp hrun
  have hflags : List.replicate (w + 1) false = flagged (w + 1) [] := (grouped_start (w + 1) m).flags
  rw [hflags, groupAnchor_fresh a hlength hpos List.not_mem_nil (by simpa using hsome.symm)] at hfirst
  obtain ⟨sorted, hsorted, -⟩ := Option.bind_eq_some_iff.mp hfirst
  rw [sortBy] at hsorted
  split at hsorted
  · next hordered =>
    refine hordered.mono fun x hx => ?_
    obtain ⟨other, hother, rfl⟩ := List.mem_map.mp hx
    obtain ⟨i, hi, rfl⟩ := List.mem_iff_getElem.mp hother
    rw [List.length_cons] at hlength
    refine List.mem_map.mpr ⟨_, List.mem_map_of_mem (a := i + 1) (List.mem_filter.mpr ⟨?_, ?_⟩), ?_⟩
    · exact List.mem_range.mpr (by omega)
    · simp
    · change distance a feat ((feat :: others).getD (i + 1) []) = _
      rw [List.getD_eq_getElem?_getD, List.getElem?_cons_succ, List.getElem?_eq_getElem hi]
      rfl
  · cases hsorted

end Greedy
end Hipscope.Cask
