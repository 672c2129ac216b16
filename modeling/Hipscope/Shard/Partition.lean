import Hipscope.Lists.Traverse
import Hipscope.Spans.Tiling
import Mathlib.Data.Nat.Notation
import Mathlib.Data.Int.CardIntervalMod
import Mathlib.Tactic.Ring

/-! How one model copy is split over tensor-parallel ranks. -/
namespace Hipscope.Shard

inductive ExpertAssign where
  | contiguous
  | stride
  deriving DecidableEq, Repr

structure ShardConfig where
  tpSize : ℕ
  tpKvReplicate : Bool
  /-- The owning rank of each expert, one byte each. -/
  expertToRank : List UInt8
  deriving DecidableEq, Repr

/-- `usize` multiplication as it wraps. -/
def wrappingMul (a b : ℕ) : ℕ := a * b % 2 ^ 64

/-- The span of a rank when the first ranks take one unit more than the others. -/
def balancedSpan (rank parts total : ℕ) : ℕ × ℕ :=
  let base := total / parts
  let remainder := total % parts
  let start := rank * base + min rank remainder
  let len := base + if rank < remainder then 1 else 0
  (start, start + len)

/-- Without a part, or for a rank past the parts, an assertion fails. -/
def balancedRange (rank parts total : ℕ) : Option (ℕ × ℕ) :=
  if 0 < parts ∧ rank < parts then some (balancedSpan rank parts total) else none

/-- The rank that gets an expert, before it is stored as a byte. -/
def assignRank (tpSize nExperts : ℕ) (assign : ExpertAssign) (e : ℕ) : Except String ℕ :=
  match assign with
  | .contiguous =>
    match (List.range tpSize).find? fun rank =>
        (balancedRange rank tpSize nExperts).any fun s => decide (s.1 ≤ e ∧ e < s.2) with
    | some rank => .ok rank
    | none => .error "balanced expert ranges cover every expert"
  | .stride => .ok (e % tpSize)

namespace ShardConfig

def build (tpSize : ℕ) (tpKvReplicate : Bool) (nExperts : ℕ) (assign : ExpertAssign) (allowUnevenExperts : Bool) :
    Except String ShardConfig :=
  if tpSize = 0 then .error "ShardConfig: tp_size must be >= 1"
  else if nExperts = 0 then .ok ⟨tpSize, tpKvReplicate, []⟩
  else if allowUnevenExperts = false ∧ nExperts % tpSize ≠ 0 then
    .error s!"ShardConfig: n_experts ({nExperts}) not divisible by tp_size ({tpSize}); use an explicitly admitted uneven-expert route"
  else do
    let expertToRank ← (List.range nExperts).mapM fun e => do
      let rank ← assignRank tpSize nExperts assign e
      -- `rank as u8`
      return UInt8.ofNat rank
    return ⟨tpSize, tpKvReplicate, expertToRank⟩

def new (tpSize : ℕ) (tpKvReplicate : Bool) (nExperts : ℕ) (assign : ExpertAssign) : Except String ShardConfig :=
  build tpSize tpKvReplicate nExperts assign false

def newUnevenExperts (tpSize : ℕ) (tpKvReplicate : Bool) (nExperts : ℕ) (assign : ExpertAssign) :
    Except String ShardConfig :=
  build tpSize tpKvReplicate nExperts assign true

def validate (s : ShardConfig) (nHeads nKvHeads : ℕ) : Except String Unit :=
  let tpSize := s.tpSize
  if nHeads % tpSize ≠ 0 then
    .error s!"ShardConfig::validate: n_heads ({nHeads}) not divisible by tp_size ({tpSize})"
  else if s.tpKvReplicate = false ∧ (nKvHeads = 0 ∨ nKvHeads % tpSize ≠ 0) then
    .error s!"ShardConfig::validate: n_kv_heads ({nKvHeads}) not divisible by tp_size ({tpSize}) and tp_kv_replicate=false — set tp_kv_replicate=true (default on a 4-card box) or pick a tp_size that divides n_kv_heads"
  else .ok ()

def qHeadsPerRank (s : ShardConfig) (nHeads : ℕ) : ℕ := nHeads / s.tpSize

def qHeadRange (s : ShardConfig) (rank nHeads : ℕ) : ℕ × ℕ :=
  let hpr := s.qHeadsPerRank nHeads
  (rank * hpr, (rank + 1) * hpr)

def kvHeadRange (s : ShardConfig) (rank nKvHeads : ℕ) : ℕ × ℕ :=
  if s.tpKvReplicate then (0, nKvHeads)
  else
    let kpr := nKvHeads / s.tpSize
    (rank * kpr, (rank + 1) * kpr)

/-- The most experts that a rank is to own. -/
def expertsPerRank (s : ShardConfig) (nExperts : ℕ) : ℕ :=
  if s.expertToRank.isEmpty then nExperts
  else nExperts / s.tpSize + if 0 < nExperts % s.tpSize then 1 else 0

/-- The rows of `wq`: for each head its query rows and its gate rows. -/
def wqRowRange (s : ShardConfig) (rank nHeads headDim : ℕ) : ℕ × ℕ :=
  let hpr := s.qHeadsPerRank nHeads
  let block := wrappingMul 2 headDim
  (wrappingMul (wrappingMul rank hpr) block, wrappingMul (wrappingMul (rank + 1) hpr) block)

def woColRange (s : ShardConfig) (rank nHeads headDim : ℕ) : ℕ × ℕ :=
  let hpr := s.qHeadsPerRank nHeads
  (wrappingMul (wrappingMul rank hpr) headDim, wrappingMul (wrappingMul (rank + 1) hpr) headDim)

def ownsExpert (s : ShardConfig) (rank e : ℕ) : Bool := s.expertToRank[e]?.any fun r => r.toNat == rank

def expertsOnRank (s : ShardConfig) (rank : ℕ) : List ℕ :=
  s.expertToRank.zipIdx.filterMap fun (r, e) => if r.toNat = rank then some e else none

end ShardConfig
end Hipscope.Shard

/-! The ranks share out the experts and the heads: which assignments and geometries make the shares a partition. -/
namespace Hipscope.Shard
open Hipscope.Spans Hipscope.Lists

section Balanced
variable {parts total rank e : ℕ}

/-- Where the share of a rank begins. -/
def boundary (parts total rank : ℕ) : ℕ := rank * (total / parts) + min rank (total % parts)

/-- The size of the share of a rank. -/
def share (parts total rank : ℕ) : ℕ := total / parts + if rank < total % parts then 1 else 0

theorem boundary_succ (parts total rank : ℕ) :
    boundary parts total (rank + 1) = boundary parts total rank + share parts total rank := by
  rw [boundary, boundary, share, Nat.add_one_mul]
  split
  · next hlt =>
    rw [min_eq_left hlt.le, min_eq_left (Nat.succ_le_of_lt hlt)]
    omega
  · next hle =>
    rw [min_eq_right (Nat.not_lt.mp hle), min_eq_right (by omega)]
    omega

theorem balancedSpan_eq (rank parts total : ℕ) :
    balancedSpan rank parts total = (boundary parts total rank, boundary parts total (rank + 1)) := by
  rw [boundary_succ]
  rfl

theorem boundary_mono (parts total : ℕ) : Monotone (boundary parts total) := by
  apply monotone_nat_of_le_succ
  intro rank
  rw [boundary_succ]
  exact Nat.le_add_right _ _

theorem boundary_zero (parts total : ℕ) : boundary parts total 0 = 0 := by rw [boundary, Nat.zero_mul, Nat.zero_min]

theorem boundary_last (hparts : 0 < parts) (total : ℕ) : boundary parts total parts = total := by
  rw [boundary, min_eq_right (Nat.mod_lt total hparts).le]
  exact Nat.div_add_mod total parts

/-- A rank that has an expert at all has none before its own number. -/
theorem le_of_boundary_le (hlo : boundary parts total rank ≤ e) (hhi : e < boundary parts total (rank + 1)) : rank ≤ e := by
  rw [boundary_succ] at hhi
  obtain hbase | hbase := Nat.eq_zero_or_pos (total / parts)
  · rw [boundary, hbase] at hlo
    rw [share, boundary, hbase] at hhi
    split at hhi
    · next hlt =>
      rw [min_eq_left hlt.le] at hlo
      omega
    · omega
  · have hmul : rank ≤ rank * (total / parts) := Nat.le_mul_of_pos_right rank hbase
    rw [boundary] at hlo
    omega

/-- The balanced ranges tile the units. -/
theorem balanced_tiles (hparts : 0 < parts) (total : ℕ) :
    Tiles 0 ((List.range parts).map fun rank => balancedSpan rank parts total) total := by
  have h := tiles_steps (boundary_mono parts total) parts
  rw [boundary_zero, boundary_last hparts] at h
  have hspans : (fun rank => balancedSpan rank parts total) =
      fun rank => (boundary parts total rank, boundary parts total (rank + 1)) := by
    funext rank
    exact balancedSpan_eq rank parts total
  rw [hspans]
  exact h

theorem share_le_succ (parts total r r' : ℕ) : share parts total r ≤ share parts total r' + 1 := by
  rw [share, share]
  split <;> split <;> omega

end Balanced

/-- The rank that a policy gives an expert to. -/
def Owner (tpSize nExperts : ℕ) (assign : ExpertAssign) (e r : ℕ) : Prop :=
  match assign with
  | .contiguous => boundary tpSize nExperts r ≤ e ∧ e < boundary tpSize nExperts (r + 1)
  | .stride => e % tpSize = r

section Owner
variable {tpSize nExperts e r r' : ℕ} {assign : ExpertAssign}

theorem Owner.unique (h : Owner tpSize nExperts assign e r) (h' : Owner tpSize nExperts assign e r') : r = r' := by
  cases assign with
  | stride => exact h.symm.trans h'
  | contiguous =>
    have hmono := boundary_mono tpSize nExperts
    obtain hlt | rfl | hlt := Nat.lt_trichotomy r r'
    · have hle : boundary tpSize nExperts (r + 1) ≤ boundary tpSize nExperts r' := hmono hlt
      exact absurd (h.2.trans_le hle) (Nat.not_lt.mpr h'.1)
    · rfl
    · have hle : boundary tpSize nExperts (r' + 1) ≤ boundary tpSize nExperts r := hmono hlt
      exact absurd (h'.2.trans_le hle) (Nat.not_lt.mpr h.1)

/-- A rank below the number of experts has one. -/
theorem exists_owned (hr : r < tpSize) (hn : r < nExperts) (assign : ExpertAssign) :
    ∃ e < nExperts, Owner tpSize nExperts assign e r := by
  cases assign with
  | stride => exact ⟨r, hn, Nat.mod_eq_of_lt hr⟩
  | contiguous =>
    have hshare : 0 < share tpSize nExperts r := by
      rw [share]
      obtain hlt | hle := Nat.lt_or_ge nExperts tpSize
      · rw [Nat.mod_eq_of_lt hlt, if_pos hn]
        exact Nat.succ_pos _
      · exact Nat.add_pos_left (Nat.div_pos hle (Nat.zero_lt_of_lt hr)) _
    have hlast : boundary tpSize nExperts (r + 1) ≤ nExperts := by
      calc
        _ ≤ boundary tpSize nExperts tpSize := boundary_mono tpSize nExperts hr
        _ = nExperts := boundary_last (Nat.zero_lt_of_lt hr) nExperts
    have hnext := boundary_succ tpSize nExperts r
    exact ⟨boundary tpSize nExperts r, by omega, le_refl _, by omega⟩

theorem Owner.le (h : Owner tpSize nExperts assign e r) : r ≤ e := by
  cases assign with
  | stride => exact h ▸ Nat.mod_le e tpSize
  | contiguous => exact le_of_boundary_le h.1 h.2

/-- Every expert has an owner, and the policy computes it. -/
theorem assignRank_owner (htp : 0 < tpSize) (he : e < nExperts) :
    ∃ r, assignRank tpSize nExperts assign e = .ok r ∧ r < tpSize ∧ Owner tpSize nExperts assign e r := by
  cases assign with
  | stride => exact ⟨e % tpSize, rfl, Nat.mod_lt e htp, rfl⟩
  | contiguous =>
    obtain ⟨i, ⟨s, hs, hin⟩, -⟩ := (balanced_tiles htp nExperts).existsUnique (Nat.zero_le e) he
    rw [List.getElem?_map, Option.map_eq_some_iff] at hs
    obtain ⟨r, hr, rfl⟩ := hs
    have hmem := List.mem_range.mp (List.mem_of_getElem? hr)
    have htest : ∀ r < tpSize, ((balancedRange r tpSize nExperts).any fun s => decide (s.1 ≤ e ∧ e < s.2)) = true ↔
        Owner tpSize nExperts .contiguous e r := by
      intro r hr
      rw [balancedRange, if_pos ⟨htp, hr⟩, Option.any_some, decide_eq_true_iff, balancedSpan_eq]
      rfl
    have howner : Owner tpSize nExperts .contiguous e r := by
      rw [balancedSpan_eq] at hin
      exact hin
    cases hfind : (List.range tpSize).find? fun rank =>
        (balancedRange rank tpSize nExperts).any fun s => decide (s.1 ≤ e ∧ e < s.2) with
    | none => exact absurd ((htest r hmem).mpr howner) (List.find?_eq_none.mp hfind r (List.mem_range.mpr hmem))
    | some found =>
      have hfound := List.mem_range.mp (List.mem_of_find?_eq_some hfind)
      have hin : ((balancedRange found tpSize nExperts).any fun s => decide (s.1 ≤ e ∧ e < s.2)) = true := by
        have h := List.find?_some hfind
        exact h
      refine ⟨found, ?_, hfound, (htest found hfound).mp hin⟩
      rw [assignRank, hfind]

end Owner

namespace ShardConfig
variable {tpSize nExperts : ℕ} {rep allowUneven : Bool} {assign : ExpertAssign} {s : ShardConfig}

private theorem ranks_ok (htp : 0 < tpSize) (nExperts : ℕ) (assign : ExpertAssign) :
    ∃ owner : ℕ → ℕ, (∀ e < nExperts, owner e < tpSize ∧ Owner tpSize nExperts assign e (owner e)) ∧
      ((List.range nExperts).mapM fun e => do
        let rank ← assignRank tpSize nExperts assign e
        return UInt8.ofNat rank) = .ok ((List.range nExperts).map fun e => UInt8.ofNat (owner e)) := by
  have howner : ∀ e : ℕ, ∃ r, e < nExperts →
      assignRank tpSize nExperts assign e = .ok r ∧ r < tpSize ∧ Owner tpSize nExperts assign e r := by
    intro e
    by_cases he : e < nExperts
    · exact (assignRank_owner htp he).imp fun r hr _ => hr
    · exact ⟨0, fun hlt => absurd hlt he⟩
  choose owner howner using howner
  refine ⟨owner, fun e he => (howner e he).2, mapM_pure fun e he => ?_⟩
  rw [(howner e (List.mem_range.mp he)).1]
  rfl

/-- An even split is accepted. -/
theorem new_ok (htp : 0 < tpSize) (heven : nExperts % tpSize = 0) (rep : Bool) (assign : ExpertAssign) :
    ∃ s, new tpSize rep nExperts assign = .ok s := by
  obtain ⟨owner, -, hranks⟩ := ranks_ok htp nExperts assign
  by_cases hdense : nExperts = 0
  · exact ⟨_, by rw [new, build, if_neg htp.ne', if_pos hdense]⟩
  · refine ⟨⟨tpSize, rep, (List.range nExperts).map fun e => UInt8.ofNat (owner e)⟩, ?_⟩
    rw [new, build, if_neg htp.ne', if_neg hdense, if_neg fun h => h.2 heven, hranks]
    rfl

/-- What is built: the number of ranks, and the owner of each expert cut to a byte. -/
theorem build_spec (h : build tpSize rep nExperts assign allowUneven = .ok s) :
    0 < tpSize ∧ s.tpSize = tpSize ∧ s.tpKvReplicate = rep ∧
      ∃ owner : ℕ → ℕ, (∀ e < nExperts, owner e < tpSize ∧ Owner tpSize nExperts assign e (owner e)) ∧
        s.expertToRank = (List.range nExperts).map fun e => UInt8.ofNat (owner e) := by
  rw [build] at h
  split at h
  · cases h
  · next hzero =>
    have htp := Nat.pos_of_ne_zero hzero
    split at h
    · next hdense =>
      cases h
      subst hdense
      exact ⟨htp, rfl, rfl, id, fun e he => absurd he (Nat.not_lt_zero e), rfl⟩
    · split at h
      · cases h
      · obtain ⟨owner, howner, hranks⟩ := ranks_ok htp nExperts assign
        rw [hranks] at h
        cases h
        exact ⟨htp, rfl, rfl, owner, howner, rfl⟩

/-- The experts of a rank, by what is stored for each. -/
theorem expertsOnRank_eq {n : ℕ} {f : ℕ → UInt8} (hmap : s.expertToRank = (List.range n).map f) (r : ℕ) :
    s.expertsOnRank r = (List.range n).filter fun e => decide ((f e).toNat = r) := by
  rw [expertsOnRank, hmap]
  clear hmap
  induction n with
  | zero => rfl
  | succ n ih =>
    rw [List.range_succ, List.map_append, List.zipIdx_append, List.filterMap_append, List.filter_append, ih,
      List.length_map, List.length_range, Nat.zero_add]
    apply congrArg
    by_cases hr : (f n).toNat = r
    · rw [List.filter_cons_of_pos (p := fun e => decide ((f e).toNat = r)) (decide_eq_true hr)]
      exact List.filterMap_cons_some (if_pos hr)
    · rw [List.filter_cons_of_neg (p := fun e => decide ((f e).toNat = r)) fun h => hr (of_decide_eq_true h)]
      exact List.filterMap_cons_none (if_neg hr)

theorem ownsExpert_iff {n : ℕ} {f : ℕ → UInt8} (hmap : s.expertToRank = (List.range n).map f) (r e : ℕ) :
    s.ownsExpert r e = true ↔ e < n ∧ (f e).toNat = r := by
  rw [ownsExpert, hmap, List.getElem?_map]
  obtain he | he := Nat.lt_or_ge e n
  · rw [List.getElem?_range he, Option.map_some, Option.any_some, beq_iff_eq]
    exact (and_iff_right he).symm
  · rw [List.getElem?_eq_none (by rwa [List.length_range])]
    constructor
    · intro h
      cases h
    · intro h
      omega

/-- A byte keeps the owner of every expert when there are at most `256` ranks or `256` experts. -/
theorem owner_fits (hfits : tpSize ≤ 256 ∨ nExperts ≤ 256) {owner : ℕ → ℕ} {e : ℕ} (he : e < nExperts)
    (howner : owner e < tpSize ∧ Owner tpSize nExperts assign e (owner e)) : (UInt8.ofNat (owner e)).toNat = owner e := by
  apply UInt8.toNat_ofNat_of_lt'
  have hle := howner.2.le
  rw [UInt8.size]
  omega

/-- The contiguous experts of a rank. -/
theorem contiguous_owned {owner : ℕ → ℕ} (htp : 0 < tpSize)
    (howner : ∀ e < nExperts, Owner tpSize nExperts .contiguous e (owner e)) {r : ℕ} (hr : r < tpSize) :
    ((List.range nExperts).filter fun e => decide (owner e = r)) =
      List.range' (boundary tpSize nExperts r) (share tpSize nExperts r) := by
  have hlast : boundary tpSize nExperts (r + 1) ≤ nExperts := by
    calc
      _ ≤ boundary tpSize nExperts tpSize := boundary_mono tpSize nExperts hr
      _ = nExperts := boundary_last htp nExperts
  have hfilter : ((List.range nExperts).filter fun e => decide (owner e = r)) =
      (List.range nExperts).filter fun e => decide (boundary tpSize nExperts r ≤ e ∧ e < boundary tpSize nExperts (r + 1)) := by
    apply List.filter_congr
    intro e he
    have h := howner e (List.mem_range.mp he)
    apply decide_eq_decide.mpr
    constructor
    · rintro rfl
      exact h
    · exact h.unique
  rw [hfilter, filter_range, min_eq_left hlast, boundary_succ, Nat.add_sub_cancel_left]

/-- The share of a rank, by either policy. -/
theorem length_owned {owner : ℕ → ℕ} (htp : 0 < tpSize) (howner : ∀ e < nExperts, Owner tpSize nExperts assign e (owner e))
    {r : ℕ} (hr : r < tpSize) :
    ((List.range nExperts).filter fun e => decide (owner e = r)).length = share tpSize nExperts r := by
  cases assign with
  | stride =>
    have hcount := Nat.count_modEq_card nExperts htp r
    rw [Nat.mod_eq_of_lt hr] at hcount
    rw [share, ← hcount, Nat.count, List.countP_eq_length_filter]
    apply congrArg List.length
    apply List.filter_congr
    intro e he
    have h : e % tpSize = owner e := howner e (List.mem_range.mp he)
    apply decide_eq_decide.mpr
    rw [← h, Nat.ModEq, Nat.mod_eq_of_lt hr]
  | contiguous => rw [contiguous_owned htp howner hr, List.length_range']

/-- No share is more than the bound that buffers are made for. -/
theorem share_le_expertsPerRank {f : ℕ → UInt8} (hmap : s.expertToRank = (List.range nExperts).map f) (r : ℕ) :
    share s.tpSize nExperts r ≤ s.expertsPerRank nExperts := by
  rw [share, expertsPerRank]
  by_cases hempty : s.expertToRank.isEmpty = true
  · have hnone : nExperts = 0 := by
      rw [hmap, List.isEmpty_iff, List.map_eq_nil_iff] at hempty
      exact List.range_eq_nil.mp hempty
    rw [if_pos hempty, hnone, Nat.zero_mod, if_neg (Nat.not_lt_zero r), Nat.zero_div]
  · rw [if_neg hempty]
    split
    · next hlt => rw [if_pos (Nat.zero_lt_of_lt hlt)]
    · exact Nat.le_add_right _ _

/-- The experts are shared out: each to one rank, evenly, and by the contiguous policy in the balanced ranges. -/
structure ExpertsPartitioned (s : ShardConfig) (nExperts : ℕ) (assign : ExpertAssign) : Prop where
  owned : ∀ e < nExperts, ∃! r : ℕ, r < s.tpSize ∧ s.ownsExpert r e = true
  balanced : ∀ r < s.tpSize, ∀ r' < s.tpSize, (s.expertsOnRank r).length ≤ (s.expertsOnRank r').length + 1
  bounded : ∀ r < s.tpSize, (s.expertsOnRank r).length ≤ s.expertsPerRank nExperts
  contiguous : assign = .contiguous → ∀ r < s.tpSize, ∃ range, balancedRange r s.tpSize nExperts = some range ∧
    s.expertsOnRank r = List.range' range.1 (range.2 - range.1)
  tiled : ∃ ranges, (List.range s.tpSize).map (fun r => balancedRange r s.tpSize nExperts) = ranges.map some ∧
    Tiles 0 ranges nExperts

/-- The ranges of the ranks tile the heads, the rows of `wq` and the columns of `wo`, and belong to the same heads. -/
structure HeadsPartitioned (s : ShardConfig) (nHeads nKvHeads headDim : ℕ) : Prop where
  q : Tiles 0 ((List.range s.tpSize).map fun r => s.qHeadRange r nHeads) nHeads
  kv : s.tpKvReplicate = false → Tiles 0 ((List.range s.tpSize).map fun r => s.kvHeadRange r nKvHeads) nKvHeads
  wq : Tiles 0 ((List.range s.tpSize).map fun r => s.wqRowRange r nHeads headDim) (nHeads * headDim * 2)
  wo : Tiles 0 ((List.range s.tpSize).map fun r => s.woColRange r nHeads headDim) (nHeads * headDim)
  rows : ∀ r < s.tpSize, ∀ row, (s.wqRowRange r nHeads headDim).1 ≤ row ∧ row < (s.wqRowRange r nHeads headDim).2 ↔
    ∃ head, ((s.qHeadRange r nHeads).1 ≤ head ∧ head < (s.qHeadRange r nHeads).2) ∧
      head * (2 * headDim) ≤ row ∧ row < (head + 1) * (2 * headDim)
  columns : ∀ r < s.tpSize, ∀ col, (s.woColRange r nHeads headDim).1 ≤ col ∧ col < (s.woColRange r nHeads headDim).2 ↔
    ∃ head, ((s.qHeadRange r nHeads).1 ≤ head ∧ head < (s.qHeadRange r nHeads).2) ∧
      head * headDim ≤ col ∧ col < (head + 1) * headDim

/-- The experts are shared out exactly if a byte can hold every rank that owns one. -/
theorem experts_iff (h : build tpSize rep nExperts assign allowUneven = .ok s) :
    s.ExpertsPartitioned nExperts assign ↔ tpSize ≤ 256 ∨ nExperts ≤ 256 := by
  obtain ⟨htp, rfl, -, owner, howner, hmap⟩ := build_spec h
  have hshares := fun e he => (howner e he).2
  constructor
  · intro hpart
    by_contra hwide
    rw [not_or, Nat.not_le, Nat.not_le] at hwide
    -- The byte of rank 256 is 0: rank 0 has its expert besides its own, and rank 256 has none.
    have hzero : ∀ r ≤ 256, r % 256 = 0 → ∃ e ∈ s.expertsOnRank 0, Owner s.tpSize nExperts assign e r := by
      intro r hr hbyte
      obtain ⟨e, he, hown⟩ := exists_owned (hr.trans_lt hwide.1) (hr.trans_lt hwide.2) assign
      refine ⟨e, ?_, hown⟩
      rw [expertsOnRank_eq hmap, List.mem_filter, List.mem_range, (hshares e he).unique hown, UInt8.toNat_ofNat']
      exact ⟨he, decide_eq_true hbyte⟩
    obtain ⟨e, he, hown⟩ := hzero 0 (Nat.zero_le _) rfl
    obtain ⟨e', he', hown'⟩ := hzero 256 (le_refl _) rfl
    have hne : e ≠ e' := by
      rintro rfl
      exact absurd (hown.unique hown') (by decide)
    have htwo : 2 ≤ (s.expertsOnRank 0).length := by
      have hnodup : [e, e'].Nodup := List.nodup_cons.mpr ⟨fun h => hne (List.mem_singleton.mp h), List.nodup_singleton e'⟩
      exact (hnodup.subperm (List.cons_subset.mpr ⟨he, List.cons_subset.mpr ⟨he', List.nil_subset _⟩⟩)).length_le
    have hnone : s.expertsOnRank 256 = [] := by
      rw [expertsOnRank_eq hmap, List.filter_eq_nil_iff]
      intro e _ h
      exact absurd (of_decide_eq_true h) (UInt8.toNat_lt _).ne
    have hbalanced := hpart.balanced 0 htp 256 hwide.1
    rw [hnone] at hbalanced
    exact absurd (htwo.trans hbalanced) (by decide)
  · intro hfits
    have honRank : ∀ r, s.expertsOnRank r = (List.range nExperts).filter fun e => decide (owner e = r) := by
      intro r
      rw [expertsOnRank_eq hmap]
      apply List.filter_congr
      intro e he
      rw [owner_fits hfits (List.mem_range.mp he) (howner e (List.mem_range.mp he))]
    have hlength : ∀ r < s.tpSize, (s.expertsOnRank r).length = share s.tpSize nExperts r := by
      intro r hr
      rw [honRank, length_owned htp hshares hr]
    refine ⟨?_, ?_, ?_, ?_, ?_⟩
    · intro e he
      refine ⟨owner e, ⟨(howner e he).1, ?_⟩, ?_⟩
      · exact (ownsExpert_iff hmap _ _).mpr ⟨he, owner_fits hfits he (howner e he)⟩
      · rintro r ⟨-, hr⟩
        rw [← ((ownsExpert_iff hmap _ _).mp hr).2, owner_fits hfits he (howner e he)]
    · intro r hr r' hr'
      rw [hlength r hr, hlength r' hr']
      exact share_le_succ _ _ _ _
    · intro r hr
      rw [hlength r hr]
      exact share_le_expertsPerRank hmap r
    · rintro rfl r hr
      refine ⟨balancedSpan r s.tpSize nExperts, if_pos ⟨htp, hr⟩, ?_⟩
      rw [honRank, contiguous_owned htp hshares hr, balancedSpan_eq, boundary_succ, Nat.add_sub_cancel_left]
    · refine ⟨(List.range s.tpSize).map fun r => balancedSpan r s.tpSize nExperts, ?_, balanced_tiles htp nExperts⟩
      rw [List.map_map]
      apply List.map_congr_left
      intro r hr
      exact if_pos ⟨htp, List.mem_range.mp hr⟩

variable {nHeads nKvHeads headDim : ℕ}

theorem validate_spec (hv : s.validate nHeads nKvHeads = .ok ()) :
    s.tpSize ∣ nHeads ∧ (s.tpKvReplicate = false → s.tpSize ∣ nKvHeads) := by
  rw [validate] at hv
  split at hv
  · cases hv
  · next hheads =>
    split at hv
    · cases hv
    · next hkv =>
      refine ⟨Nat.dvd_of_mod_eq_zero (not_not.mp hheads), fun hrep => Nat.dvd_of_mod_eq_zero ?_⟩
      by_contra hrest
      exact hkv ⟨hrep, Or.inr hrest⟩

/-- The ranges of a weight's rows or columns, one block for each head. -/
theorem wqRowRange_eq (s : ShardConfig) (r nHeads headDim : ℕ) : s.wqRowRange r nHeads headDim =
    (r * s.qHeadsPerRank nHeads * (2 * headDim) % 2 ^ 64, (r + 1) * s.qHeadsPerRank nHeads * (2 * headDim) % 2 ^ 64) := by
  rw [wqRowRange, wrappingMul, wrappingMul, wrappingMul, wrappingMul, wrappingMul, ← Nat.mul_mod, ← Nat.mul_mod]

theorem woColRange_eq (s : ShardConfig) (r nHeads headDim : ℕ) : s.woColRange r nHeads headDim =
    (r * s.qHeadsPerRank nHeads * headDim % 2 ^ 64, (r + 1) * s.qHeadsPerRank nHeads * headDim % 2 ^ 64) := by
  rw [woColRange, wrappingMul, wrappingMul, wrappingMul, wrappingMul, Nat.mod_mul_mod, Nat.mod_mul_mod]

/-- Up to the last rank the blocks stay inside the weight. -/
private theorem block_fits (hdvd : s.tpSize ∣ nHeads) {width r : ℕ} (hfits : nHeads * width < 2 ^ 64) (hr : r ≤ s.tpSize) :
    r * s.qHeadsPerRank nHeads * width % 2 ^ 64 = r * s.qHeadsPerRank nHeads * width := by
  apply Nat.mod_eq_of_lt
  refine lt_of_le_of_lt (Nat.mul_le_mul_right width ?_) hfits
  calc
    _ ≤ s.tpSize * s.qHeadsPerRank nHeads := Nat.mul_le_mul_right _ hr
    _ = nHeads := Nat.mul_div_cancel' hdvd

/-- Blocks of the heads of each rank tile the whole weight. -/
private theorem heads_tile (hdvd : s.tpSize ∣ nHeads) (width : ℕ) :
    Tiles 0 ((List.range s.tpSize).map fun r =>
      (r * s.qHeadsPerRank nHeads * width, (r + 1) * s.qHeadsPerRank nHeads * width)) (nHeads * width) := by
  have h := tiles_blocks (s.qHeadsPerRank nHeads * width) s.tpSize
  rw [← Nat.mul_assoc, show s.tpSize * s.qHeadsPerRank nHeads = nHeads from Nat.mul_div_cancel' hdvd] at h
  simpa only [Nat.mul_assoc] using h

/-- The heads are shared out exactly if the rows of `wq` can be counted. -/
theorem heads_iff (hv : s.validate nHeads nKvHeads = .ok ()) :
    s.HeadsPartitioned nHeads nKvHeads headDim ↔ nHeads * headDim * 2 < 2 ^ 64 := by
  obtain ⟨hdvd, hkv⟩ := validate_spec hv
  constructor
  · intro hpart
    by_contra hwide
    have hpos : nHeads * headDim * 2 - 1 < nHeads * headDim * 2 := by omega
    obtain ⟨i, ⟨range, hrange, hin⟩, -⟩ := hpart.wq.existsUnique (Nat.zero_le _) hpos
    have hlast := hpart.wq.bounds (List.mem_of_getElem? hrange)
    rw [List.getElem?_map, Option.map_eq_some_iff] at hrange
    obtain ⟨r, -, rfl⟩ := hrange
    rw [wqRowRange_eq] at hin
    have hword : (r + 1) * s.qHeadsPerRank nHeads * (2 * headDim) % 2 ^ 64 < 2 ^ 64 := Nat.mod_lt _ (by decide)
    omega
  · intro hfits
    have hrows : nHeads * (2 * headDim) < 2 ^ 64 := by
      calc
        _ = nHeads * headDim * 2 := by ring
        _ < 2 ^ 64 := hfits
    have hcols : nHeads * headDim < 2 ^ 64 := by omega
    have hwq : ∀ r < s.tpSize, s.wqRowRange r nHeads headDim =
        (r * s.qHeadsPerRank nHeads * (2 * headDim), (r + 1) * s.qHeadsPerRank nHeads * (2 * headDim)) := by
      intro r hr
      rw [wqRowRange_eq, block_fits hdvd hrows hr.le, block_fits hdvd hrows hr]
    have hwo : ∀ r < s.tpSize, s.woColRange r nHeads headDim =
        (r * s.qHeadsPerRank nHeads * headDim, (r + 1) * s.qHeadsPerRank nHeads * headDim) := by
      intro r hr
      rw [woColRange_eq, block_fits hdvd hcols hr.le, block_fits hdvd hcols hr]
    refine ⟨?_, ?_, ?_, ?_, ?_, ?_⟩
    · have h := heads_tile hdvd 1
      simp only [Nat.mul_one] at h
      exact h
    · intro hrep
      have h := tiles_blocks (nKvHeads / s.tpSize) s.tpSize
      rw [Nat.mul_div_cancel' (hkv hrep)] at h
      have hspans : (fun r => s.kvHeadRange r nKvHeads) =
          fun r => (r * (nKvHeads / s.tpSize), (r + 1) * (nKvHeads / s.tpSize)) := by
        funext r
        rw [kvHeadRange, hrep]
        rfl
      rw [hspans]
      exact h
    · rw [List.map_congr_left fun r hr => hwq r (List.mem_range.mp hr)]
      have h := heads_tile hdvd (2 * headDim)
      rwa [show nHeads * (2 * headDim) = nHeads * headDim * 2 by ring] at h
    · rw [List.map_congr_left fun r hr => hwo r (List.mem_range.mp hr)]
      exact heads_tile hdvd headDim
    · intro r hr row
      rw [hwq r hr]
      exact mem_blocks
    · intro r hr col
      rw [hwo r hr]
      exact mem_blocks

/-- The shares are a partition exactly if a byte can hold every rank that owns an expert and the rows of `wq` can be
counted. -/
theorem partition_iff (h : new tpSize rep nExperts assign = .ok s ∨ newUnevenExperts tpSize rep nExperts assign = .ok s)
    (hv : s.validate nHeads nKvHeads = .ok ()) :
    s.ExpertsPartitioned nExperts assign ∧ s.HeadsPartitioned nHeads nKvHeads headDim ↔
      (tpSize ≤ 256 ∨ nExperts ≤ 256) ∧ nHeads * headDim * 2 < 2 ^ 64 := by
  obtain ⟨allowUneven, hbuild⟩ : ∃ allowUneven, build tpSize rep nExperts assign allowUneven = .ok s :=
    h.elim (fun h => ⟨false, h⟩) fun h => ⟨true, h⟩
  rw [experts_iff hbuild, heads_iff hv]

/-- Three experts over two ranks, four query heads, two key heads. -/
theorem partition_iff_small : ∃ s, newUnevenExperts 2 false 3 .contiguous = .ok s ∧ s.validate 4 2 = .ok () ∧
    s.ExpertsPartitioned 3 .contiguous ∧ s.HeadsPartitioned 4 2 8 := by
  have hnew : newUnevenExperts 2 false 3 .contiguous = .ok ⟨2, false, [0, 0, 1]⟩ := rfl
  exact ⟨⟨2, false, [0, 0, 1]⟩, hnew, rfl, (partition_iff (Or.inr hnew) rfl).mpr (by decide)⟩

/-- With an expert for each of `257` ranks the last rank has none, and the first has two. -/
theorem last_rank_owns_nothing : ∃ s, new 257 false 257 .contiguous = .ok s ∧ ¬ s.ExpertsPartitioned 257 .contiguous := by
  have htp : 0 < 257 := by decide
  obtain ⟨s, hs⟩ := new_ok htp (Nat.mod_self 257) false .contiguous
  refine ⟨s, hs, fun hpart => ?_⟩
  exact absurd ((experts_iff hs).mp hpart) (by decide)

end ShardConfig
end Hipscope.Shard
