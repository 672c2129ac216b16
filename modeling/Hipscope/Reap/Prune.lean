import Hipscope.Lists.Traverse
import Hipscope.Text.Search
import Mathlib.Algebra.Group.Nat.Defs
import Mathlib.Data.List.Nodup

/-! The kept rows of a tensor. -/
namespace Hipscope.Reap
open Hipscope.Lists

/-- One kept row of a tensor of `origRows` rows. -/
def gatherRow (origRows rowstride : ℕ) (bytes : List UInt8) (keep : UInt32) : Except String (List UInt8) :=
  let oe := keep.toNat
  if origRows ≤ oe then .error s!"reap: row-gather keep idx {oe} >= rows {origRows}"
  else .ok (rowAt rowstride bytes oe)

/-- The first dimension counts the rows; all rows have the same number of bytes. -/
def gatherRows (shape : List ℕ) (bytes : List UInt8) (keep : List UInt32) : Except String (List ℕ × List UInt8) :=
  let origRows := shape.head?.getD 0
  let len := bytes.length
  if origRows = 0 ∨ len % origRows ≠ 0 then .error s!"reap: row-gather: {origRows} rows don't divide {len} bytes"
  else do
    let rows ← keep.mapM (gatherRow origRows (len / origRows) bytes)
    return (shape.set 0 keep.length, rows.flatten)

/-- The bytes of row `s` of a tensor. -/
def tensorRow (shape : List ℕ) (bytes : List UInt8) (s : ℕ) : List UInt8 :=
  rowAt (bytes.length / shape.head?.getD 0) bytes s

section Gathered
variable {shape shape' : List ℕ} {bytes out : List UInt8} {keep : List UInt32} {s origRows rowstride : ℕ} {k : UInt32}

theorem gatherRow_ok {row : List UInt8} (hlen : bytes.length = origRows * rowstride)
    (h : gatherRow origRows rowstride bytes k = .ok row) : row = rowAt rowstride bytes k.toNat ∧ row.length = rowstride := by
  obtain ⟨hlt, h⟩ := ite_error_ok h
  cases h
  refine ⟨rfl, length_rowAt ?_⟩
  rw [hlen]
  exact Nat.mul_le_mul_right rowstride (Nat.lt_of_not_le hlt)

theorem gatherRows_ok (h : gatherRows shape bytes keep = .ok (shape', out)) :
    shape' = shape.set 0 keep.length ∧ ∃ origRows rest, shape = origRows :: rest ∧
      ∃ rows, rows.flatten = out ∧ (∀ r ∈ rows, r.length = bytes.length / origRows) ∧
        List.Forall₂ (fun k row => row = rowAt (bytes.length / origRows) bytes k.toNat) keep rows := by
  obtain ⟨hrows, h⟩ := ite_error_ok h
  rw [not_or, Decidable.not_not] at hrows
  obtain ⟨rows, hall, h⟩ := bind_ok h
  cases h
  cases shape with
  | nil => exact absurd rfl hrows.1
  | cons origRows rest =>
    have hlen : bytes.length = origRows * (bytes.length / origRows) :=
      (Nat.mul_div_cancel' (Nat.dvd_of_mod_eq_zero hrows.2)).symm
    have hgathered := (mapM_forall₂ hall).imp fun _ _ => gatherRow_ok hlen
    refine ⟨rfl, origRows, rest, rfl, rows, rfl, fun r hr => ?_, hgathered.imp fun _ _ => And.left⟩
    obtain ⟨k, -, hk⟩ := forall₂_mem_right hgathered hr
    exact hk.2

/-- Row `s` of the gathered tensor is the row of the expert in slot `s`. -/
theorem gatherRows_row (h : gatherRows shape bytes keep = .ok (shape', out)) (hs : keep[s]? = some k) :
    tensorRow shape' out s = tensorRow shape bytes k.toNat := by
  obtain ⟨rfl, origRows, rest, rfl, rows, rfl, hsize, hall⟩ := gatherRows_ok h
  obtain ⟨hcount, hget⟩ := List.forall₂_iff_get.mp hall
  obtain ⟨hlt, rfl⟩ := List.getElem?_eq_some_iff.mp hs
  have hrow : rows[s]? = some (rowAt (bytes.length / origRows) bytes keep[s].toNat) := by
    rw [List.getElem?_eq_getElem (hcount ▸ hlt)]
    exact congrArg some (hget s hlt (hcount ▸ hlt))
  have hstride : rows.flatten.length / keep.length = bytes.length / origRows := by
    rw [length_flatten_of_size hsize, ← hcount]
    exact Nat.mul_div_cancel_left _ (Nat.lt_of_le_of_lt (Nat.zero_le s) hlt)
  change rowAt (rows.flatten.length / keep.length) rows.flatten s = _
  rw [hstride]
  exact rowAt_flatten hsize hrow

/-- A tensor of whole rows gives every kept row that it has. -/
theorem gatherRows_defined {rest : List ℕ} (hpos : 0 < origRows) (hdvd : origRows ∣ bytes.length)
    (hkeep : ∀ k ∈ keep, k.toNat < origRows) :
    ∃ out, gatherRows (origRows :: rest) bytes keep = .ok (keep.length :: rest, out) := by
  have hall : ∀ k ∈ keep, gatherRow origRows (bytes.length / origRows) bytes k =
      .ok (rowAt (bytes.length / origRows) bytes k.toNat) :=
    fun k hk => if_neg (Nat.not_le_of_lt (hkeep k hk))
  have hshape : ¬ (origRows = 0 ∨ bytes.length % origRows ≠ 0) := by
    rw [not_or, Decidable.not_not]
    exact ⟨Nat.ne_of_gt hpos, Nat.mod_eq_zero_of_dvd hdvd⟩
  refine ⟨(keep.map fun k => rowAt (bytes.length / origRows) bytes k.toNat).flatten, (if_neg hshape).trans ?_⟩
  change (keep.mapM (gatherRow origRows (bytes.length / origRows) bytes)).bind _ = _
  rw [mapM_pure hall]
  rfl

end Gathered
end Hipscope.Reap

/-! Pruned experts: the tensors of the kept ones renamed to their slots, the router's rows gathered. -/
namespace Hipscope.Reap
open Hipscope.Lists Text

inductive ReapArch where
  | deepseek4
  | qwen35
  | lfm2Moe
  | minimax
  deriving DecidableEq, Repr

/-- The segment before an expert's number. -/
def ReapArch.expertSeg : ReapArch → List Char
  | .deepseek4 => ".ffn.experts.".toList
  | .qwen35 => ".mlp.experts.".toList
  | .lfm2Moe => ".feed_forward.experts.".toList
  | .minimax => ".block_sparse_moe.experts.".toList

/-- The endings of a routed expert's weights. -/
def ReapArch.weightEnds : ReapArch → List (List Char)
  | .qwen35 => [".gate_up_proj.weight".toList, ".down_proj.weight".toList]
  | _ => [".w1.weight".toList, ".w2.weight".toList, ".w3.weight".toList]

def routedExpertSeg (arch : ReapArch) : List Char × (List Char → Bool) :=
  (arch.expertSeg, fun n => arch.weightEnds.any fun e => decide (e <:+ n))

/-- `str::parse::<u32>`: decimal digits behind an optional plus sign. -/
def parseU32 (s : List Char) : Option UInt32 :=
  let digits := if s.head? = some '+' then s.tail else s
  let value := Nat.ofDigitChars 10 digits 0
  if digits ≠ [] ∧ digits.all Char.isDigit = true ∧ value < 2 ^ 32 then some (UInt32.ofNat value) else none

def expertIndexOf (name : List Char) (arch : ReapArch) : Option UInt32 := do
  let (seg, wOk) := routedExpertSeg arch
  let found ← memmem name seg
  if wOk name then
    let after := name.drop (found + seg.length)
    parseU32 (after.takeWhile (· != '.'))
  else none

/-- `str::replacen(from, to, 1)`. -/
def replaceFirst (name source target : List Char) : List Char :=
  match memmem name source with
  | some i => name.take i ++ target ++ name.drop (i + source.length)
  | none => name

def bakeExpertRename (name : List Char) (arch : ReapArch) (_layer : ℕ) (keep : List UInt32) : Option (List Char) := do
  let e ← expertIndexOf name arch
  let slot ← keep.findIdx? (· == e)
  let (seg, _) := routedExpertSeg arch
  return replaceFirst name (seg ++ Nat.toDigits 10 e.toNat ++ ['.']) (seg ++ Nat.toDigits 10 slot ++ ['.'])

/-- A routed expert's tensor: what is before the segment, the expert, and what is behind its number and dot. -/
structure ExpertName where
  front : List Char
  expert : ℕ
  back : List Char
  deriving DecidableEq, Repr

namespace ExpertName

/-- The name, with the expert's number in decimals. -/
def text (n : ExpertName) (arch : ReapArch) : List Char :=
  n.front ++ (arch.expertSeg ++ (Nat.toDigits 10 n.expert ++ '.' :: n.back))

/-- The segment is not there before the place of the number, and the name is that of a weight. -/
structure Canonical (arch : ReapArch) (n : ExpertName) : Prop where
  first : Passes arch.expertSeg n.front arch.expertSeg
  weight : (routedExpertSeg arch).2 (n.text arch) = true

def renumber (n : ExpertName) (slot : ℕ) : ExpertName := { n with expert := slot }

end ExpertName

/-- The slot of an expert. -/
def slotOf (keep : List UInt32) (expert : ℕ) : Option ℕ := keep.findIdx? fun k => k.toNat == expert

section Digits

theorem dot_notMem_toDigits (n : ℕ) : '.' ∉ Nat.toDigits 10 n := fun hdot =>
  absurd (Nat.isDigit_of_mem_toDigits (by decide) (by decide) hdot) (by decide)

theorem toDigits_inj {n m : ℕ} (h : Nat.toDigits 10 n = Nat.toDigits 10 m) : n = m := by
  rw [← Nat.ofDigitChars_ten_toDigits (n := n), h, Nat.ofDigitChars_ten_toDigits]

theorem takeWhile_toDigits (n : ℕ) (rest : List Char) :
    (Nat.toDigits 10 n ++ '.' :: rest).takeWhile (· != '.') = Nat.toDigits 10 n := by
  have hdigits : ∀ c ∈ Nat.toDigits 10 n, (c != '.') = true :=
    fun c hc => bne_iff_ne.mpr fun hdot => dot_notMem_toDigits n (hdot ▸ hc)
  rw [List.takeWhile_append_of_pos hdigits, List.takeWhile_cons_of_neg (by decide), List.append_nil]

/-- A number in decimals reads as itself, if it fits. -/
theorem parseU32_toDigits (n : ℕ) :
    parseU32 (Nat.toDigits 10 n) = if n < 2 ^ 32 then some (UInt32.ofNat n) else none := by
  have hall : ∀ c ∈ Nat.toDigits 10 n, c.isDigit = true := fun c => Nat.isDigit_of_mem_toDigits (by decide) (by decide)
  have hsign : (Nat.toDigits 10 n).head? ≠ some '+' := fun hplus =>
    absurd (hall '+' (List.mem_of_mem_head? hplus)) (by decide)
  rw [parseU32, if_neg hsign, Nat.ofDigitChars_ten_toDigits]
  by_cases hn : n < 2 ^ 32
  · rw [if_pos hn, if_pos ⟨Nat.toDigits_ne_nil, List.all_eq_true.mpr hall, hn⟩]
  · rw [if_neg hn, if_neg fun h => hn h.2.2]

end Digits

section Names
variable {arch : ReapArch} {n m : ExpertName} {keep : List UInt32} {e slot : ℕ}

theorem expertSeg_ne_nil (arch : ReapArch) : arch.expertSeg ≠ [] := by
  cases arch <;> exact List.cons_ne_nil _ _

theorem ExpertName.Canonical.find (h : n.Canonical arch) : memmem (n.text arch) arch.expertSeg = some n.front.length :=
  memmem_passes (expertSeg_ne_nil arch) (h.first.beyond _)

theorem expertIndexOf_text (h : n.Canonical arch) :
    expertIndexOf (n.text arch) arch = if n.expert < 2 ^ 32 then some (UInt32.ofNat n.expert) else none := by
  have hafter : (n.text arch).drop (n.front.length + arch.expertSeg.length) = Nat.toDigits 10 n.expert ++ '.' :: n.back := by
    rw [ExpertName.text, ← List.drop_drop, List.drop_left, List.drop_left]
  rw [expertIndexOf]
  change (memmem (n.text arch) arch.expertSeg).bind _ = _
  rw [h.find, Option.bind_some]
  change (if (routedExpertSeg arch).2 (n.text arch) = true then _ else none) = _
  rw [if_pos h.weight]
  change parseU32 (((n.text arch).drop (n.front.length + arch.expertSeg.length)).takeWhile (· != '.')) = _
  rw [hafter, takeWhile_toDigits, parseU32_toDigits]

/-- The first match of the segment with the number is where the segment first is. -/
theorem replaceFirst_text (h : n.Canonical arch) (slot : ℕ) :
    replaceFirst (n.text arch) (arch.expertSeg ++ Nat.toDigits 10 n.expert ++ ['.'])
      (arch.expertSeg ++ Nat.toDigits 10 slot ++ ['.']) = (n.renumber slot).text arch := by
  have htext : n.text arch = n.front ++ ((arch.expertSeg ++ Nat.toDigits 10 n.expert ++ ['.']) ++ n.back) := by
    simp only [ExpertName.text, List.append_assoc, List.singleton_append]
  have hpasses : Passes (arch.expertSeg ++ Nat.toDigits 10 n.expert ++ ['.']) n.front
      ((arch.expertSeg ++ Nat.toDigits 10 n.expert ++ ['.']) ++ n.back) := by
    intro i hi hocc
    have hseg := (h.first.beyond (Nat.toDigits 10 n.expert ++ '.' :: n.back)) i hi
    rw [List.append_assoc] at hocc
    refine hseg (List.IsPrefix.trans (List.prefix_append _ _) (hocc.trans ?_))
    simp only [List.append_assoc, List.singleton_append]
    exact List.prefix_refl _
  have hne : arch.expertSeg ++ Nat.toDigits 10 n.expert ++ ['.'] ≠ [] := List.append_ne_nil_of_right_ne_nil _ (by decide)
  rw [replaceFirst, htext, memmem_passes hne hpasses]
  change (n.front ++ _).take n.front.length ++ _ ++ (n.front ++ _).drop (n.front.length + _) = _
  rw [List.take_left, ← List.drop_drop, List.drop_left, List.drop_left]
  simp only [ExpertName.text, ExpertName.renumber, List.append_assoc, List.singleton_append]

theorem slotOf_eq_none_of_ge (he : 2 ^ 32 ≤ e) : slotOf keep e = none := by
  refine List.findIdx?_eq_none_iff.mpr fun k _ => beq_false_of_ne ?_
  exact Nat.ne_of_lt (Nat.lt_of_lt_of_le k.toNat_lt he)

theorem findIdx?_ofNat (he : e < 2 ^ 32) : keep.findIdx? (· == UInt32.ofNat e) = slotOf keep e := by
  have hsame : (fun k : UInt32 => k == UInt32.ofNat e) = fun k => k.toNat == e := by
    funext k
    rw [Bool.eq_iff_iff, beq_iff_eq, beq_iff_eq, ← UInt32.toNat_inj, UInt32.toNat_ofNat_of_lt' he]
  rw [hsame, slotOf]

/-- A kept expert's tensor gets its slot's number, and the others are dropped. -/
theorem bakeExpertRename_text (h : n.Canonical arch) (layer : ℕ) (keep : List UInt32) :
    bakeExpertRename (n.text arch) arch layer keep =
      (slotOf keep n.expert).map fun slot => (n.renumber slot).text arch := by
  rw [bakeExpertRename, expertIndexOf_text h]
  by_cases hlt : n.expert < 2 ^ 32
  · rw [if_pos hlt]
    change (keep.findIdx? (· == UInt32.ofNat n.expert)).bind _ = _
    rw [findIdx?_ofNat hlt]
    cases hslot : slotOf keep n.expert with
    | none => rfl
    | some slot =>
      change some (replaceFirst (n.text arch) (arch.expertSeg ++ Nat.toDigits 10 (UInt32.ofNat n.expert).toNat ++ ['.'])
        (arch.expertSeg ++ Nat.toDigits 10 slot ++ ['.'])) = _
      rw [UInt32.toNat_ofNat_of_lt' hlt, replaceFirst_text h]
      rfl
  · rw [if_neg hlt, slotOf_eq_none_of_ge (Nat.le_of_not_lt hlt)]
    rfl

/-- The slots are those of the keep row, each of its own expert. -/
theorem slotOf_eq_some_iff (hkeep : keep.Nodup) : slotOf keep e = some slot ↔ keep[slot]?.map UInt32.toNat = some e := by
  rw [slotOf, List.findIdx?_eq_some_iff_getElem]
  constructor
  · rintro ⟨hlt, hslot, -⟩
    rw [List.getElem?_eq_getElem hlt]
    exact congrArg some (beq_iff_eq.mp hslot)
  · intro hslot
    obtain ⟨k, hk, rfl⟩ := Option.map_eq_some_iff.mp hslot
    obtain ⟨hlt, rfl⟩ := List.getElem?_eq_some_iff.mp hk
    refine ⟨hlt, beq_self_eq_true _, fun j hj hsame => ?_⟩
    have hjk := UInt32.toNat_inj.mp (beq_iff_eq.mp hsame)
    exact Nat.ne_of_lt hj ((List.Nodup.getElem_inj_iff hkeep).mp hjk)

/-- A name tells where its parts are. -/
theorem text_renumber_inj {s t : ℕ} (hn : n.Canonical arch) (hm : m.Canonical arch)
    (h : (n.renumber s).text arch = (m.renumber t).text arch) : n.front = m.front ∧ s = t ∧ n.back = m.back := by
  have hfind : ∀ {n : ExpertName} {s : ℕ}, n.Canonical arch →
      memmem ((n.renumber s).text arch) arch.expertSeg = some n.front.length :=
    fun hn => memmem_passes (expertSeg_ne_nil arch) (hn.first.beyond _)
  have hfront : n.front.length = m.front.length :=
    Option.some.inj ((hfind hn).symm.trans ((congrArg (memmem · arch.expertSeg) h).trans (hfind hm)))
  obtain ⟨hfront, hrest⟩ := List.append_inj h hfront
  have hrest : Nat.toDigits 10 s ++ '.' :: n.back = Nat.toDigits 10 t ++ '.' :: m.back := List.append_cancel_left hrest
  have hdigits : Nat.toDigits 10 s = Nat.toDigits 10 t :=
    eq_of_closed_prefix (dot_notMem_toDigits s) (dot_notMem_toDigits t) ⟨[], (List.append_nil _).trans hrest⟩
  refine ⟨hfront, toDigits_inj hdigits, ?_⟩
  rw [hdigits] at hrest
  exact (List.cons.inj (List.append_cancel_left hrest)).2

/-- Two tensors that get one name are the same. -/
theorem bakeExpertRename_inj {layer : ℕ} {name : List Char} (hkeep : keep.Nodup) (hn : n.Canonical arch)
    (hm : m.Canonical arch) (h : bakeExpertRename (n.text arch) arch layer keep = some name)
    (h' : bakeExpertRename (m.text arch) arch layer keep = some name) : n = m := by
  rw [bakeExpertRename_text hn] at h
  rw [bakeExpertRename_text hm] at h'
  obtain ⟨s, hs, rfl⟩ := Option.map_eq_some_iff.mp h
  obtain ⟨t, ht, hsame⟩ := Option.map_eq_some_iff.mp h'
  obtain ⟨hfront, rfl, hback⟩ := text_renumber_inj hn hm hsame.symm
  have hexpert : n.expert = m.expert :=
    Option.some.inj (((slotOf_eq_some_iff hkeep).mp hs).symm.trans ((slotOf_eq_some_iff hkeep).mp ht))
  cases n
  cases m
  simp only at hfront hexpert hback
  rw [hfront, hexpert, hback]

end Names

/-- Pruning keeps the experts' tensors and the router's rows aligned: the tensors of the kept experts,
and no others, get the numbers of their slots, each slot is that of one expert, no two tensors get one
name, a tensor of whole rows that has the kept ones is gathered, and row `s` of a gathered tensor is
the row of the expert in slot `s`. -/
theorem prune_aligned (arch : ReapArch) (layer : ℕ) (keep : List UInt32) (hkeep : keep.Nodup) (names : List ExpertName)
    (hnames : ∀ n ∈ names, n.Canonical arch) :
    (names.filterMap fun n => bakeExpertRename (n.text arch) arch layer keep) =
        (names.filterMap fun n => (slotOf keep n.expert).map fun slot => (n.renumber slot).text arch) ∧
      (∀ n ∈ names, bakeExpertRename (n.text arch) arch layer keep =
        (slotOf keep n.expert).map fun slot => (n.renumber slot).text arch) ∧
      (∀ e slot, slotOf keep e = some slot ↔ keep[slot]?.map UInt32.toNat = some e) ∧
      (∀ n ∈ names, ∀ m ∈ names, ∀ name, bakeExpertRename (n.text arch) arch layer keep = some name →
        bakeExpertRename (m.text arch) arch layer keep = some name → n = m) ∧
      (∀ origRows rest bytes, 0 < origRows → origRows ∣ bytes.length → (∀ k ∈ keep, k.toNat < origRows) →
        ∃ out, gatherRows (origRows :: rest) bytes keep = .ok (keep.length :: rest, out)) ∧
      ∀ shape bytes shape' out, gatherRows shape bytes keep = .ok (shape', out) → shape' = shape.set 0 keep.length ∧
        ∀ e slot, slotOf keep e = some slot → tensorRow shape' out slot = tensorRow shape bytes e := by
  have hrename : ∀ n ∈ names, bakeExpertRename (n.text arch) arch layer keep =
      (slotOf keep n.expert).map fun slot => (n.renumber slot).text arch :=
    fun n hn => bakeExpertRename_text (hnames n hn) layer keep
  refine ⟨List.filterMap_congr hrename, hrename, fun e slot => slotOf_eq_some_iff hkeep,
    fun n hn m hm name => bakeExpertRename_inj hkeep (hnames n hn) (hnames m hm),
    fun origRows rest bytes => gatherRows_defined, fun shape bytes shape' out hok => ?_⟩
  refine ⟨(gatherRows_ok hok).1, fun e slot hslot => ?_⟩
  obtain ⟨k, hk, rfl⟩ := Option.map_eq_some_iff.mp ((slotOf_eq_some_iff hkeep).mp hslot)
  exact gatherRows_row hok hk

/-- `layers.0.ffn.experts.2.w1.weight` -/
def sampleName : ExpertName := ⟨"layers.0".toList, 2, "w1.weight".toList⟩

theorem sampleName_canonical : sampleName.Canonical .deepseek4 := ⟨by unfold Passes; decide, by decide⟩

theorem sampleName_aligned :
    ([sampleName].filterMap fun n => bakeExpertRename (n.text .deepseek4) .deepseek4 0 [0, 2, 3]) =
        ["layers.0.ffn.experts.1.w1.weight".toList] ∧
      (∃ out, gatherRows [4, 2] [0, 1, 2, 3, 4, 5, 6, 7] [0, 2, 3] = .ok ([3, 2], out)) ∧
      tensorRow [3, 2] [0, 1, 4, 5, 6, 7] 1 = tensorRow [4, 2] [0, 1, 2, 3, 4, 5, 6, 7] 2 := by
  obtain ⟨hnames, -, -, -, hgathered, hrows⟩ := prune_aligned .deepseek4 0 [0, 2, 3] (by decide) [sampleName]
    fun n hn => List.mem_singleton.mp hn ▸ sampleName_canonical
  refine ⟨hnames, hgathered 4 [2] [0, 1, 2, 3, 4, 5, 6, 7] (by decide) (by decide) (by simp), ?_⟩
  exact (hrows [4, 2] [0, 1, 2, 3, 4, 5, 6, 7] [3, 2] [0, 1, 4, 5, 6, 7] rfl).2 2 1 (by decide)

end Hipscope.Reap
