import Hipscope.Spans.Tiling
import Mathlib.Algebra.BigOperators.Group.List.Basic
import Mathlib.Algebra.GroupWithZero.Nat

/-! The tiles of a batch of query rows, slot by slot. A row of the batch is counted from the first slot on. -/
namespace Hipscope.Kv
open Spans

/-- `as i32`. -/
def asI32 (n : ℕ) : ℤ := (n : ℤ).bmod (2 ^ 32)

/-- The slot of a tile, its first row in the slot, and its first row in the batch. -/
structure Tile where
  slot : ℤ
  row0 : ℤ
  qbase : ℤ
  deriving DecidableEq, Repr

/-- The first rows of the tiles of a slot of `m` rows, for at most `fuel` rounds of the loop. -/
def slotRows (m br : UInt64) : ℕ → UInt64 → Option (List UInt64)
  | 0, _ => none
  | fuel + 1, row0 => if row0 < m then (slotRows m br fuel (row0 + br)).map (row0 :: ·) else some []

def tileAt (slot : ℕ) (start row0 : UInt64) : Tile := ⟨asI32 slot, asI32 row0.toNat, asI32 (start + row0).toNat⟩

def tilesFrom (br : UInt64) (fuel : ℕ) : ℕ → UInt64 → List UInt64 → Option (List Tile)
  | _, _, [] => some []
  | slot, start, m :: counts => do
    let rows ← slotRows m br fuel 0
    let rest ← tilesFrom br fuel (slot + 1) (start + m) counts
    return rows.map (tileAt slot start) ++ rest

/-- The tiles of the slots; a tile of no height fails an assertion. -/
def buildTiles (slotQueryCounts : List UInt64) (br : UInt64) (fuel : ℕ) : Option (List Tile) :=
  if 0 < br then tilesFrom br fuel 0 0 slotQueryCounts else none

section Layout
variable {counts pre rest : List UInt64} {m br : UInt64} {slot slot' row0 row0' : ℕ}

/-- The rows of the slots before. -/
def offset (counts : List UInt64) (slot : ℕ) : ℕ := ((counts.take slot).map UInt64.toNat).sum

/-- The rows of the batch. -/
def totalRows (counts : List UInt64) : ℕ := (counts.map UInt64.toNat).sum

theorem offset_succ (h : counts[slot]? = some m) : offset counts (slot + 1) = offset counts slot + m.toNat := by
  rw [offset, offset, List.take_add_one, h, Option.toList_some, List.map_append, List.sum_append, List.map_singleton,
    List.sum_singleton]

theorem offset_mono (counts : List UInt64) : Monotone (offset counts) := by
  apply monotone_nat_of_le_succ
  intro slot
  rw [offset, offset, List.take_add_one, List.map_append, List.sum_append]
  exact Nat.le_add_right _ _

/-- A row of the batch is in one slot only, at one row of it. -/
theorem row_unique {m' : UInt64} (h : counts[slot]? = some m) (h' : counts[slot']? = some m') (hrow : row0 < m.toNat)
    (hrow' : row0' < m'.toNat) (heq : offset counts slot + row0 = offset counts slot' + row0') :
    slot = slot' ∧ row0 = row0' := by
  obtain hlt | rfl | hlt := Nat.lt_trichotomy slot slot'
  · have hle : offset counts (slot + 1) ≤ offset counts slot' := offset_mono counts hlt
    rw [offset_succ h] at hle
    omega
  · exact ⟨rfl, Nat.add_left_cancel heq⟩
  · have hle : offset counts (slot' + 1) ≤ offset counts slot := offset_mono counts hlt
    rw [offset_succ h'] at hle
    omega

theorem asI32_of_lt {n : ℕ} (h : n < 2 ^ 31) : asI32 n = n := by
  unfold asI32
  apply Int.bmod_eq_of_le <;> omega

theorem lt_of_asI32 {n k : ℕ} (h : asI32 n = k) : k < 2 ^ 31 := by
  have hlt : asI32 n < ((2 ^ 32 : ℕ) + 1) / 2 := Int.bmod_lt (by decide)
  omega

/-- The rows of the batch that a tile has: its height, or what its slot has left. -/
def Tile.rows (counts : List UInt64) (br : UInt64) (t : Tile) : ℕ × ℕ :=
  (t.qbase.toNat, t.qbase.toNat + min br.toNat ((counts.getD t.slot.toNat 0).toNat - t.row0.toNat))

/-- The tile names a row of a slot, and the row of the batch that it is. -/
def Tile.Placed (counts : List UInt64) (t : Tile) : Prop :=
  ∃ (slot row0 : ℕ) (m : UInt64), counts[slot]? = some m ∧ row0 < m.toNat ∧ t = ⟨slot, row0, (offset counts slot + row0 : ℕ)⟩

theorem rows_at (h : counts[slot]? = some m) (br : UInt64) (row0 : ℕ) (hrow : row0 < m.toNat) :
    Tile.rows counts br ⟨slot, row0, (offset counts slot + row0 : ℕ)⟩ =
      (offset counts slot + row0, offset counts slot + min (row0 + br.toNat) m.toNat) := by
  rw [Tile.rows, Int.toNat_natCast, Int.toNat_natCast, Int.toNat_natCast, List.getD_eq_getElem?_getD, h, Option.getD_some,
    Prod.mk.injEq]
  omega

end Layout

/-- The tiles cover every row of the batch once, each inside one slot and at most the tile height, with its base the
rows of the slots before and its row in the slot. -/
structure Tiled (counts : List UInt64) (br : UInt64) (tiles : List Tile) : Prop where
  covers : Tiles 0 (tiles.map (Tile.rows counts br)) (totalRows counts)
  placed : ∀ t ∈ tiles, t.Placed counts
  oneSlot : ∀ t ∈ tiles, ∃ slot : ℕ, t.slot = slot ∧ offset counts slot ≤ (t.rows counts br).1 ∧
    (t.rows counts br).2 ≤ offset counts (slot + 1)
  height : ∀ t ∈ tiles, (t.rows counts br).2 ≤ (t.rows counts br).1 + br.toNat

/-- The slot and the base of every tile are 32-bit numbers. -/
def Fits (counts : List UInt64) (br : UInt64) : Prop :=
  ∀ slot m row0, counts[slot]? = some m → row0 < m.toNat → br.toNat ∣ row0 →
    slot < 2 ^ 31 ∧ offset counts slot + row0 < 2 ^ 31

section Runs
variable {counts rest : List UInt64} {m br start row0 : UInt64} {slot fuel : ℕ} {rows : List UInt64} {tiles : List Tile}

theorem tiled_of_placed (hcovers : Tiles 0 (tiles.map (Tile.rows counts br)) (totalRows counts))
    (hplaced : ∀ t ∈ tiles, t.Placed counts) : Tiled counts br tiles := by
  refine ⟨hcovers, hplaced, ?_, ?_⟩
  · intro t ht
    obtain ⟨slot, row0, m, hm, hrow, rfl⟩ := hplaced t ht
    refine ⟨slot, rfl, ?_⟩
    rw [rows_at hm br row0 hrow, offset_succ hm]
    omega
  · intro t ht
    exact Nat.add_le_add_left (Nat.min_le_left _ _) _

/-- A tile short of `2 ^ 31` is where the loop has it, and the loop steps on without a wrap. -/
private theorem next_row (hdvd : br.toNat ∣ row0.toNat) (hrow : row0.toNat < 2 ^ 31) :
    (row0 + br).toNat = row0.toNat + br.toNat := by
  rw [UInt64.toNat_add]
  apply Nat.mod_eq_of_lt
  have hbr := br.toNat_lt
  obtain hzero | hpos := Nat.eq_zero_or_pos row0.toNat
  · omega
  · have hle := Nat.le_of_dvd hpos hdvd
    omega

/-- The tiles of one slot, from a row on. -/
theorem slotRows_fits (hbr : 0 < br) (hfits : Fits counts br) (hm : counts[slot]? = some m)
    (hdvd : br.toNat ∣ row0.toNat) (hfuel : m.toNat - row0.toNat < fuel) :
    ∃ rows, slotRows m br fuel row0 = some rows ∧
      (∀ t ∈ rows.map (tileAt slot (UInt64.ofNat (offset counts slot))), t.Placed counts) ∧
      Tiles (offset counts slot + min row0.toNat m.toNat)
        ((rows.map (tileAt slot (UInt64.ofNat (offset counts slot)))).map (Tile.rows counts br))
        (offset counts slot + m.toNat) := by
  induction fuel generalizing row0 with
  | zero => exact absurd hfuel (Nat.not_lt_zero _)
  | succ fuel ih =>
    rw [slotRows]
    by_cases hlt : row0 < m
    · have hrow := UInt64.lt_iff_toNat_lt.mp hlt
      have hbr := UInt64.lt_iff_toNat_lt.mp hbr
      obtain ⟨hslot, hbase⟩ := hfits slot m row0.toNat hm hrow hdvd
      have hnext := next_row hdvd (by omega)
      have hstep : br.toNat ∣ (row0 + br).toNat := hnext ▸ Nat.dvd_add_self_right.mpr hdvd
      obtain ⟨rows, hrows, hplaced, htiles⟩ := ih hstep (by rw [hnext]; change 0 < _ at hbr; omega)
      have htile : tileAt slot (UInt64.ofNat (offset counts slot)) row0 =
          ⟨slot, row0.toNat, (offset counts slot + row0.toNat : ℕ)⟩ := by
        have hsum : (UInt64.ofNat (offset counts slot) + row0).toNat = offset counts slot + row0.toNat := by
          rw [UInt64.toNat_add, UInt64.toNat_ofNat_of_lt' (by rw [UInt64.size]; omega)]
          omega
        rw [tileAt, hsum, asI32_of_lt hslot, asI32_of_lt (by omega), asI32_of_lt hbase]
      refine ⟨row0 :: rows, ?_, ?_, ?_⟩
      · rw [if_pos hlt, hrows]
        rfl
      · rw [List.map_cons, htile]
        exact List.forall_mem_cons.mpr ⟨⟨slot, row0.toNat, m, hm, hrow, rfl⟩, hplaced⟩
      · rw [List.map_cons, List.map_cons, htile, rows_at hm br _ hrow, min_eq_left hrow.le]
        apply Tiles.cons
        · omega
        · rwa [hnext] at htiles
    · refine ⟨[], if_neg hlt, fun t ht => absurd ht List.not_mem_nil, ?_⟩
      rw [min_eq_right (Nat.not_lt.mp fun h => hlt (UInt64.lt_iff_toNat_lt.mpr h))]
      exact Tiles.nil _

/-- What is left of the slots past the last one. -/
theorem offset_of_drop_nil (h : counts.drop slot = []) : offset counts slot = totalRows counts := by
  rw [offset, List.take_of_length_le (List.drop_eq_nil_iff.mp h), totalRows]

private theorem split_drop (h : counts.drop slot = m :: rest) :
    counts[slot]? = some m ∧ counts.drop (slot + 1) = rest ∧
      UInt64.ofNat (offset counts slot) + m = UInt64.ofNat (offset counts (slot + 1)) := by
  have hm : counts[slot]? = some m := by rw [← List.head?_drop, h, List.head?_cons]
  refine ⟨hm, ?_, ?_⟩
  · rw [← List.drop_drop, h, List.drop_one, List.tail_cons]
  · rw [offset_succ hm, UInt64.ofNat_add, UInt64.ofNat_toNat]

/-- The tiles of the slots from one on. -/
theorem tilesFrom_fits (hbr : 0 < br) (hfits : Fits counts br) (hrest : counts.drop slot = rest) :
    ∃ tiles, tilesFrom br (2 ^ 64) slot (UInt64.ofNat (offset counts slot)) rest = some tiles ∧
      (∀ t ∈ tiles, t.Placed counts) ∧
      Tiles (offset counts slot) (tiles.map (Tile.rows counts br)) (totalRows counts) := by
  induction rest generalizing slot with
  | nil => exact ⟨[], rfl, fun t ht => absurd ht List.not_mem_nil, offset_of_drop_nil hrest ▸ Tiles.nil _⟩
  | cons m rest ih =>
    obtain ⟨hm, hdrop, hnext⟩ := split_drop hrest
    have hzero : (0 : UInt64).toNat = 0 := rfl
    have hdvd : br.toNat ∣ (0 : UInt64).toNat := Nat.dvd_zero _
    have hfuel : m.toNat - (0 : UInt64).toNat < 2 ^ 64 := (Nat.sub_le _ _).trans_lt m.toNat_lt
    obtain ⟨rows, hrows, hplaced, htiles⟩ := slotRows_fits hbr hfits hm hdvd hfuel
    rw [hzero, Nat.zero_min, Nat.add_zero] at htiles
    obtain ⟨tiles, hall, hothers, hcover⟩ := ih hdrop
    refine ⟨rows.map (tileAt slot (UInt64.ofNat (offset counts slot))) ++ tiles, ?_, ?_, ?_⟩
    · rw [tilesFrom, hnext, hrows, hall]
      rfl
    · exact List.forall_mem_append.mpr ⟨hplaced, hothers⟩
    · rw [List.map_append]
      rw [offset_succ hm] at hcover
      exact htiles.append hcover

/-- Tiles of a slot that go on where the rows before end are where the loop was: their bases are 32-bit numbers. -/
theorem fits_of_slotRows (hm : counts[slot]? = some m) (hdvd : br.toNat ∣ row0.toNat)
    (hrows : slotRows m br fuel row0 = some rows) (hplaced : ∀ t ∈ rows.map (tileAt slot start), t.Placed counts)
    {others : List (ℕ × ℕ)} {hi : ℕ}
    (htiles : Tiles (offset counts slot + min row0.toNat m.toNat)
      ((rows.map (tileAt slot start)).map (Tile.rows counts br) ++ others) hi) :
    (∀ r, row0.toNat ≤ r → r < m.toNat → br.toNat ∣ r → slot < 2 ^ 31 ∧ offset counts slot + r < 2 ^ 31) ∧
      Tiles (offset counts slot + m.toNat) others hi := by
  induction fuel generalizing row0 rows with
  | zero => cases hrows
  | succ fuel ih =>
    rw [slotRows] at hrows
    by_cases hlt : row0 < m
    · have hrow := UInt64.lt_iff_toNat_lt.mp hlt
      rw [if_pos hlt, Option.map_eq_some_iff] at hrows
      obtain ⟨later, hlater, rfl⟩ := hrows
      rw [List.map_cons] at hplaced
      obtain ⟨⟨slot', row', m', hm', hrow', htile⟩, hplaced⟩ := List.forall_mem_cons.mp hplaced
      rw [List.map_cons, List.map_cons, htile, List.cons_append, tiles_cons_iff, rows_at hm' br row' hrow',
        min_eq_left hrow.le] at htiles
      obtain ⟨hstart, -, htiles⟩ := htiles
      obtain ⟨rfl, rfl⟩ := row_unique hm' hm hrow' hrow hstart
      obtain ⟨hslot, hlocal, hbase⟩ := Tile.mk.inj htile
      have hbase := lt_of_asI32 hbase
      have hnext := next_row hdvd (by omega)
      have hstep : br.toNat ∣ (row0 + br).toNat := hnext ▸ Nat.dvd_add_self_right.mpr hdvd
      obtain rfl : m' = m := Option.some.inj (hm'.symm.trans hm)
      rw [← hnext] at htiles
      obtain ⟨hall, hrest⟩ := ih hstep hlater hplaced htiles
      refine ⟨fun r hr hr' hmul => ?_, hrest⟩
      obtain heq | hgt := Nat.eq_or_lt_of_le hr
      · exact heq ▸ ⟨lt_of_asI32 hslot, hbase⟩
      · have hgap := Nat.le_of_dvd (Nat.sub_pos_of_lt hgt) (Nat.dvd_sub hmul hdvd)
        exact hall r (by omega) hr' hmul
    · have hge := Nat.not_lt.mp fun h => hlt (UInt64.lt_iff_toNat_lt.mpr h)
      rw [if_neg hlt] at hrows
      cases hrows
      rw [min_eq_right hge] at htiles
      exact ⟨fun r hr hr' => absurd (hge.trans hr) (Nat.not_le.mpr hr'), htiles⟩

/-- Tiles that cover the rows from a slot on: the bases in the slots from there on are 32-bit numbers. -/
theorem fits_of_tilesFrom (hrest : counts.drop slot = rest)
    (htiles : tilesFrom br fuel slot start rest = some tiles) (hplaced : ∀ t ∈ tiles, t.Placed counts)
    (hcover : Tiles (offset counts slot) (tiles.map (Tile.rows counts br)) (totalRows counts)) :
    ∀ slot' m row0, slot ≤ slot' → counts[slot']? = some m → row0 < m.toNat → br.toNat ∣ row0 →
      slot' < 2 ^ 31 ∧ offset counts slot' + row0 < 2 ^ 31 := by
  induction rest generalizing slot start tiles with
  | nil =>
    intro slot' m row0 hle hm
    have hlength := List.drop_eq_nil_iff.mp hrest
    rw [List.getElem?_eq_none (hlength.trans hle)] at hm
    cases hm
  | cons m rest ih =>
    obtain ⟨hm, hdrop, -⟩ := split_drop hrest
    rw [tilesFrom] at htiles
    obtain ⟨rows, hrows, htiles⟩ := Option.bind_eq_some_iff.mp htiles
    obtain ⟨later, hlater, htiles⟩ := Option.bind_eq_some_iff.mp htiles
    cases htiles
    obtain ⟨hhere, hothers⟩ := List.forall_mem_append.mp hplaced
    have hdvd : br.toNat ∣ (0 : UInt64).toNat := Nat.dvd_zero _
    have hzero : offset counts slot + min (0 : UInt64).toNat m.toNat = offset counts slot :=
      congrArg (offset counts slot + ·) (Nat.zero_min m.toNat)
    rw [List.map_append, ← hzero] at hcover
    obtain ⟨hrow, hcover⟩ := fits_of_slotRows hm hdvd hrows hhere hcover
    rw [← offset_succ hm] at hcover
    intro slot' m' row0 hle hm' hlt hmul
    obtain rfl | hgt := Nat.eq_or_lt_of_le hle
    · obtain rfl := Option.some.inj (hm.symm.trans hm')
      exact hrow row0 (Nat.zero_le _) hlt hmul
    · exact ih hdrop hlater hothers hcover slot' m' row0 hgt hm' hlt hmul

private theorem slotRows_unique {fuel' : ℕ} {rows' : List UInt64} (h : slotRows m br fuel row0 = some rows)
    (h' : slotRows m br fuel' row0 = some rows') : rows = rows' := by
  induction fuel generalizing fuel' row0 rows rows' with
  | zero => cases h
  | succ fuel ih =>
    cases fuel' with
    | zero => cases h'
    | succ fuel' =>
      rw [slotRows] at h h'
      split at h
      · next hlt =>
        rw [if_pos hlt] at h'
        obtain ⟨later, hlater, rfl⟩ := Option.map_eq_some_iff.mp h
        obtain ⟨later', hlater', rfl⟩ := Option.map_eq_some_iff.mp h'
        exact congrArg (row0 :: ·) (ih hlater hlater')
      · next hge =>
        rw [if_neg hge] at h'
        cases h
        cases h'
        rfl

private theorem tilesFrom_unique {fuel' : ℕ} {tiles' : List Tile} (h : tilesFrom br fuel slot start rest = some tiles)
    (h' : tilesFrom br fuel' slot start rest = some tiles') : tiles = tiles' := by
  induction rest generalizing slot start tiles tiles' with
  | nil =>
    cases h
    cases h'
    rfl
  | cons m rest ih =>
    rw [tilesFrom] at h h'
    obtain ⟨rows, hrows, h⟩ := Option.bind_eq_some_iff.mp h
    obtain ⟨later, hlater, h⟩ := Option.bind_eq_some_iff.mp h
    obtain ⟨rows', hrows', h'⟩ := Option.bind_eq_some_iff.mp h'
    obtain ⟨later', hlater', h'⟩ := Option.bind_eq_some_iff.mp h'
    cases h
    cases h'
    rw [slotRows_unique hrows hrows', ih hlater hlater']

end Runs

section Batch
variable {counts : List UInt64} {br : UInt64} {fuel : ℕ} {tiles : List Tile}

/-- The loops build one list of tiles, however many rounds they are given. -/
theorem buildTiles_unique {fuel' : ℕ} {tiles' : List Tile} (h : buildTiles counts br fuel = some tiles)
    (h' : buildTiles counts br fuel' = some tiles') : tiles = tiles' := by
  rw [buildTiles] at h h'
  split at h
  · next hbr =>
    rw [if_pos hbr] at h'
    exact tilesFrom_unique h h'
  · cases h

theorem fits_of_tiled (h : buildTiles counts br fuel = some tiles) (htiled : Tiled counts br tiles) :
    0 < br ∧ Fits counts br := by
  rw [buildTiles] at h
  split at h
  · next hbr =>
    refine ⟨hbr, fun slot m row0 hm hrow hmul => ?_⟩
    exact fits_of_tilesFrom List.drop_zero h htiled.placed htiled.covers slot m row0 (Nat.zero_le _) hm hrow hmul
  · cases h

/-- Tiles that cover the batch are built exactly if they have a height and 32 bits hold their slots and bases. -/
theorem buildTiles_iff (counts : List UInt64) (br : UInt64) :
    (∃ fuel tiles, buildTiles counts br fuel = some tiles ∧ Tiled counts br tiles) ↔ 0 < br ∧ Fits counts br := by
  constructor
  · rintro ⟨fuel, tiles, h, htiled⟩
    exact fits_of_tiled h htiled
  · rintro ⟨hbr, hfits⟩
    have hall : counts.drop 0 = counts := List.drop_zero
    obtain ⟨tiles, htiles, hplaced, hcover⟩ := tilesFrom_fits hbr hfits hall
    refine ⟨2 ^ 64, tiles, ?_, tiled_of_placed hcover hplaced⟩
    rw [buildTiles, if_pos hbr]
    exact htiles

/-- The second tile of a slot with `2 ^ 31 + 1` rows gets a negative base. -/
theorem base_wraps : buildTiles [2147483649] 2147483648 3 = some [⟨0, 0, 0⟩, ⟨0, -2147483648, -2147483648⟩] ∧
    ¬ Tiled [2147483649] 2147483648 [⟨0, 0, 0⟩, ⟨0, -2147483648, -2147483648⟩] := by
  have hbuild : buildTiles [2147483649] 2147483648 3 = some [⟨0, 0, 0⟩, ⟨0, -2147483648, -2147483648⟩] := by
    decide +kernel
  refine ⟨hbuild, fun htiled => ?_⟩
  obtain ⟨-, hfits⟩ := fits_of_tiled hbuild htiled
  have hrow : 2147483648 < (2147483649 : UInt64).toNat := by decide
  have hbase := (hfits 0 2147483649 2147483648 rfl hrow (by decide)).2
  exact absurd hbase (by decide)

end Batch
end Hipscope.Kv
