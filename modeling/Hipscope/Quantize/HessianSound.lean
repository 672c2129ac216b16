import Hipscope.Lists.Traverse
import Hipscope.Quantize.HessianIo

/-! On which files the opened index is sound. -/
namespace Hipscope.Quantize.HessianIo
open Bytes Hipscope.Lists Redline Swap Text

/-- Every element of the view can be read. -/
structure Readable (r : HessianRef) : Prop where
  elements : ∀ i j, i < r.k → j < r.k → (r.elementAt i j).isSome
  all : ∃ values, r.iterF64 = some values ∧ values.length = r.k * r.k

/-- The view into a record of the file. -/
def Record.view (r : Record) (mmap : Mmap) : HessianRef :=
  ⟨r.name, r.entry.expertIdx, r.entry.k, r.entry.dtype, (mmap.bytes.drop r.entry.payloadOffset).take r.entry.payloadBytes⟩

/-- The index of a file that announces `n` records. -/
structure Indexes (sidecar : HessianSidecar) (n : ℕ) : Prop where
  counted : sidecar.nTensors = n
  inside : ∀ key entry, sidecar.index.lookup key = some entry →
    entry.nameOffset + entry.nameLen ≤ sidecar.mmap.bytes.length ∧
      entry.payloadOffset + entry.payloadBytes ≤ sidecar.mmap.bytes.length ∧
      entry.payloadBytes = entry.k * entry.k * entry.dtype.sizeBytes
  gets : ∀ name expertIdx, ∃ found, sidecar.get name expertIdx = some found ∧ ∀ r ∈ found, Readable r
  lists : ∃ refs, sidecar.tensors = some refs ∧ ∀ r ∈ refs, Readable r
  tiled : ∃ records stop, records.length = n ∧ Tiles sidecar.mmap.bytes headerSize records stop ∧
    ∀ r ∈ records, sidecar.index.lookup r.key = some r.entry ∧
      sidecar.get r.name r.entry.expertIdx = some (some (r.view sidecar.mmap))

/-- Opening neither panics nor overflows, and what it gives is the index of the file. -/
def Sound (roomFor : ℕ → Bool) (mmap : Mmap) : Prop :=
  openSidecar roomFor mmap ≠ none ∧ ∀ sidecar, openSidecar roomFor mmap = some (.ok sidecar) →
    sidecar.mmap = mmap ∧ ∃ n, Announces mmap n ∧ Indexes sidecar n

/-- A table can be made for the records announced, no record that the walk comes to ends past `usize`,
and no two records have the same key. -/
def Clean (roomFor : ℕ → Bool) (mmap : Mmap) : Prop :=
  ∀ n, Announces mmap n → roomFor n = true ∧
    (∀ records stop r, records.length < n → Tiles mmap.bytes headerSize records stop → Stands mmap.bytes stop r →
      r.stop < 2 ^ 64) ∧
    ∀ records stop, records.length = n → Tiles mmap.bytes headerSize records stop → (records.map Record.key).Nodup

section View
variable {r : HessianRef}

/-- A payload of `k * k` elements, addressed by the number of the element. -/
private theorem slice_element (hlength : r.bytes.length = r.k * r.k * r.dtype.sizeBytes) (hfits : r.bytes.length < 2 ^ 63)
    {cell : ℕ} (hcell : cell < r.k * r.k) :
    ∃ word, mulUsize cell r.dtype.sizeBytes = some (cell * r.dtype.sizeBytes) ∧
      sliceAt r.bytes (cell * r.dtype.sizeBytes) r.dtype.sizeBytes = some word := by
  have hend : cell * r.dtype.sizeBytes + r.dtype.sizeBytes ≤ r.bytes.length := by
    rw [hlength, ← Nat.succ_mul]
    exact Nat.mul_le_mul_right _ hcell
  obtain ⟨word, -, hword⟩ := sliceAt_isSome (by omega) hend
  exact ⟨_, mulUsize_of_lt (by omega), hword⟩

theorem readable_of_length (hk : r.k < 2 ^ 32) (hlength : r.bytes.length = r.k * r.k * r.dtype.sizeBytes)
    (hfits : r.bytes.length < 2 ^ 63) : Readable r := by
  have hsquare : r.k * r.k < 2 ^ 64 := (Nat.mul_lt_mul'' hk hk).trans_le (by decide)
  constructor
  · intro i j hi hj
    have hcell : i * r.k + j < r.k * r.k := by
      have hrow := Nat.mul_le_mul_right r.k (Nat.succ_le_of_lt hi)
      rw [Nat.succ_mul] at hrow
      omega
    obtain ⟨word, hoff, hword⟩ := slice_element hlength hfits hcell
    rw [HessianRef.elementAt, if_pos ⟨hi, hj⟩, mulUsize_of_lt (by omega)]
    simp only [Option.bind_eq_bind, Option.bind_some]
    rw [addUsize_of_lt (by omega)]
    simp only [Option.bind_some, hoff, hword]
    rfl
  · rw [HessianRef.iterF64, mulUsize_of_lt hsquare]
    refine (mapM_all (P := fun _ => True) (List.range (r.k * r.k)) fun i hi => ?_).imp fun values h =>
      ⟨h.1, h.2.1.trans List.length_range⟩
    obtain ⟨word, hoff, hword⟩ := slice_element hlength hfits (List.mem_range.mp hi)
    simp only [Option.bind_eq_bind, hoff, hword, Option.bind_some]
    exact ⟨_, rfl, trivial⟩

theorem Record.view_readable {mmap : Mmap} {pos : ℕ} {r : Record} (h : Stands mmap.bytes pos r)
    (hstop : r.stop ≤ mmap.bytes.length) : Readable (r.view mmap) := by
  have hlength : (r.view mmap).bytes.length = r.entry.payloadBytes := by
    change ((mmap.bytes.drop r.entry.payloadOffset).take r.entry.payloadBytes).length = _
    rw [List.length_take, List.length_drop]
    rw [Record.stop] at hstop
    omega
  apply readable_of_length
  · exact h.k_lt
  · rw [hlength, h.payload]
    rfl
  · rw [hlength]
    have hfits := mmap.fits
    rw [Record.stop] at hstop
    omega

end View

section Indexed
variable {mmap : List UInt8} {records : List Record}

theorem lookup_indexed_of_notMem {key : Key} (records : List Record) (h : key ∉ records.map Record.key) :
    ∀ index : Index, (indexed records index).lookup key = index.lookup key := by
  induction records with
  | nil => exact fun _ => rfl
  | cons r records ih =>
    intro index
    rw [List.map_cons, List.mem_cons, not_or] at h
    exact (ih h.2 _).trans (AList.lookup_insert_ne h.1)

/-- What the index has under a key is of one of the records. -/
theorem lookup_indexed {key : Key} {entry : TensorEntry} (records : List Record) :
    ∀ index : Index, (indexed records index).lookup key = some entry →
      index.lookup key = some entry ∨ ∃ r ∈ records, r.key = key ∧ r.entry = entry := by
  induction records with
  | nil => exact fun _ h => .inl h
  | cons r records ih =>
    intro index h
    obtain h | ⟨r', hr', hkey⟩ := ih _ h
    · by_cases hkey : key = r.key
      · rw [hkey, AList.lookup_insert] at h
        exact .inr ⟨r, List.mem_cons_self, hkey.symm, Option.some.inj h⟩
      · rw [AList.lookup_insert_ne hkey] at h
        exact .inl h
    · exact .inr ⟨r', List.mem_cons_of_mem r hr', hkey⟩

theorem lookup_indexed_of_nodup (records : List Record) (h : (records.map Record.key).Nodup) :
    ∀ index : Index, ∀ r ∈ records, (indexed records index).lookup r.key = some r.entry := by
  induction records with
  | nil => exact fun _ r hr => absurd hr List.not_mem_nil
  | cons r records ih =>
    intro index r' hr'
    rw [List.map_cons, List.nodup_cons] at h
    obtain rfl | hr' := List.mem_cons.mp hr'
    · exact (lookup_indexed_of_notMem records h.1 _).trans (AList.lookup_insert _)
    · exact ih h.2 _ r' hr'

theorem length_indexed (records : List Record) (h : (records.map Record.key).Nodup) :
    ∀ index : Index, (∀ r ∈ records, r.key ∉ index) →
      (indexed records index).entries.length = index.entries.length + records.length := by
  induction records with
  | nil => exact fun _ _ => rfl
  | cons r records ih =>
    intro index hfresh
    rw [List.map_cons, List.nodup_cons] at h
    have hnext : ∀ r' ∈ records, r'.key ∉ index.insert r.key r.entry := by
      intro r' hr' hin
      obtain heq | hin := (AList.mem_insert _).mp hin
      · exact h.1 (heq ▸ List.mem_map_of_mem hr')
      · exact hfresh r' (List.mem_cons_of_mem r hr') hin
    have hlength := ih h.2 _ hnext
    rw [AList.entries_insert_of_notMem (hfresh r List.mem_cons_self), List.length_cons] at hlength
    rw [List.length_cons]
    change (indexed records (index.insert r.key r.entry)).entries.length = _
    omega

end Indexed

section Tiling
variable {mmap : List UInt8}

theorem Tiles.unique (records : List Record) :
    ∀ pos records' stop stop', records.length = records'.length → Tiles mmap pos records stop → Tiles mmap pos records' stop' →
      records = records' := by
  induction records with
  | nil => exact fun _ _ _ _ hlength _ _ => (List.length_eq_zero_iff.mp hlength.symm).symm
  | cons r records ih =>
    intro pos records' stop stop' hlength h h'
    cases records' with
    | nil => cases hlength
    | cons r' records' =>
      obtain rfl := h.1.unique h'.1
      rw [ih _ _ _ _ (Nat.succ.inj hlength) h.2.2 h'.2.2]

theorem Tiles.mem {r : Record} (records : List Record) :
    ∀ pos stop, Tiles mmap pos records stop → r ∈ records →
      ∃ start, pos ≤ start ∧ Stands mmap start r ∧ r.stop ≤ mmap.length := by
  induction records with
  | nil => exact fun _ _ _ hr => absurd hr List.not_mem_nil
  | cons r' records ih =>
    intro pos stop h hr
    obtain rfl | hr := List.mem_cons.mp hr
    · exact ⟨pos, le_rfl, h.1, h.2.1⟩
    · obtain ⟨start, hstart, hstands⟩ := ih _ _ h.2.2 hr
      refine ⟨start, le_trans ?_ hstart, hstands⟩
      rw [Record.stop, h.1.payloadOffset_eq, h.1.nameOffset_eq]
      omega

/-- Records that come later have their names later. -/
theorem Tiles.ascending (records : List Record) :
    ∀ pos stop, Tiles mmap pos records stop →
      records.Pairwise fun a b => a.entry.nameOffset < b.entry.nameOffset := by
  induction records with
  | nil => exact fun _ _ _ => List.Pairwise.nil
  | cons r records ih =>
    intro pos stop h
    refine List.pairwise_cons.mpr ⟨fun r' hr' => ?_, ih _ _ h.2.2⟩
    obtain ⟨start, hstart, hstands, -⟩ := Tiles.mem records _ _ h.2.2 hr'
    rw [Record.stop, h.1.payloadOffset_eq] at hstart
    rw [hstands.nameOffset_eq]
    omega

end Tiling
section Index
variable {mmap : Mmap} {records : List Record} {stop : ℕ}

theorem get_of_stands {index : Index} {key : Key} {r : Record} {pos : ℕ} (hlookup : index.lookup key = some r.entry)
    (h : Stands mmap.bytes pos r) (hstop : r.stop ≤ mmap.bytes.length) :
    HessianSidecar.get ⟨mmap, index⟩ key.1 key.2 = some (some (r.view mmap)) := by
  have hwide : mmap.bytes.length < 2 ^ 64 := mmap.fits.trans (by decide)
  obtain ⟨word, hlength, hword, hname⟩ := h.name
  have hpayload := (sliceAt_eq_some_iff hwide).mpr (Consumes.slice hstop)
  rw [HessianSidecar.get, Prod.mk.eta, hlookup]
  simp only [(sliceAt_eq_some_iff hwide).mpr ⟨hlength, hword⟩, hname, hpayload, Option.bind_eq_bind, Option.bind_some]
  rfl

/-- The index of tiling records whose keys differ. -/
theorem indexes_of_tiles (htiles : Tiles mmap.bytes headerSize records stop) (hkeys : (records.map Record.key).Nodup) :
    Indexes ⟨mmap, indexed records ∅⟩ records.length := by
  have hwide : mmap.bytes.length < 2 ^ 64 := mmap.fits.trans (by decide)
  have hfound {key : Key} {entry : TensorEntry} (h : (indexed records ∅).lookup key = some entry) :
      ∃ r pos, r.entry = entry ∧ Stands mmap.bytes pos r ∧ r.stop ≤ mmap.bytes.length := by
    obtain h | ⟨r, hr, -, hentry⟩ := lookup_indexed records ∅ h
    · rw [AList.lookup_empty] at h
      cases h
    · obtain ⟨pos, -, hstands, hstop⟩ := Tiles.mem records _ _ htiles hr
      exact ⟨r, pos, hentry, hstands, hstop⟩
  constructor
  · rw [HessianSidecar.nTensors, length_indexed records hkeys ∅ fun r _ => AList.notMem_empty _]
    exact Nat.zero_add _
  · intro key entry h
    obtain ⟨r, pos, rfl, hstands, hstop⟩ := hfound h
    refine ⟨?_, hstop, hstands.payload⟩
    have hinside := hstands.payloadOffset_le
    rw [hstands.payloadOffset_eq] at hinside
    change r.entry.nameOffset + r.entry.nameLen ≤ mmap.bytes.length
    omega
  · intro name expertIdx
    cases hlookup : (indexed records ∅).lookup (name, expertIdx) with
    | none =>
      refine ⟨none, ?_, fun r hr => absurd hr (Option.not_mem_none r)⟩
      rw [HessianSidecar.get, hlookup]
    | some entry =>
      obtain ⟨r, pos, rfl, hstands, hstop⟩ := hfound hlookup
      refine ⟨some (r.view mmap), get_of_stands hlookup hstands hstop, fun view hview => ?_⟩
      obtain rfl := Option.some.inj hview
      exact Record.view_readable hstands hstop
  · refine (mapM_all (P := Readable) (indexed records ∅).entries fun stored hstored => ?_).imp fun refs h => ⟨h.1, h.2.2⟩
    obtain ⟨r, pos, hentry, hstands, hstop⟩ := hfound (AList.mem_lookup_iff.mpr hstored)
    obtain ⟨word, hlength, hword, hname⟩ := hstands.name
    have hpayload := (sliceAt_eq_some_iff hwide).mpr (Consumes.slice hstop)
    refine ⟨r.view mmap, ?_, Record.view_readable hstands hstop⟩
    simp only [← hentry, (sliceAt_eq_some_iff hwide).mpr ⟨hlength, hword⟩, hname, hpayload, Option.bind_eq_bind,
      Option.bind_some]
    rfl
  · refine ⟨records, stop, rfl, htiles, fun r hr => ?_⟩
    have hlookup := lookup_indexed_of_nodup records hkeys ∅ r hr
    obtain ⟨pos, -, hstands, hstop⟩ := Tiles.mem records _ _ htiles hr
    exact ⟨hlookup, get_of_stands hlookup hstands hstop⟩

/-- Records that are all found under their keys have different keys. -/
theorem Indexes.nodup {sidecar : HessianSidecar} (h : Indexes sidecar records.length)
    (htiles : Tiles sidecar.mmap.bytes headerSize records stop) : (records.map Record.key).Nodup := by
  obtain ⟨records', stop', hlength, htiles', hfound⟩ := h.tiled
  obtain rfl := Tiles.unique records' _ _ _ _ hlength htiles' htiles
  rw [List.Nodup, List.pairwise_map]
  apply (Tiles.ascending records' _ _ htiles).imp_of_mem
  intro a b ha hb hbefore hkeys
  have hentries : some a.entry = some b.entry := by rw [← (hfound a ha).1, ← (hfound b hb).1, hkeys]
  rw [Option.some.inj hentries] at hbefore
  exact absurd hbefore (lt_irrefl _)

end Index
theorem Announces.unique {mmap : Mmap} {m n : ℕ} (h : Announces mmap m) (h' : Announces mmap n) : m = n := by
  obtain ⟨hm, _, h⟩ := h
  obtain ⟨hn, _, h'⟩ := h'
  have hwords := List.append_cancel_left (List.append_cancel_left (h.word_eq h'))
  exact toLeBytes_inj hm hn (List.append_inj_left hwords (by rw [toLeBytes_length, toLeBytes_length]))

theorem openSidecar_ok {roomFor : ℕ → Bool} {mmap : Mmap} {sidecar : HessianSidecar} {n : ℕ} (h : Announces mmap n)
    (hroom : roomFor n = true) :
    openSidecar roomFor mmap = some (.ok sidecar) ↔
      ∃ records stop, records.length = n ∧ Tiles mmap.bytes headerSize records stop ∧ sidecar = ⟨mmap, indexed records ∅⟩ := by
  obtain ⟨-, _, hheader⟩ := id h
  rw [openSidecar_announced h, if_pos hroom, Option.map_eq_some_iff]
  constructor
  · rintro ⟨walked, hwalk, hsidecar⟩
    cases walked with
    | error e => cases hsidecar
    | ok index =>
      obtain ⟨records, stop, hlength, htiles, rfl⟩ := (walk_ok mmap.fits n _ _ _ hheader.inside).mp hwalk
      cases hsidecar
      exact ⟨records, stop, hlength, htiles, rfl⟩
  · rintro ⟨records, stop, hlength, htiles, rfl⟩
    exact ⟨.ok (indexed records ∅), (walk_ok mmap.fits n _ _ _ hheader.inside).mpr ⟨records, stop, hlength, htiles, rfl⟩, rfl⟩

theorem openSidecar_none {roomFor : ℕ → Bool} {mmap : Mmap} {n : ℕ} (h : Announces mmap n) :
    openSidecar roomFor mmap = none ↔ roomFor n = false ∨
      ∃ records stop r, records.length < n ∧ Tiles mmap.bytes headerSize records stop ∧ Stands mmap.bytes stop r ∧
        2 ^ 64 ≤ r.stop := by
  obtain ⟨-, _, hheader⟩ := id h
  rw [openSidecar_announced h]
  cases hroom : roomFor n with
  | false => simp
  | true =>
    rw [if_pos rfl, Option.map_eq_none_iff, walk_none mmap.fits n _ _ hheader.inside]
    simp

/-- Opening is sound exactly on the files that announce no more records than a table can be made for,
whose records end inside `usize` and have keys of their own. -/
theorem sound_iff_clean (roomFor : ℕ → Bool) (mmap : Mmap) : Sound roomFor mmap ↔ Clean roomFor mmap := by
  constructor
  · rintro ⟨hsome, hok⟩ n h
    rw [Ne, openSidecar_none h, not_or] at hsome
    have hroom : roomFor n = true := by simpa using hsome.1
    refine ⟨hroom, fun records stop r hlength htiles hstands => ?_, fun records stop hlength htiles => ?_⟩
    · by_contra hover
      exact hsome.2 ⟨records, stop, r, hlength, htiles, hstands, Nat.not_lt.mp hover⟩
    · obtain ⟨-, n', h', hindexes⟩ := hok _ ((openSidecar_ok h hroom).mpr ⟨records, stop, hlength, htiles, rfl⟩)
      rw [h'.unique h, ← hlength] at hindexes
      exact hindexes.nodup htiles
  · intro hclean
    by_cases hheader : ∃ n, Announces mmap n
    · obtain ⟨n, h⟩ := hheader
      obtain ⟨hroom, hends, hkeys⟩ := hclean n h
      constructor
      · rw [Ne, openSidecar_none h]
        rintro (hfull | ⟨records, stop, r, hlength, htiles, hstands, hover⟩)
        · rw [hroom] at hfull
          cases hfull
        · exact absurd (hends records stop r hlength htiles hstands) (Nat.not_lt.mpr hover)
      · intro sidecar hsidecar
        obtain ⟨records, stop, hlength, htiles, rfl⟩ := (openSidecar_ok h hroom).mp hsidecar
        exact ⟨rfl, n, h, hlength ▸ indexes_of_tiles htiles (hkeys records stop hlength htiles)⟩
    · obtain ⟨e, herror⟩ : ∃ e, openSidecar roomFor mmap = some (.error e) := openSidecar_silent (not_exists.mp hheader)
      rw [Sound, herror]
      exact ⟨Option.some_ne_none _, fun sidecar h => by cases h⟩

/-- Tables of up to `7 * 2 ^ 53` records. -/
def standardRoom (n : ℕ) : Bool := n ≤ 7 * 2 ^ 53

private def header (n : ℕ) : List UInt8 :=
  hfhsMagic ++ (toLeBytes 4 hfhsVersionSupported.toNat ++ (toLeBytes 8 n ++ toLeBytes 8 0))

/-- A nameless record of expert 0 in single precision, without its payload. -/
private def nameless (k : ℕ) : List UInt8 := toLeBytes 4 0 ++ (toLeBytes 4 0 ++ (toLeBytes 4 k ++ toLeBytes 4 1))

/-- A header alone that announces `2 ^ 64 - 1` records. -/
def announcesMuch : Mmap := ⟨header (2 ^ 64 - 1), by decide⟩

/-- One record with `k = 2 ^ 31`. -/
def squaresTooFar : Mmap := ⟨header 1 ++ nameless (2 ^ 31), by decide⟩

/-- Two empty records of one key. -/
def saysTwice : Mmap := ⟨header 2 ++ (nameless 0 ++ nameless 0), by decide⟩

theorem open_not_sound :
    ¬Sound standardRoom announcesMuch ∧ ¬Sound standardRoom squaresTooFar ∧ ¬Sound standardRoom saysTwice := by
  have hmuch : openSidecar standardRoom announcesMuch = none := by decide
  have hfar : openSidecar standardRoom squaresTooFar = none := by decide
  have htwo : Announces saysTwice 2 := ⟨by decide, 0, by decide, by decide, rfl⟩
  refine ⟨fun h => h.1 hmuch, fun h => h.1 hfar, fun h => ?_⟩
  obtain ⟨-, n, hn, hindexes⟩ := h.2 _ rfl
  have hone : n = 1 := hindexes.counted.symm
  exact absurd (hone.symm.trans (hn.unique htwo)) (by decide)

end Hipscope.Quantize.HessianIo
