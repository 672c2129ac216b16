import Hipscope.Swap.Snapshot
import Hipscope.Text.Utf8
import Mathlib.Data.List.AList

/-! The Hessian sidecar: an index over the records of a mapped file. `none` is a panic: a product or
sum past `usize`, a slice past the end, a table that cannot be allocated. -/
namespace Hipscope.Quantize.HessianIo
open Bytes Redline Swap Text

/-- "HFHS" -/
def hfhsMagic : List UInt8 := [0x48, 0x46, 0x48, 0x53]

def hfhsVersionSupported : UInt32 := 1

def headerSize : ℕ := 24

inductive HessianError where
  | invalidMagic (magic : List UInt8)
  | unsupportedVersion (version : UInt32)
  | truncatedFile (needed available : ℕ)
  | unknownDtype (flag : UInt32)
  deriving DecidableEq

inductive HessianDtype where
  | f32
  | f64
  deriving DecidableEq

def HessianDtype.sizeBytes : HessianDtype → ℕ
  | .f32 => 4
  | .f64 => 8

def HessianDtype.flag : HessianDtype → UInt32
  | .f32 => 1
  | .f64 => 2

def HessianDtype.ofFlag (flag : UInt32) : Option HessianDtype :=
  if flag = 1 then some .f32 else if flag = 2 then some .f64 else none

/-- A mapping has at most `isize::MAX` bytes. -/
structure Mmap where
  bytes : List UInt8
  fits : bytes.length < 2 ^ 63

structure TensorEntry where
  nameOffset : ℕ
  nameLen : ℕ
  expertIdx : UInt32
  k : ℕ
  dtype : HessianDtype
  payloadOffset : ℕ
  payloadBytes : ℕ
  deriving DecidableEq

/-- What the walk keeps of one record: its name and where its parts are. -/
structure Record where
  name : List Char
  entry : TensorEntry
  deriving DecidableEq

abbrev Key := List Char × UInt32

def Record.key (r : Record) : Key := (r.name, r.entry.expertIdx)

/-- The first byte behind the record. -/
def Record.stop (r : Record) : ℕ := r.entry.payloadOffset + r.entry.payloadBytes

abbrev Index := AList fun _ : Key => TensorEntry

structure HessianSidecar where
  mmap : Mmap
  index : Index

/-- One turn of the walk. -/
def readRecord (mmap : List UInt8) (pos : ℕ) : Option (Except HessianError Record) := do
  let needed ← addUsize pos 4
  if mmap.length < needed then some (.error (.truncatedFile needed mmap.length))
  else do
    let (nameLen, nameOffset) ← u32At mmap pos
    let stop ← addUsize nameOffset nameLen.toNat
    let needed ← addUsize stop 12
    if mmap.length < needed then some (.error (.truncatedFile needed mmap.length))
    else do
      let (word, pos) ← sliceAt mmap nameOffset nameLen.toNat
      match fromUtf8 word with
      | none => some (.error (.invalidMagic [0, 0, 0, 0]))
      | some name => do
        let (expertIdx, pos) ← u32At mmap pos
        let (k, pos) ← u32At mmap pos
        let (flag, pos) ← u32At mmap pos
        match HessianDtype.ofFlag flag with
        | none => some (.error (.unknownDtype flag))
        | some dtype => do
          let square ← mulUsize k.toNat k.toNat
          let payloadBytes ← mulUsize square dtype.sizeBytes
          let needed ← addUsize pos payloadBytes
          if mmap.length < needed then some (.error (.truncatedFile needed mmap.length))
          else some (.ok ⟨name, ⟨nameOffset, nameLen.toNat, expertIdx, k.toNat, dtype, pos, payloadBytes⟩⟩)

/-- The walk over the records; a key that is there already is overwritten. -/
def walk (mmap : List UInt8) : ℕ → ℕ → Index → Option (Except HessianError Index)
  | 0, _, index => some (.ok index)
  | left + 1, pos, index =>
    match readRecord mmap pos with
    | none => none
    | some (.error e) => some (.error e)
    | some (.ok r) => walk mmap left r.stop (index.insert r.key r.entry)

/-- `roomFor` tells the record counts that a hash table can be made for. -/
def openSidecar (roomFor : ℕ → Bool) (mmap : Mmap) : Option (Except HessianError HessianSidecar) :=
  if mmap.bytes.length < headerSize then some (.error (.truncatedFile headerSize mmap.bytes.length))
  else do
    let (magic, pos) ← sliceAt mmap.bytes 0 4
    if magic ≠ hfhsMagic then some (.error (.invalidMagic magic))
    else do
      let (version, pos) ← u32At mmap.bytes pos
      if version ≠ hfhsVersionSupported then some (.error (.unsupportedVersion version))
      else do
        let (nTensors, pos) ← u64At mmap.bytes pos
        let (_, _) ← u64At mmap.bytes pos
        if roomFor nTensors.toNat then
          (walk mmap.bytes nTensors.toNat headerSize ∅).map fun walked => walked.map fun index => ⟨mmap, index⟩
        else none

/-- A view into one record. -/
structure HessianRef where
  name : List Char
  expertIdx : UInt32
  k : ℕ
  dtype : HessianDtype
  bytes : List UInt8
  deriving DecidableEq

/-- All stored records, in the table's order; a name that is no text is left empty. -/
def HessianSidecar.tensors (sidecar : HessianSidecar) : Option (List HessianRef) :=
  sidecar.index.entries.mapM fun indexed => do
    let entry := indexed.2
    let (word, _) ← sliceAt sidecar.mmap.bytes entry.nameOffset entry.nameLen
    let (bytes, _) ← sliceAt sidecar.mmap.bytes entry.payloadOffset entry.payloadBytes
    some ⟨(fromUtf8 word).getD [], entry.expertIdx, entry.k, entry.dtype, bytes⟩

def HessianSidecar.nTensors (sidecar : HessianSidecar) : ℕ := sidecar.index.entries.length

/-- The outer `none` is a panic. -/
def HessianSidecar.get (sidecar : HessianSidecar) (name : List Char) (expertIdx : UInt32) : Option (Option HessianRef) :=
  match sidecar.index.lookup (name, expertIdx) with
  | none => some none
  | some entry => do
    let (word, _) ← sliceAt sidecar.mmap.bytes entry.nameOffset entry.nameLen
    match fromUtf8 word with
    | none => some none
    | some name => do
      let (bytes, _) ← sliceAt sidecar.mmap.bytes entry.payloadOffset entry.payloadBytes
      some (some ⟨name, entry.expertIdx, entry.k, entry.dtype, bytes⟩)

/-- The bits of element `[i, j]`. -/
def HessianRef.elementAt (r : HessianRef) (i j : ℕ) : Option ℕ :=
  if i < r.k ∧ j < r.k then do
    let row ← mulUsize i r.k
    let cell ← addUsize row j
    let off ← mulUsize cell r.dtype.sizeBytes
    let (word, _) ← sliceAt r.bytes off r.dtype.sizeBytes
    some (Swap.ofLeBytes word)
  else none

/-- The bits of all elements, row by row. -/
def HessianRef.iterF64 (r : HessianRef) : Option (List ℕ) := do
  let n ← mulUsize r.k r.k
  (List.range n).mapM fun i => do
    let off ← mulUsize i r.dtype.sizeBytes
    let (word, _) ← sliceAt r.bytes off r.dtype.sizeBytes
    some (Swap.ofLeBytes word)

end Hipscope.Quantize.HessianIo

/-! Opening a sidecar, against the format: which records a file holds, and what the index says of them. -/
namespace Hipscope.Quantize.HessianIo
open Bytes Redline Swap Text

/-- The header of record `r` stands at `pos`: the words of its fields, one behind the other. -/
structure Stands (mmap : List UInt8) (pos : ℕ) (r : Record) : Prop where
  nameLen : Consumes mmap pos (toLeBytes 4 r.entry.nameLen) r.entry.nameOffset
  name : ∃ word, word.length = r.entry.nameLen ∧
    Consumes mmap r.entry.nameOffset word (r.entry.nameOffset + r.entry.nameLen) ∧ fromUtf8 word = some r.name
  expertIdx : Consumes mmap (r.entry.nameOffset + r.entry.nameLen) (toLeBytes 4 r.entry.expertIdx.toNat)
    (r.entry.nameOffset + r.entry.nameLen + 4)
  k : Consumes mmap (r.entry.nameOffset + r.entry.nameLen + 4) (toLeBytes 4 r.entry.k)
    (r.entry.nameOffset + r.entry.nameLen + 8)
  dtype : Consumes mmap (r.entry.nameOffset + r.entry.nameLen + 8) (toLeBytes 4 r.entry.dtype.flag.toNat)
    r.entry.payloadOffset
  payload : r.entry.payloadBytes = r.entry.k * r.entry.k * r.entry.dtype.sizeBytes
  nameLen_lt : r.entry.nameLen < 2 ^ 32
  k_lt : r.entry.k < 2 ^ 32

/-- The records tile the file from one position to the other. -/
def Tiles (mmap : List UInt8) : ℕ → List Record → ℕ → Prop
  | pos, [], stop => pos = stop
  | pos, r :: records, stop => Stands mmap pos r ∧ r.stop ≤ mmap.length ∧ Tiles mmap r.stop records stop

/-- The header announces `n` records. -/
def Announces (mmap : Mmap) (n : ℕ) : Prop :=
  n < 2 ^ 64 ∧ ∃ reserved : UInt64, Consumes mmap.bytes 0
    (hfhsMagic ++ (toLeBytes 4 hfhsVersionSupported.toNat ++ (toLeBytes 8 n ++ toLeBytes 8 reserved.toNat))) headerSize

theorem ofFlag_eq_some_iff {flag : UInt32} {dtype : HessianDtype} :
    HessianDtype.ofFlag flag = some dtype ↔ dtype.flag = flag := by
  rw [HessianDtype.ofFlag]
  constructor
  · intro h
    split_ifs at h with hone htwo
    · cases h
      exact hone.symm
    · cases h
      exact htwo.symm
  · rintro rfl
    cases dtype <;> rfl

section Word
variable {mmap : List UInt8} {o o' stop : ℕ} {m n : ℕ}

theorem word_inj (hm : m < 2 ^ 32) (hn : n < 2 ^ 32) (h : Consumes mmap o (toLeBytes 4 m) o')
    (h' : Consumes mmap o (toLeBytes 4 n) stop) : m = n ∧ o' = stop := by
  have hstop : o' = stop := by rw [h.stop, h'.stop, toLeBytes_length, toLeBytes_length]
  subst hstop
  exact ⟨toLeBytes_inj hm hn (h.word_eq h'), rfl⟩

end Word

namespace Stands
variable {mmap : List UInt8} {pos : ℕ} {r r' : Record}

theorem nameOffset_eq (h : Stands mmap pos r) : r.entry.nameOffset = pos + 4 := by
  rw [h.nameLen.stop, toLeBytes_length]

theorem payloadOffset_eq (h : Stands mmap pos r) : r.entry.payloadOffset = r.entry.nameOffset + r.entry.nameLen + 12 := by
  rw [h.dtype.stop, toLeBytes_length]

theorem payloadOffset_le (h : Stands mmap pos r) : r.entry.payloadOffset ≤ mmap.length := h.dtype.inside

private theorem flag_inj {d d' : HessianDtype} (h : d.flag = d'.flag) : d = d' := by
  cases d <;> cases d' <;> first | rfl | exact absurd h (by decide)

/-- At most one record's header stands at a position. -/
theorem unique (h : Stands mmap pos r) (h' : Stands mmap pos r') : r = r' := by
  obtain ⟨name, nameOffset, nameLen, expertIdx, k, dtype, payloadOffset, payloadBytes⟩ := r
  obtain ⟨name', nameOffset', nameLen', expertIdx', k', dtype', payloadOffset', payloadBytes'⟩ := r'
  obtain ⟨rfl, rfl⟩ : nameLen = nameLen' ∧ nameOffset = nameOffset' :=
    word_inj h.nameLen_lt h'.nameLen_lt h.nameLen h'.nameLen
  obtain ⟨word, -, hword, hname⟩ := h.name
  obtain ⟨word', -, hword', hname'⟩ := h'.name
  have hnames : some name = some name' := by rw [← hname, ← hname', hword.word_eq hword']
  obtain rfl := Option.some.inj hnames
  obtain rfl : expertIdx = expertIdx' :=
    UInt32.toNat_inj.mp (word_inj expertIdx.toNat_lt expertIdx'.toNat_lt h.expertIdx h'.expertIdx).1
  obtain rfl : k = k' := (word_inj h.k_lt h'.k_lt h.k h'.k).1
  obtain ⟨hflag, rfl⟩ : dtype.flag.toNat = dtype'.flag.toNat ∧ payloadOffset = payloadOffset' :=
    word_inj dtype.flag.toNat_lt dtype'.flag.toNat_lt h.dtype h'.dtype
  obtain rfl : dtype = dtype' := flag_inj (UInt32.toNat_inj.mp hflag)
  obtain rfl : payloadBytes = payloadBytes' := h.payload.trans h'.payload.symm
  rfl

end Stands

section Read
variable {mmap : List UInt8} {pos : ℕ}

/-- What one turn of the walk does at a position: a record whose end is past `usize` panics, one that
reaches past the file is reported, one that fits is read; without a record there is an error. -/
inductive Turn (mmap : List UInt8) (pos : ℕ) : Option (Except HessianError Record) → Prop where
  | overflows (r : Record) (h : Stands mmap pos r) (hstop : 2 ^ 64 ≤ r.stop) : Turn mmap pos none
  | truncated (r : Record) (h : Stands mmap pos r) (hstop : mmap.length < r.stop) (hlt : r.stop < 2 ^ 64) (e : HessianError) :
    Turn mmap pos (some (.error e))
  | read (r : Record) (h : Stands mmap pos r) (hstop : r.stop ≤ mmap.length) : Turn mmap pos (some (.ok r))
  | nothing (h : ∀ r, ¬Stands mmap pos r) (e : HessianError) : Turn mmap pos (some (.error e))

theorem readRecord_turn (hfits : mmap.length < 2 ^ 63) (hpos : pos ≤ mmap.length) : Turn mmap pos (readRecord mmap pos) := by
  have hwide : mmap.length < 2 ^ 64 := by omega
  rw [readRecord, addUsize_of_lt (by omega)]
  simp only [Option.bind_eq_bind, Option.bind_some]
  by_cases hfirst : mmap.length < pos + 4
  · rw [if_pos hfirst]
    refine .nothing (fun r h => ?_) _
    have hinside := h.nameLen.inside
    rw [h.nameOffset_eq] at hinside
    omega
  rw [if_neg hfirst]
  obtain ⟨nameLen, hnameLen⟩ := u32At_isSome hwide (by omega : pos + 4 ≤ mmap.length)
  have hlenAt := (u32At_eq_some_iff hwide).mp hnameLen
  have hlen := nameLen.toNat_lt
  rw [hnameLen]
  simp only [Option.bind_some]
  rw [addUsize_of_lt (by omega)]
  simp only [Option.bind_some]
  rw [addUsize_of_lt (by omega)]
  simp only [Option.bind_some]
  have hagree (r : Record) (h : Stands mmap pos r) : r.entry.nameLen = nameLen.toNat ∧ r.entry.nameOffset = pos + 4 :=
    word_inj h.nameLen_lt hlen h.nameLen hlenAt
  by_cases hheader : mmap.length < pos + 4 + nameLen.toNat + 12
  · rw [if_pos hheader]
    refine .nothing (fun r h => ?_) _
    have hinside := h.payloadOffset_le
    rw [h.payloadOffset_eq, (hagree r h).1, (hagree r h).2] at hinside
    omega
  rw [if_neg hheader]
  obtain ⟨word, hlength, hword⟩ := sliceAt_isSome hwide (by omega : pos + 4 + nameLen.toNat ≤ mmap.length)
  have hwordAt := ((sliceAt_eq_some_iff hwide).mp hword).2
  rw [hword]
  simp only [Option.bind_some]
  have hnamed (r : Record) (h : Stands mmap pos r) : fromUtf8 word = some r.name := by
    obtain ⟨word', -, hword', hname⟩ := h.name
    rw [(hagree r h).1, (hagree r h).2] at hword'
    rw [hwordAt.word_eq hword', hname]
  cases hname : fromUtf8 word with
  | none =>
    refine .nothing (fun r h => ?_) _
    rw [hnamed r h] at hname
    cases hname
  | some name =>
    obtain ⟨expertIdx, hexpertIdx⟩ := u32At_isSome hwide (by omega : pos + 4 + nameLen.toNat + 4 ≤ mmap.length)
    obtain ⟨k, hk⟩ := u32At_isSome hwide (by omega : pos + 4 + nameLen.toNat + 4 + 4 ≤ mmap.length)
    obtain ⟨flag, hflag⟩ := u32At_isSome hwide (by omega : pos + 4 + nameLen.toNat + 4 + 4 + 4 ≤ mmap.length)
    have hflagAt := (u32At_eq_some_iff hwide).mp hflag
    simp only [hexpertIdx, hk, hflag, Option.bind_some]
    cases hdtype : HessianDtype.ofFlag flag with
    | none =>
      refine .nothing (fun r h => ?_) _
      have hflags := h.dtype
      rw [(hagree r h).1, (hagree r h).2] at hflags
      have heq := UInt32.toNat_inj.mp (word_inj r.entry.dtype.flag.toNat_lt flag.toNat_lt hflags hflagAt).1
      rw [ofFlag_eq_some_iff.mpr heq] at hdtype
      cases hdtype
    | some dtype =>
      have hsquare : k.toNat * k.toNat < 2 ^ 64 :=
        (Nat.mul_lt_mul'' k.toNat_lt k.toNat_lt).trans_le (by decide)
      have hstands : Stands mmap pos ⟨name, pos + 4, nameLen.toNat, expertIdx, k.toNat, dtype,
          pos + 4 + nameLen.toNat + 4 + 4 + 4, k.toNat * k.toNat * dtype.sizeBytes⟩ :=
        { nameLen := hlenAt
          name := ⟨word, hlength, hwordAt, hname⟩
          expertIdx := (u32At_eq_some_iff hwide).mp hexpertIdx
          k := (u32At_eq_some_iff hwide).mp hk
          dtype := (ofFlag_eq_some_iff.mp hdtype).symm ▸ hflagAt
          payload := rfl
          nameLen_lt := hlen
          k_lt := k.toNat_lt }
      simp only [mulUsize_of_lt hsquare, Option.bind_some]
      by_cases hproduct : k.toNat * k.toNat * dtype.sizeBytes < 2 ^ 64
      · rw [mulUsize_of_lt hproduct, Option.bind_some]
        by_cases hsum : pos + 4 + nameLen.toNat + 4 + 4 + 4 + k.toNat * k.toNat * dtype.sizeBytes < 2 ^ 64
        · rw [addUsize_of_lt hsum, Option.bind_some]
          split
          · rename_i hlong
            exact .truncated _ hstands hlong hsum _
          · rename_i hinside
            exact .read _ hstands (Nat.not_lt.mp hinside)
        · rw [addUsize, if_neg hsum]
          exact .overflows _ hstands (Nat.not_lt.mp hsum)
      · rw [mulUsize, if_neg hproduct]
        exact .overflows _ hstands ((Nat.not_lt.mp hproduct).trans (Nat.le_add_left _ _))

theorem readRecord_ok (hfits : mmap.length < 2 ^ 63) (hpos : pos ≤ mmap.length) {r : Record} :
    readRecord mmap pos = some (.ok r) ↔ Stands mmap pos r ∧ r.stop ≤ mmap.length := by
  have hturn := readRecord_turn hfits hpos
  constructor
  · intro h
    rw [h] at hturn
    cases hturn with
    | read _ hstands hstop => exact ⟨hstands, hstop⟩
  · rintro ⟨hstands, hstop⟩
    generalize readRecord mmap pos = out at hturn
    cases hturn with
    | overflows r' h hover =>
      rw [h.unique hstands] at hover
      omega
    | truncated r' h hlong _ _ =>
      rw [h.unique hstands] at hlong
      omega
    | read r' h _ => rw [h.unique hstands]
    | nothing h _ => exact absurd hstands (h r)

theorem readRecord_none (hfits : mmap.length < 2 ^ 63) (hpos : pos ≤ mmap.length) :
    readRecord mmap pos = none ↔ ∃ r, Stands mmap pos r ∧ 2 ^ 64 ≤ r.stop := by
  have hturn := readRecord_turn hfits hpos
  constructor
  · intro h
    rw [h] at hturn
    cases hturn with
    | overflows r h hstop => exact ⟨r, h, hstop⟩
  · rintro ⟨r, hstands, hstop⟩
    generalize readRecord mmap pos = out at hturn
    cases hturn with
    | overflows _ _ _ => rfl
    | truncated r' h _ hlt _ =>
      rw [h.unique hstands] at hlt
      omega
    | read r' h hinside =>
      rw [h.unique hstands] at hinside
      omega
    | nothing h _ => exact absurd hstands (h r)

end Read
section Walk
variable {mmap : List UInt8}

/-- The index that the records leave, a later one over an earlier of the same key. -/
def indexed (records : List Record) (index : Index) : Index := records.foldl (fun index r => index.insert r.key r.entry) index

theorem walk_none (hfits : mmap.length < 2 ^ 63) (left : ℕ) :
    ∀ pos index, pos ≤ mmap.length → (walk mmap left pos index = none ↔
      ∃ records stop r, records.length < left ∧ Tiles mmap pos records stop ∧ Stands mmap stop r ∧ 2 ^ 64 ≤ r.stop) := by
  induction left with
  | zero =>
    intro pos index _
    constructor
    · intro h
      cases h
    · rintro ⟨_, _, _, hlength, -⟩
      exact absurd hlength (Nat.not_lt_zero _)
  | succ left ih =>
    intro pos index hpos
    rw [walk]
    constructor
    · intro h
      split at h
      · rename_i hread
        obtain ⟨r, hstands, hstop⟩ := (readRecord_none hfits hpos).mp hread
        exact ⟨[], pos, r, Nat.succ_pos left, rfl, hstands, hstop⟩
      · cases h
      · rename_i r hread
        obtain ⟨hstands, hinside⟩ := (readRecord_ok hfits hpos).mp hread
        obtain ⟨records, stop, r', hlength, htiles, hover⟩ := (ih _ _ hinside).mp h
        exact ⟨r :: records, stop, r', Nat.succ_lt_succ hlength, ⟨hstands, hinside, htiles⟩, hover⟩
    · rintro ⟨records, stop, r', hlength, htiles, hover⟩
      cases records with
      | nil =>
        obtain rfl : pos = stop := htiles
        rw [(readRecord_none hfits hpos).mpr ⟨r', hover⟩]
      | cons r records =>
        obtain ⟨hstands, hinside, htiles⟩ := htiles
        rw [(readRecord_ok hfits hpos).mpr ⟨hstands, hinside⟩]
        exact (ih _ _ hinside).mpr ⟨records, stop, r', Nat.lt_of_succ_lt_succ hlength, htiles, hover⟩

theorem walk_ok (hfits : mmap.length < 2 ^ 63) (left : ℕ) :
    ∀ pos index out, pos ≤ mmap.length → (walk mmap left pos index = some (.ok out) ↔
      ∃ records stop, records.length = left ∧ Tiles mmap pos records stop ∧ out = indexed records index) := by
  induction left with
  | zero =>
    intro pos index out _
    constructor
    · intro h
      cases h
      exact ⟨[], pos, rfl, rfl, rfl⟩
    · rintro ⟨records, stop, hlength, -, rfl⟩
      rw [List.length_eq_zero_iff.mp hlength]
      rfl
  | succ left ih =>
    intro pos index out hpos
    rw [walk]
    constructor
    · intro h
      split at h
      · cases h
      · cases h
      · rename_i r hread
        obtain ⟨hstands, hinside⟩ := (readRecord_ok hfits hpos).mp hread
        obtain ⟨records, stop, hlength, htiles, hout⟩ := (ih _ _ _ hinside).mp h
        exact ⟨r :: records, stop, congrArg (· + 1) hlength, ⟨hstands, hinside, htiles⟩, hout⟩
    · rintro ⟨records, stop, hlength, htiles, hout⟩
      cases records with
      | nil => cases hlength
      | cons r records =>
        obtain ⟨hstands, hinside, htiles⟩ := htiles
        rw [(readRecord_ok hfits hpos).mpr ⟨hstands, hinside⟩]
        exact (ih _ _ _ hinside).mpr ⟨records, stop, Nat.succ.inj hlength, htiles, hout⟩

end Walk

section Open
variable {roomFor : ℕ → Bool} {mmap : Mmap} {n : ℕ}

private theorem wide (mmap : Mmap) : mmap.bytes.length < 2 ^ 64 := mmap.fits.trans (by decide)

theorem openSidecar_announced (h : Announces mmap n) :
    openSidecar roomFor mmap =
      if roomFor n then (walk mmap.bytes n headerSize ∅).map fun walked => walked.map fun index => ⟨mmap, index⟩
      else none := by
  obtain ⟨hn, reserved, h⟩ := h
  have hlong : ¬mmap.bytes.length < headerSize := Nat.not_lt.mpr h.inside
  obtain ⟨_, hmagic, h⟩ := Consumes.append_iff.mp h
  obtain ⟨_, hversion, h⟩ := Consumes.append_iff.mp h
  obtain ⟨_, hcount, hreserved⟩ := Consumes.append_iff.mp h
  have hword : n = (UInt64.ofNat n).toNat := by rw [UInt64.toNat_ofNat_of_lt' hn]
  rw [hword] at hcount
  have hslice : sliceAt mmap.bytes 0 4 = some (hfhsMagic, _) := (sliceAt_eq_some_iff (wide mmap)).mpr ⟨rfl, hmagic⟩
  rw [openSidecar, if_neg hlong]
  simp only [hslice, (u32At_eq_some_iff (wide mmap)).mpr hversion,
    (u64At_eq_some_iff (wide mmap)).mpr hcount, (u64At_eq_some_iff (wide mmap)).mpr hreserved, ← hword,
    Option.bind_eq_bind, Option.bind_some, ne_eq, not_true_eq_false, if_false]

theorem openSidecar_silent (h : ∀ n, ¬Announces mmap n) : ∃ e, openSidecar roomFor mmap = some (.error e) := by
  rw [openSidecar]
  by_cases hshort : mmap.bytes.length < headerSize
  · exact ⟨_, if_pos hshort⟩
  rw [if_neg hshort]
  have hlong : 24 ≤ mmap.bytes.length := Nat.not_lt.mp hshort
  obtain ⟨magic, -, hmagic⟩ := sliceAt_isSome (wide mmap) (by omega : 0 + 4 ≤ mmap.bytes.length)
  obtain ⟨version, hversion⟩ := u32At_isSome (wide mmap) (by omega : 0 + 4 + 4 ≤ mmap.bytes.length)
  obtain ⟨count, hcount⟩ := u64At_isSome (wide mmap) (by omega : 0 + 4 + 4 + 8 ≤ mmap.bytes.length)
  obtain ⟨reserved, hreserved⟩ := u64At_isSome (wide mmap) (by omega : 0 + 4 + 4 + 8 + 8 ≤ mmap.bytes.length)
  simp only [hmagic, hversion, hcount, hreserved, Option.bind_eq_bind, Option.bind_some]
  by_cases hfirst : magic = hfhsMagic
  · by_cases hsecond : version = hfhsVersionSupported
    · refine absurd ⟨count.toNat_lt, reserved, ?_⟩ (h count.toNat)
      rw [← hfirst, ← hsecond]
      exact Consumes.append_iff.mpr ⟨_, ((sliceAt_eq_some_iff (wide mmap)).mp hmagic).2, Consumes.append_iff.mpr
        ⟨_, (u32At_eq_some_iff (wide mmap)).mp hversion, Consumes.append_iff.mpr
          ⟨_, (u64At_eq_some_iff (wide mmap)).mp hcount, (u64At_eq_some_iff (wide mmap)).mp hreserved⟩⟩⟩
    · exact ⟨_, by rw [if_neg (not_not.mpr hfirst), if_pos hsecond]⟩
  · exact ⟨_, if_pos hfirst⟩

end Open
end Hipscope.Quantize.HessianIo
