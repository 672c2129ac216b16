import Hipscope.Hfq.Metadata

/-! A written container is read back, alone or inside a larger file. -/
namespace Hipscope.Hfq
open Bytes Dsml Redline Swap Text

/-- The limits of the format. -/
structure WithinLimits (tensors : List HfqInTensor) : Prop where
  count : tensors.length < 2 ^ 32
  nameBytes : ∀ t ∈ tensors, (utf8Bytes t.name).length < 2 ^ 16
  dimensions : ∀ t ∈ tensors, t.shape.length ≤ 255
  distinct : (tensors.map HfqInTensor.name).Nodup

/-- The entry is the tensor's, and under the tensor's name the file gives the tensor's bytes. -/
structure Describes (file : HfqFile) (info : HfqTensorInfo) (t : HfqInTensor) : Prop where
  name : info.name = t.name
  quantType : info.quantType = t.quantType
  shape : info.shape = t.shape
  groupSize : info.groupSize = t.groupSize
  data : file.tensorData t.name = some (some (info, t.data))

section Entries
variable {mmap : List UInt8} {o o' : ℕ}

private theorem u8At_of_consumes {b : UInt8} (h : Consumes mmap o [b] o') : u8At mmap o = some (b, o') := by
  have hfront : mmap[o]? = some b := by
    rw [← List.head?_drop, h.front]
    rfl
  rw [u8At, hfront, h.stop]
  rfl

private theorem u16At_of_consumes (hfits : mmap.length < 2 ^ 64) {n : ℕ} (hn : n < 2 ^ 16)
    (h : Consumes mmap o (toLeBytes 2 n) o') : u16At mmap o = some (UInt16.ofNat n, o') := by
  have hn' : n < 256 ^ 2 := hn
  obtain ⟨word, hword, hvalue⟩ := (word_iff hfits hn').2 h
  rw [u16At, hword]
  change some (UInt16.ofNat (Swap.ofLeBytes word), o') = _
  rw [hvalue]

private theorem shapeAt_of_consumes (hfits : mmap.length < 2 ^ 64) {shape : List UInt32}
    (h : Consumes mmap o (shape.flatMap fun d => toLeBytes 4 d.toNat) o') :
    shapeAt mmap shape.length o = some (shape, o') := by
  induction shape generalizing o with
  | nil =>
    have hstop : o' = o := h.stop
    rw [List.length_nil, shapeAt, hstop]
  | cons d shape ih =>
    rw [List.flatMap_cons, Consumes.append_iff] at h
    obtain ⟨o₁, hfirst, hrest⟩ := h
    rw [List.length_cons, shapeAt, (u32At_eq_some_iff hfits).2 hfirst]
    change (shapeAt mmap shape.length o₁).bind _ = _
    rw [ih hrest]
    rfl

def HfqInTensor.entry (t : HfqInTensor) : IndexEntry := ⟨t.name, t.quantType, t.shape, t.groupSize, t.data.length⟩

private theorem entryAt_of_consumes (hfits : mmap.length < 2 ^ 64) {t : HfqInTensor}
    (hname : (utf8Bytes t.name).length < 2 ^ 16) (hdims : t.shape.length ≤ 255) (hdata : t.data.length < 2 ^ 64)
    (h : Consumes mmap o t.indexEntry o') : entryAt mmap o = some (t.entry, o') := by
  simp only [HfqInTensor.indexEntry, List.append_assoc, Consumes.append_iff] at h
  obtain ⟨o₁, h₁, o₂, h₂, o₃, h₃, o₄, h₄, o₅, h₅, o₆, h₆, h₇⟩ := h
  have hlen : (UInt16.ofNat (utf8Bytes t.name).length).toNat = (utf8Bytes t.name).length :=
    UInt16.toNat_ofNat_of_lt' hname
  have hndims : (UInt8.ofNat t.shape.length).toNat = t.shape.length :=
    UInt8.toNat_ofNat_of_lt' (Nat.lt_succ_of_le hdims)
  have hsize : (UInt64.ofNat t.data.length).toNat = t.data.length := UInt64.toNat_ofNat_of_lt' hdata
  rw [← hsize] at h₇
  have hbytes : sliceAt mmap o₁ (utf8Bytes t.name).length = some (utf8Bytes t.name, o₂) :=
    (sliceAt_eq_some_iff hfits).2 ⟨rfl, h₂⟩
  simp only [entryAt, u16At_of_consumes hfits hname h₁, hlen, hbytes, u8At_of_consumes h₃, u8At_of_consumes h₄,
    hndims, shapeAt_of_consumes hfits h₅, (u32At_eq_some_iff hfits).2 h₆, (u64At_eq_some_iff hfits).2 h₇,
    hsize, fromUtf8Lossy_utf8Bytes, Option.bind_eq_bind, Option.bind_some, HfqInTensor.entry]

/-- The entries of the tensors, with their data from `cumulative` on. -/
def placed : ℕ → List HfqInTensor → List HfqTensorInfo
  | _, [] => []
  | cumulative, t :: tensors =>
    ⟨t.name, t.quantType, t.shape, t.groupSize, cumulative, t.data.length⟩ :: placed (cumulative + t.data.length) tensors

variable {tensors : List HfqInTensor} {cumulative stop : ℕ}

private theorem data_inside {word : List UInt8} (h : Consumes mmap o word o') : word.length ≤ mmap.length := by
  have hstop := h.stop
  have hinside := h.inside
  omega

private theorem readTensors_of_consumes (hfits : mmap.length < 2 ^ 64)
    (hname : ∀ t ∈ tensors, (utf8Bytes t.name).length < 2 ^ 16) (hdims : ∀ t ∈ tensors, t.shape.length ≤ 255)
    (hindex : Consumes mmap o (tensors.flatMap HfqInTensor.indexEntry) o')
    (hdata : Consumes mmap cumulative (tensors.flatMap HfqInTensor.data) stop) :
    readTensors mmap tensors.length o cumulative = some tensors := by
  induction tensors generalizing o cumulative with
  | nil => rfl
  | cons t tensors ih =>
    rw [List.flatMap_cons, Consumes.append_iff] at hindex hdata
    obtain ⟨o₁, hentry, hentries⟩ := hindex
    obtain ⟨c₁, hbytes, hrest⟩ := hdata
    have hslice : sliceAt mmap cumulative t.data.length = some (t.data, c₁) :=
      (sliceAt_eq_some_iff hfits).2 ⟨rfl, hbytes⟩
    have hread := ih (fun t ht => hname t (List.mem_cons_of_mem _ ht))
      (fun t ht => hdims t (List.mem_cons_of_mem _ ht)) hentries hrest
    simp only [List.length_cons, readTensors, entryAt_of_consumes hfits (hname t List.mem_cons_self)
      (hdims t List.mem_cons_self) (Nat.lt_of_le_of_lt (data_inside hbytes) hfits) hentry, HfqInTensor.entry, hslice,
      hread, Option.bind_eq_bind, Option.bind_some]

private theorem tensorInfos_of_consumes (hfits : mmap.length < 2 ^ 64)
    (hname : ∀ t ∈ tensors, (utf8Bytes t.name).length < 2 ^ 16) (hdims : ∀ t ∈ tensors, t.shape.length ≤ 255)
    (hindex : Consumes mmap o (tensors.flatMap HfqInTensor.indexEntry) o')
    (hdata : Consumes mmap cumulative (tensors.flatMap HfqInTensor.data) stop) :
    tensorInfos mmap tensors.length o cumulative = some (placed cumulative tensors) := by
  induction tensors generalizing o cumulative with
  | nil => rfl
  | cons t tensors ih =>
    rw [List.flatMap_cons, Consumes.append_iff] at hindex hdata
    obtain ⟨o₁, hentry, hentries⟩ := hindex
    obtain ⟨c₁, hbytes, hrest⟩ := hdata
    have hnext : (cumulative + t.data.length) % 2 ^ 64 = c₁ := by
      rw [← hbytes.stop]
      exact Nat.mod_eq_of_lt (Nat.lt_of_le_of_lt hbytes.inside hfits)
    have hread := ih (fun t ht => hname t (List.mem_cons_of_mem _ ht))
      (fun t ht => hdims t (List.mem_cons_of_mem _ ht)) hentries hrest
    simp only [List.length_cons, tensorInfos, entryAt_of_consumes hfits (hname t List.mem_cons_self)
      (hdims t List.mem_cons_self) (Nat.lt_of_le_of_lt (data_inside hbytes) hfits) hentry, HfqInTensor.entry, hnext,
      hread, Option.bind_eq_bind, Option.bind_some]
    rw [placed, hbytes.stop]

end Entries

section Lookup
variable {mmap : List UInt8} {tensors : List HfqInTensor} {cumulative stop i : ℕ} {tensorMap : List Char → Option ℕ}

private theorem tensorMapFrom_of_notMem {infos : List HfqTensorInfo} {name : List Char}
    (h : name ∉ infos.map HfqTensorInfo.name) : tensorMapFrom i tensorMap infos name = tensorMap name := by
  induction infos generalizing i tensorMap with
  | nil => rfl
  | cons info infos ih =>
    rw [List.map_cons, List.mem_cons, not_or] at h
    rw [tensorMapFrom, ih h.2, Function.update_of_ne h.1]

private theorem placed_names (cumulative : ℕ) (tensors : List HfqInTensor) :
    (placed cumulative tensors).map HfqTensorInfo.name = tensors.map HfqInTensor.name := by
  induction tensors generalizing cumulative with
  | nil => rfl
  | cons t tensors ih => rw [placed, List.map_cons, List.map_cons, ih]

/-- Distinct names are found at their own places. -/
private theorem tensorMapFrom_getElem {infos : List HfqTensorInfo} (hdistinct : (infos.map HfqTensorInfo.name).Nodup)
    {j : ℕ} {info : HfqTensorInfo} (h : infos[j]? = some info) :
    tensorMapFrom i tensorMap infos info.name = some (i + j) := by
  induction infos generalizing i j tensorMap with
  | nil => cases h
  | cons first infos ih =>
    rw [List.map_cons, List.nodup_cons] at hdistinct
    rw [tensorMapFrom]
    cases j with
    | zero =>
      obtain rfl := Option.some.inj h
      rw [tensorMapFrom_of_notMem hdistinct.1, Function.update_self, Nat.add_zero]
    | succ j =>
      rw [ih hdistinct.2 h, Nat.add_assoc, Nat.add_comm 1]

private theorem sliceBetween_of_consumes {word : List UInt8} {o o' : ℕ} (h : Consumes mmap o word o') :
    sliceBetween mmap o o' = some word := by
  have hstop := h.stop
  rw [sliceBetween, if_pos ⟨by omega, h.inside⟩, h.front, hstop, Nat.add_sub_cancel_left, List.take_left]

private theorem describes_of_placed {file : HfqFile} (hmmap : file.mmap = mmap)
    (hdata : Consumes mmap cumulative (tensors.flatMap HfqInTensor.data) stop)
    (hat : ∀ j info, (placed cumulative tensors)[j]? = some info →
      file.tensorMap info.name = some (i + j) ∧ file.tensors[i + j]? = some info) :
    List.Forall₂ (Describes file) (placed cumulative tensors) tensors := by
  induction tensors generalizing cumulative i with
  | nil => exact .nil
  | cons t tensors ih =>
    rw [List.flatMap_cons, Consumes.append_iff] at hdata
    obtain ⟨c₁, hbytes, hrest⟩ := hdata
    have hstop : c₁ = cumulative + t.data.length := hbytes.stop
    obtain ⟨hmap, hget⟩ := hat 0 _ rfl
    refine .cons ⟨rfl, rfl, rfl, rfl, ?_⟩ ?_
    · have hindex : file.resolveIdx t.name = some i := by
        rw [HfqFile.resolveIdx, hmap]
        rfl
      have hslice := sliceBetween_of_consumes hbytes
      rw [hstop] at hslice
      rw [HfqFile.tensorData, hindex, hmmap]
      change (file.tensors[i]?).bind _ = _
      rw [Nat.add_zero] at hget
      rw [hget]
      change (sliceBetween mmap cumulative (cumulative + t.data.length)).bind _ = _
      rw [hslice]
      rfl
    · rw [← hstop]
      refine ih (i := i + 1) hrest fun j info h => ?_
      have hnext := hat (j + 1) info (by rw [placed, ← hstop]; exact h)
      rwa [Nat.add_assoc, Nat.add_comm 1]

end Lookup

section Containers
variable {fromStr : List Char → Option Value} {arch : UInt32} {metadataJson : List Char} {tensors : List HfqInTensor}
  {mmap : List UInt8} {base stop d : ℕ}

def dataStart (metadataJson : List Char) (tensors : List HfqInTensor) : ℕ :=
  32 + (utf8Bytes metadataJson).length + (4 + (tensors.flatMap HfqInTensor.indexEntry).length)

def gap (metadataJson : List Char) (tensors : List HfqInTensor) : List UInt8 :=
  List.replicate (alignUp (dataStart metadataJson tensors) - dataStart metadataJson tensors) 0

private theorem le_alignUp {start : ℕ} (h : start < 2 ^ 63) : start ≤ alignUp start ∧ alignUp start < start + 4096 := by
  rw [alignUp, Nat.mod_eq_of_lt (by omega)]
  omega

/-- The container, part by part. -/
private theorem writeHfq_eq (h : dataStart metadataJson tensors < 2 ^ 63) : writeHfq arch metadataJson tensors =
    hfqMagic ++ (toLeBytes 4 hfqVersion.toNat ++ (toLeBytes 4 arch.toNat ++ (toLeBytes 4 tensors.length ++
      (toLeBytes 8 32 ++ (toLeBytes 8 (alignUp (dataStart metadataJson tensors)) ++ (utf8Bytes metadataJson ++
      (toLeBytes 4 tensors.length ++ (tensors.flatMap HfqInTensor.indexEntry ++ (gap metadataJson tensors ++
      tensors.flatMap HfqInTensor.data))))))))) := by
  have hstart : (32 + (utf8Bytes metadataJson).length +
      (toLeBytes 4 tensors.length ++ tensors.flatMap HfqInTensor.indexEntry).length) % 2 ^ 64 =
      dataStart metadataJson tensors := by
    rw [List.length_append, toLeBytes_length]
    exact Nat.mod_eq_of_lt (Nat.lt_trans h (by decide))
  have hpad : (alignUp (dataStart metadataJson tensors) + 2 ^ 64 - dataStart metadataJson tensors) % 2 ^ 64 =
      alignUp (dataStart metadataJson tensors) - dataStart metadataJson tensors := by
    have hle := le_alignUp h
    omega
  rw [writeHfq]
  simp only [hstart, hpad, gap, List.append_assoc]

private theorem dataStart_le (arch : UInt32) (metadataJson : List Char) (tensors : List HfqInTensor) :
    dataStart metadataJson tensors ≤ (writeHfq arch metadataJson tensors).length := by
  rw [writeHfq]
  simp only [List.length_append, toLeBytes_length, dataStart]
  change _ ≤ 4 + 4 + 4 + 4 + 8 + 8 + _ + _ + _ + _
  omega

/-- Where the parts of a container stand that starts at `base`. -/
structure Layout (mmap : List UInt8) (base : ℕ) (arch : UInt32) (metadataJson : List Char)
    (tensors : List HfqInTensor) : Prop where
  start_lt : dataStart metadataJson tensors < 2 ^ 63
  header : headerAt mmap base = some ⟨arch, UInt32.ofNat tensors.length, 32,
    UInt64.ofNat (alignUp (dataStart metadataJson tensors))⟩
  described : Consumes mmap (base + 32) (utf8Bytes metadataJson ++ (toLeBytes 4 tensors.length ++
    (tensors.flatMap HfqInTensor.indexEntry ++ gap metadataJson tensors)))
    (base + alignUp (dataStart metadataJson tensors))
  data : ∃ stop, Consumes mmap (base + alignUp (dataStart metadataJson tensors)) (tensors.flatMap HfqInTensor.data) stop

theorem layout_of_consumes (hfits : mmap.length < 2 ^ 63) (hcount : tensors.length < 2 ^ 32)
    (h : Consumes mmap base (writeHfq arch metadataJson tensors) stop) :
    Layout mmap base arch metadataJson tensors := by
  have hlength : mmap.length < 2 ^ 64 := Nat.lt_trans hfits (by decide)
  have hstart : dataStart metadataJson tensors < 2 ^ 63 := by
    have hle := dataStart_le arch metadataJson tensors
    have hin := data_inside h
    omega
  have halign := le_alignUp hstart
  rw [writeHfq_eq hstart] at h
  simp only [Consumes.append_iff] at h
  obtain ⟨o₁, hmagic, o₂, hversion, o₃, harch, o₄, hn, o₅, hmeta, o₆, hdata, o₇, hjson, o₈, hindexN, o₉, hindex, o₁₀,
    hgap, hrest⟩ := h
  have hn' : (UInt32.ofNat tensors.length).toNat = tensors.length := UInt32.toNat_ofNat_of_lt' hcount
  have hdata' : (UInt64.ofNat (alignUp (dataStart metadataJson tensors))).toNat =
      alignUp (dataStart metadataJson tensors) := UInt64.toNat_ofNat_of_lt' (show _ < 2 ^ 64 by omega)
  have h₆ : o₆ = base + 32 := by
    have h₁ := hmagic.stop
    have h₂ := hversion.stop
    have h₃ := harch.stop
    have h₄ := hn.stop
    have h₅ := hmeta.stop
    have h₆ := hdata.stop
    rw [toLeBytes_length] at h₂ h₃ h₄ h₅ h₆
    change o₁ = base + 4 at h₁
    omega
  have h₁₀ : o₁₀ = base + alignUp (dataStart metadataJson tensors) := by
    have h₇ := hjson.stop
    have h₈ := hindexN.stop
    have h₉ := hindex.stop
    have h₁₀ := hgap.stop
    rw [toLeBytes_length] at h₈
    rw [gap, List.length_replicate] at h₁₀
    rw [dataStart] at h₁₀ halign ⊢
    omega
  refine ⟨hstart, ?_, ?_, stop, ?_⟩
  · have hword : sliceAt mmap base 4 = some (hfqMagic, o₁) := (sliceAt_eq_some_iff hlength).2 ⟨rfl, hmagic⟩
    rw [← hn'] at hn
    rw [← hdata'] at hdata
    simp only [headerAt, hword, (u32At_eq_some_iff hlength).2 hversion, (u32At_eq_some_iff hlength).2 harch,
      (u32At_eq_some_iff hlength).2 hn, (u64At_eq_some_iff hlength (v := 32)).2 hmeta,
      (u64At_eq_some_iff hlength).2 hdata, Option.bind_eq_bind, Option.bind_some, ne_eq, not_true_eq_false,
      if_false]
  · rw [← h₆, ← h₁₀]
    exact Consumes.append_iff.2 ⟨o₇, hjson, Consumes.append_iff.2 ⟨o₈, hindexN, Consumes.append_iff.2 ⟨o₉, hindex, hgap⟩⟩⟩
  · rw [← h₁₀]
    exact hrest

/-- What both readers find between header and data. -/
structure Found (mmap : List UInt8) (base : ℕ) (metadataJson : List Char) (tensors : List HfqInTensor) : Prop where
  json : ∃ rest, sliceBetween mmap (base + 32) (base + alignUp (dataStart metadataJson tensors)) =
    some (utf8Bytes metadataJson ++ rest)
  index : ∃ pos stop, u32At mmap (base + 32 + (utf8Bytes metadataJson).length) =
    some (UInt32.ofNat tensors.length, pos) ∧ Consumes mmap pos (tensors.flatMap HfqInTensor.indexEntry) stop

theorem Layout.found (h : Layout mmap base arch metadataJson tensors) (hfits : mmap.length < 2 ^ 63)
    (hcount : tensors.length < 2 ^ 32) : Found mmap base metadataJson tensors := by
  refine ⟨⟨_, sliceBetween_of_consumes h.described⟩, ?_⟩
  obtain ⟨o₁, hjson, hrest⟩ := Consumes.append_iff.1 h.described
  obtain ⟨pos, hn, hrest⟩ := Consumes.append_iff.1 hrest
  obtain ⟨stop, hindex, -⟩ := Consumes.append_iff.1 hrest
  have hn' : (UInt32.ofNat tensors.length).toNat = tensors.length := UInt32.toNat_ofNat_of_lt' hcount
  rw [← hn'] at hn
  refine ⟨pos, stop, ?_, hindex⟩
  rw [← hjson.stop]
  exact (u32At_eq_some_iff (Nat.lt_trans hfits (by decide))).2 hn

private theorem isObject_pos {s : List Char} (h : Json.IsObject d s) : 0 < (utf8Bytes s).length := by
  have hcons : ∀ body : List Char, 0 < (utf8Bytes ('{' :: body)).length := by
    intro body
    rw [utf8Bytes_cons, List.length_append, String.length_utf8EncodeChar]
    exact Nat.add_pos_left (Char.utf8Size_pos _) _
  cases h with
  | noMembers _ => exact hcons _
  | object _ => exact hcons _

/-- A container at the front of a file, read by the converter. -/
theorem readHfq_of_layout (hfits : mmap.length < 2 ^ 63) (hjson : Json.IsObject d metadataJson) (hd : d < 2 ^ 31)
    (hlimits : WithinLimits tensors) (h : Layout mmap 0 arch metadataJson tensors) :
    readHfq mmap = some (arch, metadataJson, tensors) := by
  have hlength : mmap.length < 2 ^ 64 := Nat.lt_trans hfits (by decide)
  have halign := le_alignUp h.start_lt
  have hdata : (UInt64.ofNat (alignUp (dataStart metadataJson tensors))).toNat =
      alignUp (dataStart metadataJson tensors) :=
    UInt64.toNat_ofNat_of_lt' (Nat.lt_trans halign.2 (Nat.lt_trans (Nat.add_lt_add_right h.start_lt _) (by decide)))
  have hn : (UInt32.ofNat tensors.length).toNat = tensors.length := UInt32.toNat_ofNat_of_lt' hlimits.count
  obtain ⟨⟨rest, hslice⟩, pos, stop, hcount, hindex⟩ := h.found hfits hlimits.count
  obtain ⟨last, hplaced⟩ := h.data
  rw [Nat.zero_add, Nat.zero_add] at hslice
  rw [Nat.zero_add] at hplaced hcount
  have hread := readTensors_of_consumes hlength hlimits.nameBytes hlimits.dimensions hindex hplaced
  have hoffset : (32 : UInt64).toNat = 32 := rfl
  simp only [readHfq, h.header, hdata, hn, hoffset, hslice, jsonEnd_object hjson hd, List.take_left,
    fromUtf8Lossy_utf8Bytes, hcount, hread, Option.bind_eq_bind, Option.bind_some, ne_eq, not_true_eq_false, if_false]

/-- The file a container opens to. -/
def opened (mmap : List UInt8) (base : ℕ) (arch : UInt32) (metadataJson : List Char) (tensors : List HfqInTensor) :
    HfqFile :=
  let infos := placed (base + alignUp (dataStart metadataJson tensors)) tensors
  ⟨mmap, arch, metadataJson, infos, tensorMapFrom 0 (fun _ => none) infos⟩

theorem opened_describes (hlimits : WithinLimits tensors) (h : Layout mmap base arch metadataJson tensors) :
    List.Forall₂ (Describes (opened mmap base arch metadataJson tensors))
      (opened mmap base arch metadataJson tensors).tensors tensors := by
  obtain ⟨last, hplaced⟩ := h.data
  refine describes_of_placed (i := 0) rfl hplaced fun j info hinfo => ?_
  have hdistinct := hlimits.distinct
  rw [← placed_names (base + alignUp (dataStart metadataJson tensors))] at hdistinct
  rw [Nat.zero_add]
  exact ⟨(tensorMapFrom_getElem hdistinct hinfo).trans (by rw [Nat.zero_add]), hinfo⟩

private theorem checkProvenance_ok {me : HfqFile}
    (h : me.archId = 5 ∨ me.archId = 6 ∨ qwen3Provenance fromStr me.metadataJson = none) :
    checkProvenance fromStr me = .ok me := by
  rcases h with h | h | h
  · rw [checkProvenance, if_pos (.inl h)]
  · rw [checkProvenance, if_pos (.inr h)]
  · simp only [checkProvenance, h, ite_self]

private theorem checkProvenance_error {me : HfqFile} {provenance : List Char} (h5 : me.archId ≠ 5) (h6 : me.archId ≠ 6)
    (h : qwen3Provenance fromStr me.metadataJson = some provenance) :
    checkProvenance fromStr me = .error (.misstamped provenance me.archId) := by
  simp only [checkProvenance, if_neg (not_or.2 ⟨h5, h6⟩), h]

/-- A container anywhere in a file, up to the check of its provenance. -/
theorem openAtOffset_of_layout (fromStr : List Char → Option Value) (hfits : mmap.length < 2 ^ 63)
    (hjson : Json.IsObject d metadataJson) (hd : d < 2 ^ 31) (hlimits : WithinLimits tensors)
    (h : Layout mmap base arch metadataJson tensors) :
    openAtOffset fromStr mmap base = some (checkProvenance fromStr (opened mmap base arch metadataJson tensors)) := by
  have hlength : mmap.length < 2 ^ 64 := Nat.lt_trans hfits (by decide)
  have halign := le_alignUp h.start_lt
  have hinside := h.described.inside
  have hpast := h.described.stop
  rw [List.length_append] at hpast
  have hdata : ((UInt64.ofNat (alignUp (dataStart metadataJson tensors))).toNat + base) % 2 ^ 64 =
      base + alignUp (dataStart metadataJson tensors) := by
    rw [UInt64.toNat_ofNat_of_lt' (Nat.lt_trans halign.2 (Nat.lt_trans (Nat.add_lt_add_right h.start_lt _) (by decide))),
      Nat.add_comm]
    exact Nat.mod_eq_of_lt (Nat.lt_of_le_of_lt hinside hlength)
  have hmeta : ((32 : UInt64).toNat + base) % 2 ^ 64 = base + 32 := by
    rw [Nat.add_comm]
    change (base + 32) % 2 ^ 64 = base + 32
    exact Nat.mod_eq_of_lt (by omega)
  have hn : (UInt32.ofNat tensors.length).toNat = tensors.length := UInt32.toNat_ofNat_of_lt' hlimits.count
  obtain ⟨⟨rest, hslice⟩, pos, stop, hcount, hindex⟩ := h.found hfits hlimits.count
  obtain ⟨last, hplaced⟩ := h.data
  have hread := tensorInfos_of_consumes hlength hlimits.nameBytes hlimits.dimensions hindex hplaced
  have hbase : ¬ mmap.length < base + 32 := by omega
  have hstop : (utf8Bytes metadataJson).length ≠ 0 := (isObject_pos hjson).ne'
  simp only [openAtOffset, if_neg hbase, h.header, hdata, hn, hmeta, hslice, jsonEnd_object hjson hd, List.take_left,
    fromUtf8Lossy_utf8Bytes, hcount, hread, Option.bind_eq_bind, Option.bind_some, ne_eq, not_true_eq_false, if_false,
    if_neg hstop, opened]

end Containers

section Results
variable {fromStr : List Char → Option Value} {arch : UInt32} {metadataJson : List Char} {tensors : List HfqInTensor}
  {before after : List UInt8} {d : ℕ}

private theorem layout_written (hlimits : WithinLimits tensors)
    (hfits : (before ++ (writeHfq arch metadataJson tensors ++ after)).length < 2 ^ 63) :
    Layout (before ++ (writeHfq arch metadataJson tensors ++ after)) before.length arch metadataJson tensors := by
  have hconsumes : Consumes (before ++ (writeHfq arch metadataJson tensors ++ after)) before.length
      (writeHfq arch metadataJson tensors) (before.length + (writeHfq arch metadataJson tensors).length) := by
    refine ⟨rfl, ?_, ?_⟩
    · simp only [List.length_append]
      omega
    · rw [← List.drop_drop, List.drop_left, List.drop_left]
  exact layout_of_consumes hfits hlimits.count hconsumes

/-- A written container is read back by the converter, and by the loader at whatever place of a file it stands; only
a checkpoint that names a `qwen3*` family and is not stamped as one is turned away. -/
theorem writeHfq_roundTrip (fromStr : List Char → Option Value) (arch : UInt32) (hjson : Json.IsObject d metadataJson)
    (hd : d < 2 ^ 31) (hlimits : WithinLimits tensors) (before after : List UInt8)
    (hfits : (before ++ (writeHfq arch metadataJson tensors ++ after)).length < 2 ^ 63) :
    readHfq (writeHfq arch metadataJson tensors) = some (arch, metadataJson, tensors) ∧
    ∃ file : HfqFile, file.archId = arch ∧ file.metadataJson = metadataJson ∧
      List.Forall₂ (Describes file) file.tensors tensors ∧
      ((arch = 5 ∨ arch = 6 ∨ qwen3Provenance fromStr metadataJson = none) →
        openAtOffset fromStr (before ++ (writeHfq arch metadataJson tensors ++ after)) before.length = some (.ok file)) ∧
      ∀ provenance, arch ≠ 5 → arch ≠ 6 → qwen3Provenance fromStr metadataJson = some provenance →
        openAtOffset fromStr (before ++ (writeHfq arch metadataJson tensors ++ after)) before.length =
          some (.error (.misstamped provenance arch)) := by
  have hlayout := layout_written hlimits hfits
  have hopen := openAtOffset_of_layout fromStr hfits hjson hd hlimits hlayout
  constructor
  · have halone : ([] ++ (writeHfq arch metadataJson tensors ++ [])).length < 2 ^ 63 := by
      simp only [List.length_append, List.length_nil] at hfits ⊢
      omega
    have hread := readHfq_of_layout halone hjson hd hlimits (layout_written hlimits halone)
    rwa [List.nil_append, List.append_nil] at hread
  · refine ⟨_, rfl, rfl, opened_describes hlimits hlayout, fun hstamped => ?_, fun provenance h5 h6 hfound => ?_⟩
    · rw [hopen, checkProvenance_ok hstamped]
    · rw [hopen, checkProvenance_error h5 h6 hfound]
      rfl

/-- `{"config":{"layers":2,"note":"a}\"{"},"tags":["x", "é"]}` -/
def sampleMetadata : List Char :=
  '{' :: ("\"config\":\x7b\"layers\":2,\"note\":\"a\x7d\\\"\x7b\"\x7d,\"tags\":[\"x\", \"é\"]".toList ++ ['}'])

/-- `{"architecture":"qwen3_5"}` -/
def qwenMetadata : List Char := '{' :: ("\"architecture\":\"qwen3_5\"".toList ++ ['}'])

/-- JSON parsing, as far as these two texts go. -/
def parseSample (text : List Char) : Option Value :=
  if text = sampleMetadata then
    some (.object [
      ("config".toList, .object [("layers".toList, .number ⟨['2'], by decide, by decide⟩),
        ("note".toList, .string "a\x7d\"\x7b".toList)]),
      ("tags".toList, .array [.string ['x'], .string ['é']])])
  else if text = qwenMetadata then some (.object [("architecture".toList, .string "qwen3_5".toList)])
  else none

/-- Two tensors of unequal length. -/
def sampleTensors : List HfqInTensor :=
  [⟨"wq".toList, 1, [2, 3], 32, [5, 6, 7]⟩, ⟨"norm.é".toList, 0, [2], 0, [8, 9]⟩]

private theorem blank_nil : Json.Blank [] := fun _ hc => absurd hc List.not_mem_nil

private theorem quoted_plain {s : List Char} (h : ∀ c ∈ s, c ≠ '"' ∧ c ≠ '\\' ∧ 0x20 ≤ c.toNat) : Json.Quoted s := by
  induction s with
  | nil => exact .empty
  | cons c s ih => exact .plain (h c List.mem_cons_self) (ih fun c' hc' => h c' (List.mem_cons_of_mem _ hc'))

private theorem sampleMetadata_isObject : Json.IsObject 2 sampleMetadata := by
  have hlayers : Json.Grammar .member 0 "\"layers\":2".toList :=
    .member blank_nil (quoted_plain (s := "layers".toList) (by decide)) blank_nil
      (.scalar (s := ['2']) ⟨by decide, by decide⟩)
  have hquoted : Json.Quoted ['a', '}', '\\', '"', '{'] :=
    .plain (by decide) (.plain (by decide) (.escaped (by decide) (.plain (by decide) .empty)))
  have hnote : Json.Grammar .member 0 "\"note\":\"a\x7d\\\"\x7b\"".toList :=
    .member blank_nil (quoted_plain (s := "note".toList) (by decide)) blank_nil (.string hquoted)
  have hconfig : Json.Grammar .member 1
      ('"' :: ("config\":\x7b\"layers\":2,\"note\":\"a\x7d\\\"\x7b\"".toList ++ ['}'])) :=
    .member blank_nil (quoted_plain (s := "config".toList) (by decide)) blank_nil
      (.ofObject (.object (List.forall_mem_cons.2 ⟨hlayers, List.forall_mem_singleton.2 hnote⟩)))
  have hitem : Json.Grammar .value 1 "\"x\"".toList := .string (quoted_plain (s := ['x']) (by decide))
  have hpadded : Json.Grammar .value 1 " \"é\"".toList :=
    .padded (l := [' ']) (by unfold Json.Blank; decide) blank_nil (.string (quoted_plain (s := ['é']) (by decide)))
  have htags : Json.Grammar .member 1 "\"tags\":[\"x\", \"é\"]".toList :=
    .member blank_nil (quoted_plain (s := "tags".toList) (by decide)) blank_nil
      (.array (List.forall_mem_cons.2 ⟨hitem, List.forall_mem_singleton.2 hpadded⟩))
  have hobject := Json.Grammar.object (List.forall_mem_cons.2 ⟨hconfig, List.forall_mem_singleton.2 htags⟩)
  exact hobject

theorem writeHfq_roundTrip_sample :
    readHfq (writeHfq 1 sampleMetadata sampleTensors) = some (1, sampleMetadata, sampleTensors) ∧
    ∃ file : HfqFile, file.metadataJson = sampleMetadata ∧ List.Forall₂ (Describes file) file.tensors sampleTensors ∧
      openAtOffset parseSample ([9] ++ (writeHfq 1 sampleMetadata sampleTensors ++ [7])) 1 = some (.ok file) := by
  have hlimits : WithinLimits sampleTensors := by
    refine ⟨by decide, ?_, ?_, by decide⟩
    · exact List.forall_mem_cons.2 ⟨by decide, List.forall_mem_singleton.2 (by decide)⟩
    · exact List.forall_mem_cons.2 ⟨by decide, List.forall_mem_singleton.2 (by decide)⟩
  obtain ⟨hread, file, -, hjson, hdescribes, hopen, -⟩ := writeHfq_roundTrip parseSample 1 sampleMetadata_isObject
    (by decide) hlimits [9] [7] (by decide +kernel)
  exact ⟨hread, file, hjson, hdescribes, hopen (.inr (.inr (by decide +kernel)))⟩

private theorem qwenMetadata_isObject : Json.IsObject 1 qwenMetadata := by
  have hmember : Json.Grammar .member 0 "\"architecture\":\"qwen3_5\"".toList :=
    .member blank_nil (quoted_plain (s := "architecture".toList) (by decide)) blank_nil
      (.string (quoted_plain (s := "qwen3_5".toList) (by decide)))
  have hobject : Json.Grammar .object 1 ('{' :: ([','].intercalate ["\"architecture\":\"qwen3_5\"".toList] ++ ['}'])) :=
    .object fun s hs => List.mem_singleton.1 hs ▸ hmember
  exact hobject

/-- The loader refuses a container that the writer has written for a valid metadata text. -/
theorem qwen_container_refused :
    Json.IsObject 1 qwenMetadata ∧ WithinLimits [] ∧
    openAtOffset parseSample (writeHfq 0 qwenMetadata []) 0 =
      some (.error (.misstamped "architecture=qwen3_5".toList 0)) := by
  have hlimits : WithinLimits [] := by
    refine ⟨by decide, fun t ht => ?_, fun t ht => ?_, by decide⟩
    · cases ht
    · cases ht
  have hfits : ([] ++ (writeHfq 0 qwenMetadata [] ++ [])).length < 2 ^ 63 := by decide +kernel
  have hfound : qwen3Provenance parseSample qwenMetadata = some "architecture=qwen3_5".toList := by decide +kernel
  have hopen := openAtOffset_of_layout parseSample hfits qwenMetadata_isObject (by decide) hlimits
    (layout_written hlimits hfits)
  rw [checkProvenance_error (by decide) (by decide) hfound, List.nil_append, List.append_nil] at hopen
  exact ⟨qwenMetadata_isObject, hlimits, hopen⟩

end Results
end Hipscope.Hfq
