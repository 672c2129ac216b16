import Mathlib.Logic.Function.Basic
import Hipscope.Dsml.Call
import Hipscope.Swap.Snapshot
import Hipscope.Text.Utf8

/-! The HFQ container: a header, the metadata text, the tensor index and, behind an aligned gap,
the tensors' data. `none` is a panic: an index past the end or a failed assertion. -/
namespace Hipscope.Hfq
open Bytes Dsml Redline Swap Text

structure HfqInTensor where
  name : List Char
  quantType : UInt8
  shape : List UInt32
  groupSize : UInt32
  data : List UInt8

/-- "HFQM" -/
def hfqMagic : List UInt8 := [0x48, 0x46, 0x51, 0x4D]

def hfqVersion : UInt32 := 1

section Writing

/-- One tensor's entry in the index; the casts to `u16` and `u8` keep the low bits. -/
def HfqInTensor.indexEntry (t : HfqInTensor) : List UInt8 :=
  let nb := utf8Bytes t.name
  toLeBytes 2 nb.length ++ nb ++ [t.quantType] ++ [UInt8.ofNat t.shape.length] ++
    t.shape.flatMap (fun d => toLeBytes 4 d.toNat) ++ toLeBytes 4 t.groupSize.toNat ++
    toLeBytes 8 t.data.length

/-- `(start + 4095) & !4095` in `u64`. -/
def alignUp (start : ℕ) : ℕ := (start + 4095) % 2 ^ 64 / 4096 * 4096

def writeHfq (arch : UInt32) (metadataJson : List Char) (tensors : List HfqInTensor) : List UInt8 :=
  let metaBytes := utf8Bytes metadataJson
  let metadataOffset := 32
  let index := toLeBytes 4 tensors.length ++ tensors.flatMap HfqInTensor.indexEntry
  let dataStartUnaligned := (metadataOffset + metaBytes.length + index.length) % 2 ^ 64
  let dataOffset := alignUp dataStartUnaligned
  let pad := (dataOffset + 2 ^ 64 - dataStartUnaligned) % 2 ^ 64
  hfqMagic ++ toLeBytes 4 hfqVersion.toNat ++ toLeBytes 4 arch.toNat ++ toLeBytes 4 tensors.length ++
    toLeBytes 8 metadataOffset ++ toLeBytes 8 dataOffset ++ metaBytes ++ index ++ List.replicate pad 0 ++
    tensors.flatMap HfqInTensor.data

end Writing

section Scanning

/-- Where the scan of the metadata stands. -/
structure Scan where
  braceDepth : Int32
  inString : Bool
  escape : Bool
  deriving DecidableEq

def scanStart : Scan := ⟨0, false, false⟩

/-- The length of the JSON text at the front, 0 if its braces never close; `i` counts the bytes
passed over. -/
def jsonEnd : Scan → ℕ → List UInt8 → ℕ
  | _, _, [] => 0
  | s, i, b :: rest =>
    if s.escape then jsonEnd ⟨s.braceDepth, s.inString, false⟩ (i + 1) rest
    else if b = 0x5C ∧ s.inString then jsonEnd ⟨s.braceDepth, s.inString, true⟩ (i + 1) rest
    else if b = 0x22 then jsonEnd ⟨s.braceDepth, !s.inString, false⟩ (i + 1) rest
    else if s.inString then jsonEnd s (i + 1) rest
    else
      let braceDepth := if b = 0x7B then s.braceDepth + 1 else s.braceDepth
      if b = 0x7D then
        let braceDepth := braceDepth - 1
        if braceDepth = 0 then i + 1 else jsonEnd ⟨braceDepth, s.inString, false⟩ (i + 1) rest
      else jsonEnd ⟨braceDepth, s.inString, false⟩ (i + 1) rest

end Scanning

section Reading

def u8At (bytes : List UInt8) (o : ℕ) : Option (UInt8 × ℕ) := (bytes[o]?).map fun b => (b, o + 1)

def u16At (bytes : List UInt8) (o : ℕ) : Option (UInt16 × ℕ) := do
  let (word, o) ← sliceAt bytes o 2
  some (UInt16.ofNat (Swap.ofLeBytes word), o)

/-- `bytes[start..stop]` -/
def sliceBetween (bytes : List UInt8) (start stop : ℕ) : Option (List UInt8) :=
  if start ≤ stop ∧ stop ≤ bytes.length then some ((bytes.drop start).take (stop - start)) else none

structure Header where
  archId : UInt32
  nTensors : UInt32
  metadataOffset : UInt64
  dataOffset : UInt64

def headerAt (mmap : List UInt8) (base : ℕ) : Option Header := do
  let (magic, o) ← sliceAt mmap base 4
  if magic ≠ hfqMagic then none
  else do
    let (_, o) ← u32At mmap o
    let (archId, o) ← u32At mmap o
    let (nTensors, o) ← u32At mmap o
    let (metadataOffset, o) ← u64At mmap o
    let (dataOffset, _) ← u64At mmap o
    some ⟨archId, nTensors, metadataOffset, dataOffset⟩

def shapeAt (mmap : List UInt8) : ℕ → ℕ → Option (List UInt32 × ℕ)
  | 0, pos => some ([], pos)
  | n + 1, pos => do
    let (d, pos) ← u32At mmap pos
    let (shape, pos) ← shapeAt mmap n pos
    some (d :: shape, pos)

/-- One entry of the tensor index. -/
structure IndexEntry where
  name : List Char
  quantType : UInt8
  shape : List UInt32
  groupSize : UInt32
  dataSize : ℕ

def entryAt (mmap : List UInt8) (pos : ℕ) : Option (IndexEntry × ℕ) := do
  let (nameLen, pos) ← u16At mmap pos
  let (nb, pos) ← sliceAt mmap pos nameLen.toNat
  let name := fromUtf8Lossy nb
  let (quantType, pos) ← u8At mmap pos
  let (nDims, pos) ← u8At mmap pos
  let (shape, pos) ← shapeAt mmap nDims.toNat pos
  let (groupSize, pos) ← u32At mmap pos
  let (dataSize, pos) ← u64At mmap pos
  some (⟨name, quantType, shape, groupSize, dataSize.toNat⟩, pos)

def readTensors (mmap : List UInt8) : ℕ → ℕ → ℕ → Option (List HfqInTensor)
  | 0, _, _ => some []
  | n + 1, pos, cumulative => do
    let (entry, pos) ← entryAt mmap pos
    let (data, cumulative) ← sliceAt mmap cumulative entry.dataSize
    let out ← readTensors mmap n pos cumulative
    some (⟨entry.name, entry.quantType, entry.shape, entry.groupSize, data⟩ :: out)

/-- The converter's reader. -/
def readHfq (mmap : List UInt8) : Option (UInt32 × List Char × List HfqInTensor) := do
  let header ← headerAt mmap 0
  let metadataOffset := header.metadataOffset.toNat
  let dataOffset := header.dataOffset.toNat
  let metaBytes ← sliceBetween mmap metadataOffset dataOffset
  let stop := jsonEnd scanStart 0 metaBytes
  let metadataJson := fromUtf8Lossy (metaBytes.take stop)
  let (idxN, pos) ← u32At mmap (metadataOffset + stop)
  if idxN ≠ header.nTensors then none
  else do
    let out ← readTensors mmap header.nTensors.toNat pos dataOffset
    some (header.archId, metadataJson, out)

structure HfqTensorInfo where
  name : List Char
  quantType : UInt8
  shape : List UInt32
  groupSize : UInt32
  dataOffset : ℕ
  dataSize : ℕ

/-- A container as it is opened, without an overlay. -/
structure HfqFile where
  mmap : List UInt8
  archId : UInt32
  metadataJson : List Char
  tensors : List HfqTensorInfo
  tensorMap : List Char → Option ℕ

inductive OpenError where
  | unterminated (metadataOffset : ℕ)
  | misstamped (provenance : List Char) (archId : UInt32)

def OpenError.message : OpenError → String
  | .unterminated offset =>
    s!"HfqFile: metadata JSON at offset {offset} is not brace-terminated (truncated or corrupt HFQ container)"
  | .misstamped provenance archId =>
    let found := String.ofList provenance
    s!"qwen3* model ({found}) stamped arch_id={archId}; cannot guarantee froggeric pillar — re-quantize with correct arch_id (5=dense, 6=MoE)"

/-- The index, with the tensors' places as running sums from the data's start. -/
def tensorInfos (mmap : List UInt8) : ℕ → ℕ → ℕ → Option (List HfqTensorInfo)
  | 0, _, _ => some []
  | n + 1, pos, cumulativeOffset => do
    let (entry, pos) ← entryAt mmap pos
    let tensors ← tensorInfos mmap n pos ((cumulativeOffset + entry.dataSize) % 2 ^ 64)
    some (⟨entry.name, entry.quantType, entry.shape, entry.groupSize, cumulativeOffset, entry.dataSize⟩ :: tensors)

/-- A name's entry is the last one inserted. -/
def tensorMapFrom : ℕ → (List Char → Option ℕ) → List HfqTensorInfo → List Char → Option ℕ
  | _, tensorMap, [] => tensorMap
  | i, tensorMap, info :: tensors => tensorMapFrom (i + 1) (Function.update tensorMap info.name (some i)) tensors

end Reading

section Provenance

/-- A member of an object. -/
def valueGet : Value → List Char → Option Value
  | .object members, key => members.lookup key
  | _, _ => none

def asStr : Value → Option (List Char)
  | .string s => some s
  | _ => none

def asArray : Value → Option (List Value)
  | .array items => some items
  | _ => none

/-- No other character than an ASCII letter has a lower case that occurs in the names sought. -/
def isQwen35 (s : List Char) : Bool :=
  let l := s.map Char.toLower
  ["qwen3_5", "qwen3.5", "qwen3_6", "qwen3.6"].any fun family => decide (family.toList <:+: l)

/-- The retained source of the model, when the metadata names a `qwen3*` family; `fromStr` parses JSON. -/
def qwen3Provenance (fromStr : List Char → Option Value) (metadataJson : List Char) : Option (List Char) := do
  let parsed ← fromStr metadataJson
  let config := valueGet parsed "config".toList
  let architecture := ((valueGet parsed "architecture".toList).bind asStr).filter isQwen35
  let modelType := ((config.bind (valueGet · "model_type".toList)).bind asStr).filter isQwen35
  let architectures := (((config.bind (valueGet · "architectures".toList)).bind asArray).getD []).filterMap asStr
  (architecture.map ("architecture=".toList ++ ·)).or
    ((modelType.map ("model_type=".toList ++ ·)).or
      ((architectures.find? isQwen35).map ("architectures=".toList ++ ·)))

end Provenance

section Opening

/-- A checkpoint of a `qwen3*` family has to be stamped as one. -/
def checkProvenance (fromStr : List Char → Option Value) (me : HfqFile) : Except OpenError HfqFile :=
  if me.archId = 5 ∨ me.archId = 6 then .ok me
  else
    match qwen3Provenance fromStr me.metadataJson with
    | some provenance => .error (.misstamped provenance me.archId)
    | none => .ok me

/-- The container that starts at `base` inside a mapped file. -/
def openAtOffset (fromStr : List Char → Option Value) (mmap : List UInt8) (base : ℕ) :
    Option (Except OpenError HfqFile) :=
  if mmap.length < base + 32 then none
  else do
    let header ← headerAt mmap base
    let metadataOffset := (header.metadataOffset.toNat + base) % 2 ^ 64
    let dataOffset := (header.dataOffset.toNat + base) % 2 ^ 64
    let metaBytes ← sliceBetween mmap metadataOffset dataOffset
    let stop := jsonEnd scanStart 0 metaBytes
    if stop = 0 then some (.error (.unterminated metadataOffset))
    else do
      let metadataJson := fromUtf8Lossy (metaBytes.take stop)
      let (idxN, pos) ← u32At mmap (metadataOffset + stop)
      if idxN ≠ header.nTensors then none
      else do
        let tensors ← tensorInfos mmap header.nTensors.toNat pos dataOffset
        let tensorMap := tensorMapFrom 0 (fun _ => none) tensors
        some (checkProvenance fromStr ⟨mmap, header.archId, metadataJson, tensors, tensorMap⟩)

/-- A tensor's index under its name or under a variant of its prefix. -/
def HfqFile.resolveIdx (file : HfqFile) (name : List Char) : Option ℕ :=
  let short := "model.".toList
  let long := "model.language_model.".toList
  let stripped := if long <+: name then file.tensorMap (short ++ name.drop long.length) else none
  let lengthened := if short <+: name then file.tensorMap (long ++ name.drop short.length) else none
  let added :=
    if short <+: name then none else (file.tensorMap (short ++ name)).or (file.tensorMap (long ++ name))
  (file.tensorMap name).or (stripped.or (lengthened.or added))

/-- A tensor's entry and data, `none` inside when no variant of the name is there. -/
def HfqFile.tensorData (file : HfqFile) (name : List Char) : Option (Option (HfqTensorInfo × List UInt8)) :=
  match file.resolveIdx name with
  | none => some none
  | some idx => do
    let info ← file.tensors[idx]?
    let data ← sliceBetween file.mmap info.dataOffset (info.dataOffset + info.dataSize)
    some (some (info, data))

end Opening
end Hipscope.Hfq
