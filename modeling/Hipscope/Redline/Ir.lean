import Hipscope.Lists.Traverse
import Mathlib.Data.Nat.Basic
import Mathlib.Data.List.Basic
import Mathlib.Tactic

/-! Values of the backend-neutral dispatch IR. Machine words are naturals with
their bounds in the constructors; SHA-256 digests are opaque 32-byte values. -/
namespace Hipscope.Redline

/-- Largest value of a 64-bit word. -/
def u64Max : ℕ := 2 ^ 64 - 1

def saturatingAdd (a b : ℕ) : ℕ := min (a + b) u64Max

theorem pair_sublist {α : Type} {l : List α} {a b : α} (ha : a ∈ l) (hb : b ∈ l)
    (hne : a ≠ b) : [a, b].Sublist l ∨ [b, a].Sublist l := by
  induction l with
  | nil => simp at ha
  | cons x l ih =>
    rcases List.mem_cons.mp ha with rfl | hal <;> rcases List.mem_cons.mp hb with rfl | hbl
    · exact absurd rfl hne
    · exact .inl ((List.singleton_sublist.mpr hbl).cons_cons a)
    · exact .inr ((List.singleton_sublist.mpr hal).cons_cons b)
    · exact (ih hal hbl).imp (·.cons x) (·.cons x)

/-- In a list sorted by a relation, related members occur in that order. -/
theorem pair_sublist_of_pairwise {α : Type} {R : α → α → Prop} (hasymm : ∀ a b, R a b → ¬ R b a)
    {l : List α} (hl : l.Pairwise R) {a b : α} (ha : a ∈ l) (hb : b ∈ l) (hab : R a b) :
    [a, b].Sublist l := by
  have hne : a ≠ b := by
    rintro rfl
    exact hasymm a a hab hab
  refine (pair_sublist ha hb hne).resolve_right fun hba => ?_
  exact hasymm a b hab ((List.pairwise_cons.mp (hl.sublist hba)).1 a (by simp))

/-- Unicode White_Space, as stripped by `str::trim`. -/
def isWhitespace (c : Char) : Bool :=
  let n := c.toNat
  (0x09 ≤ n && n ≤ 0x0d) || n == 0x20 || n == 0x85 || n == 0xa0 || n == 0x1680 ||
    (0x2000 ≤ n && n ≤ 0x200a) || n == 0x2028 || n == 0x2029 || n == 0x202f || n == 0x205f ||
    n == 0x3000

def trimIsEmpty (s : String) : Bool := s.toList.all isWhitespace

structure NonZeroU32 where
  get : ℕ
  pos : 0 < get
  bounded : get < 2 ^ 32
  deriving DecidableEq

def NonZeroU32.one : NonZeroU32 := ⟨1, by decide, by decide⟩

def NonZeroU32.new (n : ℕ) : Option NonZeroU32 :=
  if h : 0 < n ∧ n < 2 ^ 32 then some ⟨n, h.1, h.2⟩ else none

structure NonZeroUsize where
  get : ℕ
  pos : 0 < get
  bounded : get < 2 ^ 64
  deriving DecidableEq

structure NodeId where
  owner : ℕ
  index : ℕ
  deriving DecidableEq, Repr

structure ResourceId where
  owner : ℕ
  index : ℕ
  deriving DecidableEq, Repr

structure ScalarSlotId where
  index : ℕ
  deriving DecidableEq, Repr

structure Sha256Digest where
  bytes : Vector UInt8 32
  deriving DecidableEq

/-- Little-endian encoding of a word of the given byte width. -/
def toLeBytes : ℕ → ℕ → List UInt8
  | 0, _ => []
  | w + 1, n => UInt8.ofNat (n % 256) :: toLeBytes w (n / 256)

@[simp] theorem toLeBytes_length (width value : ℕ) : (toLeBytes width value).length = width := by
  induction width generalizing value with
  | zero => rfl
  | succ width ih => simp [toLeBytes, ih]

theorem toLeBytes_inj {width m n : ℕ} (hm : m < 2 ^ (8 * width)) (hn : n < 2 ^ (8 * width))
    (h : toLeBytes width m = toLeBytes width n) : m = n := by
  induction width generalizing m n with
  | zero =>
    rw [Nat.mul_zero, Nat.pow_zero] at hm hn
    omega
  | succ width ih =>
    obtain ⟨hlow, hhigh⟩ := List.cons.inj h
    have hpow : 2 ^ (8 * (width + 1)) = 256 * 2 ^ (8 * width) := by
      rw [Nat.mul_add, Nat.pow_add]
      omega
    have hdiv := ih (by omega) (by omega) hhigh
    have hmod : m % 256 = n % 256 := by
      have := congrArg UInt8.toNat hlow
      simpa [Nat.mod_mod] using this
    omega

inductive RecordError where
  | emptyKernelKey
  | zeroLaunchDimension (x y z : ℕ)
  | emptyResourceLabel
  | emptyResource
  | emptyRegion
  | emptyScalarSlot (slot : ScalarSlotId)
  | regionAddressOverflow (offset len : ℕ)
  | regionOutOfBounds (resource : ResourceId) (offset len size : ℕ)
  | resourceArgumentOutOfBounds (resource : ResourceId) (offset size : ℕ)
  | undeclaredResourceArgument (resource : ResourceId) (offset : ℕ)
  | foreignResource (resource : ResourceId)
  | unknownResource (resource : ResourceId)
  | foreignNode (node : NodeId)
  | unknownNode (node : NodeId)
  | dependencyCycle (node prerequisite : NodeId)
  | tooManyResources
  | tooManyNodes
  deriving DecidableEq, Repr

/-- A nonempty byte range within one logical device allocation. -/
structure DeviceRegion where
  resource : ResourceId
  offset : ℕ
  len : ℕ
  nonempty : 0 < len
  fits : offset + len < 2 ^ 64
  deriving DecidableEq

namespace DeviceRegion

def new (resource : ResourceId) (offset len : ℕ) : Except RecordError DeviceRegion :=
  if hl : len = 0 then .error .emptyRegion
  else if hf : offset + len < 2 ^ 64 then
    .ok ⟨resource, offset, len, Nat.pos_of_ne_zero hl, hf⟩
  else .error (.regionAddressOverflow offset len)

def «end» (r : DeviceRegion) : ℕ := r.offset + r.len

def overlaps (a b : DeviceRegion) : Bool :=
  a.resource == b.resource && a.offset < b.end && b.offset < a.end

/-- The common bytes of two overlapping regions. -/
def intersection (a b : DeviceRegion) : Option DeviceRegion :=
  if h : a.overlaps b then
    some ⟨a.resource, max a.offset b.offset, min a.end b.end - max a.offset b.offset,
      by
        have ha := a.nonempty
        have hb := b.nonempty
        simp only [overlaps, Bool.and_eq_true, decide_eq_true_eq] at h
        simp only [«end»] at h ⊢
        omega,
      by
        have ha := a.fits
        have hb := b.fits
        simp only [overlaps, Bool.and_eq_true, decide_eq_true_eq] at h
        simp only [«end»] at h ⊢
        omega⟩
  else none

/-- Byte `b` of resource `r` lies in the region. -/
def Contains (a : DeviceRegion) (r : ResourceId) (b : ℕ) : Prop :=
  a.resource = r ∧ a.offset ≤ b ∧ b < a.end

theorem overlaps_iff {a b : DeviceRegion} :
    a.overlaps b = true ↔ ∃ r n, a.Contains r n ∧ b.Contains r n := by
  have ha := a.nonempty
  have hb := b.nonempty
  simp only [overlaps, Bool.and_eq_true, beq_iff_eq, decide_eq_true_eq, Contains]
  simp only [«end»]
  constructor
  · rintro ⟨⟨hr, h1⟩, h2⟩
    exact ⟨a.resource, max a.offset b.offset, ⟨rfl, by omega, by omega⟩, hr.symm, by omega, by omega⟩
  · rintro ⟨r, n, ⟨har, h1, h2⟩, hbr, h3, h4⟩
    exact ⟨⟨har.trans hbr.symm, by omega⟩, by omega⟩

theorem intersection_isSome {a b : DeviceRegion} :
    (∃ o, a.intersection b = some o) ↔ a.overlaps b = true := by
  unfold intersection
  split <;> simp_all

end DeviceRegion

inductive AccessMode where
  | read
  | write
  deriving DecidableEq, Repr

/-- One declared memory effect of a dispatch. -/
structure Access where
  region : DeviceRegion
  mode : AccessMode
  deriving DecidableEq

structure Dim3 where
  x : ℕ
  y : ℕ
  z : ℕ
  deriving DecidableEq, Repr

def Dim3.new (x y z : ℕ) : Except RecordError Dim3 :=
  if x = 0 ∨ y = 0 ∨ z = 0 then .error (.zeroLaunchDimension x y z) else .ok ⟨x, y, z⟩

def Dim3.axes (d : Dim3) : List ℕ := [d.x, d.y, d.z]

inductive KernelArg where
  | scalar (bytes : List UInt8)
  | scalarSlot (slot : ScalarSlotId) (size : ℕ)
  | resource (resource : ResourceId) (byteOffset : ℕ)
  deriving DecidableEq, Repr

/-- Bytes of a device pointer argument. -/
def devicePointerBytes : ℕ := 8

inductive KernargAbiError where
  | emptyField
  | invalidAlignment (alignment : ℕ)
  | invalidSegmentAlignment (alignment : ℕ)
  | misalignedField (offset alignment : ℕ)
  | fieldAddressOverflow (offset size : ℕ)
  | fieldExceedsSegmentAlignment (index fieldAlignment segmentAlignment : ℕ)
  | fieldOutOfBounds (index fieldEnd segmentSize : ℕ)
  | overlappingFields (first second : ℕ)
  | argumentCount (fields arguments : ℕ)
  | argumentSize (index expected actual : ℕ)
  deriving DecidableEq, Repr

def isPowerOfTwo (n : ℕ) : Bool := n != 0 && n &&& (n - 1) == 0

structure KernargField where
  offset : ℕ
  size : ℕ
  alignment : ℕ
  nonempty : 0 < size
  fits : offset + size < 2 ^ 32
  deriving DecidableEq

namespace KernargField

def new (offset size alignment : ℕ) : Except KernargAbiError KernargField :=
  if hs : size = 0 then .error .emptyField
  else if alignment = 0 ∨ ¬ isPowerOfTwo alignment then .error (.invalidAlignment alignment)
  else if offset % alignment ≠ 0 then .error (.misalignedField offset alignment)
  else if hf : offset + size < 2 ^ 32 then
    .ok ⟨offset, size, alignment, Nat.pos_of_ne_zero hs, hf⟩
  else .error (.fieldAddressOverflow offset size)

def «end» (f : KernargField) : ℕ := f.offset + f.size

end KernargField

/-- Explicit contiguous kernarg layout: fields in bounds and pairwise disjoint. -/
structure KernargAbi where
  segmentSize : ℕ
  segmentAlignment : ℕ
  fields : List KernargField
  hash : Sha256Digest
  inBounds : ∀ f ∈ fields, f.end ≤ segmentSize
  disjoint : fields.Pairwise fun a b => a.end ≤ b.offset ∨ b.end ≤ a.offset
  deriving DecidableEq

namespace KernargAbi

/-- The first objection to the field at `index`, given the fields before it. -/
def fieldError (segmentSize segmentAlignment : ℕ) (earlier : List KernargField) (index : ℕ)
    (field : KernargField) : Option KernargAbiError :=
  if field.alignment > segmentAlignment then
    some (.fieldExceedsSegmentAlignment index field.alignment segmentAlignment)
  else if field.end > segmentSize then some (.fieldOutOfBounds index field.end segmentSize)
  else (earlier.findIdx? fun other => field.offset < other.end ∧ other.offset < field.end).map
    fun other => .overlappingFields other index

def fieldsError (segmentSize segmentAlignment : ℕ) (fields : List KernargField) :
    Option KernargAbiError :=
  fields.zipIdx.findSome? fun (field, index) =>
    fieldError segmentSize segmentAlignment (fields.take index) index field

/-- Bytes hashed into the layout identity. -/
def hashInput (segmentSize segmentAlignment : ℕ) (fields : List KernargField) : List UInt8 :=
  "redline-kernarg-abi-v1\x00".toUTF8.toList ++ toLeBytes 4 segmentSize ++
    toLeBytes 4 segmentAlignment ++ toLeBytes 8 fields.length ++
    fields.flatMap fun f => toLeBytes 4 f.offset ++ toLeBytes 4 f.size ++ toLeBytes 4 f.alignment

private theorem fieldError_none {size alignment : ℕ} {fields : List KernargField}
    (h : fieldsError size alignment fields = none) {i : ℕ} {f : KernargField}
    (hf : fields[i]? = some f) : f.end ≤ size ∧
      ∀ g ∈ fields.take i, ¬ (f.offset < g.end ∧ g.offset < f.end) := by
  have hm : (f, i) ∈ fields.zipIdx := List.mk_mem_zipIdx_iff_getElem?.mpr hf
  have he := List.findSome?_eq_none_iff.mp h _ hm
  simp only [fieldError] at he
  split at he
  · cases he
  · split at he
    · cases he
    · refine ⟨by omega, fun g hg hov => ?_⟩
      have hidx := List.findIdx?_eq_none_iff.mp (Option.map_eq_none_iff.mp he) g hg
      simp [hov] at hidx

/-- Accepted layouts carry their bounds and disjointness. -/
def new (sha256 : List UInt8 → Sha256Digest) (segmentSize segmentAlignment : ℕ)
    (fields : List KernargField) : Except KernargAbiError KernargAbi :=
  if segmentAlignment = 0 ∨ ¬ isPowerOfTwo segmentAlignment then
    .error (.invalidSegmentAlignment segmentAlignment)
  else match h : fieldsError segmentSize segmentAlignment fields with
    | some error => .error error
    | none => .ok ⟨segmentSize, segmentAlignment, fields,
        sha256 (hashInput segmentSize segmentAlignment fields),
        fun f hf => by
          obtain ⟨i, hi⟩ := List.mem_iff_getElem?.mp hf
          exact (fieldError_none h hi).1,
        List.pairwise_iff_getElem.mpr fun i j hi hj hij => by
          have hd := (fieldError_none h (List.getElem?_eq_getElem hj)).2 fields[i]
            (List.mem_take_iff_getElem.mpr ⟨i, by omega, rfl⟩)
          omega⟩

/-- Size an argument occupies in the segment. -/
def argumentSize : KernelArg → ℕ
  | .scalar bytes => if bytes.length < 2 ^ 32 then bytes.length else 2 ^ 32 - 1
  | .scalarSlot _ size => size
  | .resource _ _ => devicePointerBytes

def validateArguments (abi : KernargAbi) (arguments : List KernelArg) :
    Except KernargAbiError Unit :=
  if arguments.length ≠ abi.fields.length then
    .error (.argumentCount abi.fields.length arguments.length)
  else match (arguments.zip abi.fields).zipIdx.find? fun x => argumentSize x.1.1 ≠ x.1.2.size with
    | none => .ok ()
    | some ((argument, field), index) => .error (.argumentSize index field.size (argumentSize argument))

end KernargAbi

structure KernelArtifactIdentity where
  codeObject : Sha256Digest
  symbolText : Sha256Digest
  generation : ℕ
  deriving DecidableEq

/-- Immutable metadata required to resolve and launch one kernel. -/
structure KernelLaunch where
  kernel : String
  grid : Dim3
  block : Dim3
  dynamicSharedBytes : ℕ
  arguments : List KernelArg
  kernargAbi : Option KernargAbi
  artifactIdentity : Option KernelArtifactIdentity
  estimatedWork : NonZeroU32
  deriving DecidableEq

def KernelLaunch.new (kernel : String) (grid block : Dim3) : Except RecordError KernelLaunch :=
  if trimIsEmpty kernel then .error .emptyKernelKey
  else .ok ⟨kernel, grid, block, 0, [], none, none, ⟨1, by decide, by decide⟩⟩

end Hipscope.Redline
