import Hipscope.Bytes.Delimited
import Hipscope.Redline.Plan
import Hipscope.Redline.Scheduling

/-! What the hashes of a plan identify. Every hashed word can be read back, up to
the recorder that owns the ids. -/
namespace Hipscope.Redline
open Bytes

section Words

private theorem word_determines (width : ℕ) :
    Determines (fun n => n < 2 ^ (8 * width)) (toLeBytes width) id :=
  determines_of_length width (fun _ _ => toLeBytes_length width _) fun _ _ hm hn => toLeBytes_inj hm hn

private theorem u32_determines : Determines (fun n => n < 2 ^ 32) (toLeBytes 4) id := word_determines 4

private theorem u64_determines : Determines (fun n => n < 2 ^ 64) (toLeBytes 8) id := word_determines 8

private theorem byteArray_toList (bytes : ByteArray) : bytes.toList = bytes.data.toList := by
  have hloop (i : ℕ) (read : List UInt8) :
      ByteArray.toList.loop bytes i read = read.reverse ++ bytes.data.toList.drop i := by
    fun_induction ByteArray.toList.loop bytes i read with
    | case1 i read hlt ih =>
      have hget : bytes.data.toList.drop i = bytes.get! i :: bytes.data.toList.drop (i + 1) := by
        have hlen : i < bytes.data.toList.length := by simpa using hlt
        rw [List.drop_eq_getElem_cons hlen]
        congr 1
        cases bytes with
        | mk data => simp [ByteArray.get!, show i < data.size from hlt]
      rw [ih, hget, List.reverse_cons, List.append_assoc]
      rfl
    | case2 i read hge =>
      have hlen : bytes.data.toList.length ≤ i := by simpa using hge
      rw [List.drop_eq_nil_of_le hlen, List.append_nil]
  exact hloop 0 []

private theorem utf8_inj {s t : String} (h : s.toUTF8.toList = t.toUTF8.toList) : s = t := by
  rw [byteArray_toList, byteArray_toList] at h
  apply String.toByteArray_inj.mp
  exact ByteArray.ext (Array.toList_inj.mp h)

private theorem putBytes_determines : Determines (fun bytes => bytes.length < 2 ^ 64) putBytes id := by
  intro a b x y ha hb h
  rw [putBytes, putBytes, List.append_assoc, List.append_assoc] at h
  obtain ⟨hlen, h⟩ := u64_determines ha hb h
  exact List.append_inj h hlen

private theorem putString_determines : Determines (fun s : String => s.toUTF8.toList.length < 2 ^ 64)
    (fun s => putBytes s.toUTF8.toList) id :=
  (putBytes_determines.comp fun s : String => s.toUTF8.toList).coarsen fun _ _ _ _ h => utf8_inj h

private theorem digest_determines (P : Sha256Digest → Prop) :
    Determines P (fun digest => digest.bytes.toList) id :=
  determines_of_length 32 (fun digest _ => by simp) fun a b _ _ h => by
    obtain ⟨a⟩ := a
    obtain ⟨b⟩ := b
    exact congrArg Sha256Digest.mk (Vector.toList_inj.mp h)

end Words

section Owners
variable (owner : ℕ)

/-! The same values with every id owned by `owner`. -/

def NodeId.ownedBy (n : NodeId) : NodeId := ⟨owner, n.index⟩

def ResourceId.ownedBy (r : ResourceId) : ResourceId := ⟨owner, r.index⟩

def DeviceRegion.ownedBy (r : DeviceRegion) : DeviceRegion :=
  { r with resource := r.resource.ownedBy owner }

def Access.ownedBy (a : Access) : Access := { a with region := a.region.ownedBy owner }

def KernelArg.ownedBy : KernelArg → KernelArg
  | .resource allocation byteOffset => .resource (allocation.ownedBy owner) byteOffset
  | argument => argument

def KernelLaunch.ownedBy (l : KernelLaunch) : KernelLaunch :=
  { l with arguments := l.arguments.map (KernelArg.ownedBy owner) }

def PlannedResource.ownedBy (r : PlannedResource) : PlannedResource := { r with id := r.id.ownedBy owner }

def PlannedDispatch.ownedBy (d : PlannedDispatch) : PlannedDispatch :=
  { d with
    node := d.node.ownedBy owner
    launch := d.launch.ownedBy owner
    accesses := d.accesses.map (Access.ownedBy owner)
    dependencies := d.dependencies.map (NodeId.ownedBy owner) }

end Owners

/-- What a fingerprint is of: the plan without the owner of its ids, and without the fingerprint. -/
def CompiledPlan.content (plan : CompiledPlan) : CompiledPlan :=
  { plan with
    resources := plan.resources.map (PlannedResource.ownedBy 0)
    dispatches := plan.dispatches.map (PlannedDispatch.ownedBy 0)
    terminals := plan.terminals.map (NodeId.ownedBy 0)
    fingerprint := ⟨Vector.replicate 32 0⟩ }

section Representable
variable (sha256 : List UInt8 → Sha256Digest) (words : Set (List UInt8))

/-! Numbers are machine words, lengths are 64-bit, and a kernarg layout comes
from its constructor and hashes one of `words`. -/

def KernelArg.Representable : KernelArg → Prop
  | .scalar bytes => bytes.length < 2 ^ 64
  | .scalarSlot slot size => slot.index < 2 ^ 32 ∧ size < 2 ^ 32
  | .resource allocation byteOffset => allocation.index < 2 ^ 32 ∧ byteOffset < 2 ^ 64

def Access.Representable (a : Access) : Prop := a.region.resource.index < 2 ^ 32

def Dim3.Representable (d : Dim3) : Prop := d.x < 2 ^ 32 ∧ d.y < 2 ^ 32 ∧ d.z < 2 ^ 32

structure KernargAbi.Representable (abi : KernargAbi) : Prop where
  segmentSize : abi.segmentSize < 2 ^ 32
  segmentAlignment : abi.segmentAlignment < 2 ^ 32
  count : abi.fields.length < 2 ^ 64
  alignment : ∀ f ∈ abi.fields, f.alignment < 2 ^ 32
  built : KernargAbi.new sha256 abi.segmentSize abi.segmentAlignment abi.fields = .ok abi
  hashed : KernargAbi.hashInput abi.segmentSize abi.segmentAlignment abi.fields ∈ words

structure KernelLaunch.Representable (l : KernelLaunch) : Prop where
  kernel : l.kernel.toUTF8.toList.length < 2 ^ 64
  grid : l.grid.Representable
  block : l.block.Representable
  dynamicSharedBytes : l.dynamicSharedBytes < 2 ^ 32
  arguments : l.arguments.length < 2 ^ 64 ∧ ∀ a ∈ l.arguments, a.Representable
  kernargAbi : ∀ abi ∈ l.kernargAbi, abi.Representable sha256 words
  generation : ∀ identity ∈ l.artifactIdentity, identity.generation < 2 ^ 64

structure PlannedDispatch.Representable (d : PlannedDispatch) : Prop where
  node : d.node.index < 2 ^ 32
  lane : d.lane < 2 ^ 64
  launch : d.launch.Representable sha256 words
  accesses : d.accesses.length < 2 ^ 64 ∧ ∀ a ∈ d.accesses, a.Representable
  dependencies : d.dependencies.length < 2 ^ 64 ∧ ∀ n ∈ d.dependencies, n.index < 2 ^ 32

structure PlannedResource.Representable (r : PlannedResource) : Prop where
  id : r.id.index < 2 ^ 32
  label : r.label.toUTF8.toList.length < 2 ^ 64
  size : r.size < 2 ^ 64

structure CompiledPlan.Representable (plan : CompiledPlan) : Prop where
  resources : plan.resources.length < 2 ^ 64 ∧ ∀ r ∈ plan.resources, r.Representable
  dispatches : plan.dispatches.length < 2 ^ 64 ∧ ∀ d ∈ plan.dispatches, d.Representable sha256 words
  terminals : plan.terminals.length < 2 ^ 64 ∧ ∀ n ∈ plan.terminals, n.index < 2 ^ 32

end Representable

section Views
variable {sha256 : List UInt8 → Sha256Digest} {words : Set (List UInt8)}

private theorem putDim3_determines : Determines Dim3.Representable putDim3 id := by
  have hx := (u32_determines.comp Dim3.x).restrict fun (d : Dim3) (h : d.Representable) => h.1
  have hy := (u32_determines.comp Dim3.y).restrict fun (d : Dim3) (h : d.Representable) => h.2.1
  have hz := (u32_determines.comp Dim3.z).restrict fun (d : Dim3) (h : d.Representable) => h.2.2
  refine ((hx.append hy).append hz).coarsen fun a b _ _ h => ?_
  obtain ⟨x, y, z⟩ := a
  obtain ⟨x', y', z'⟩ := b
  simp only [id, Prod.mk.injEq] at h
  obtain ⟨⟨rfl, rfl⟩, rfl⟩ := h
  rfl

private theorem putReplayMode_determines : Determines (fun _ => True) putReplayMode id := by
  intro a b x y _ _ h
  cases a with
  | tokenLatency =>
    cases b with
    | tokenLatency => exact ⟨rfl, (List.cons.inj h).2⟩
    | throughput n => cases (List.cons.inj h).1
  | throughput m =>
    cases b with
    | tokenLatency => cases (List.cons.inj h).1
    | throughput n =>
      obtain ⟨hget, hrest⟩ := u64_determines m.bounded n.bounded (List.cons.inj h).2
      obtain ⟨m, _, _⟩ := m
      obtain ⟨n, _, _⟩ := n
      obtain rfl : m = n := hget
      exact ⟨rfl, hrest⟩

private theorem slot_determines :
    Determines (fun slot : ScalarSlotId × ℕ => slot.1.index < 2 ^ 32 ∧ slot.2 < 2 ^ 32)
      (fun slot => toLeBytes 4 slot.1.index ++ toLeBytes 4 slot.2) id := by
  have hindex := (u32_determines.comp fun slot : ScalarSlotId × ℕ => slot.1.index).restrict
    fun slot (h : slot.1.index < 2 ^ 32 ∧ slot.2 < 2 ^ 32) => h.1
  have hsize := (u32_determines.comp fun slot : ScalarSlotId × ℕ => slot.2).restrict
    fun slot (h : slot.1.index < 2 ^ 32 ∧ slot.2 < 2 ^ 32) => h.2
  refine (hindex.append hsize).coarsen fun a b _ _ h => ?_
  obtain ⟨⟨index⟩, size⟩ := a
  obtain ⟨⟨index'⟩, size'⟩ := b
  obtain ⟨hindex, hsize⟩ := Prod.mk.inj h
  obtain rfl : index = index' := hindex
  obtain rfl : size = size' := hsize
  rfl

private theorem pointer_determines :
    Determines (fun pointer : ResourceId × ℕ => pointer.1.index < 2 ^ 32 ∧ pointer.2 < 2 ^ 64)
      (fun pointer => toLeBytes 4 pointer.1.index ++ toLeBytes 8 pointer.2)
      fun pointer => (pointer.1.ownedBy 0, pointer.2) := by
  have hindex := (u32_determines.comp fun pointer : ResourceId × ℕ => pointer.1.index).restrict
    fun pointer (h : pointer.1.index < 2 ^ 32 ∧ pointer.2 < 2 ^ 64) => h.1
  have hoffset := (u64_determines.comp fun pointer : ResourceId × ℕ => pointer.2).restrict
    fun pointer (h : pointer.1.index < 2 ^ 32 ∧ pointer.2 < 2 ^ 64) => h.2
  refine (hindex.append hoffset).coarsen fun a b _ _ h => ?_
  obtain ⟨hindex, hoffset⟩ := Prod.mk.inj h
  exact Prod.ext (congrArg (ResourceId.mk 0) hindex) hoffset

private theorem putArgument_determines :
    Determines KernelArg.Representable putArgument (KernelArg.ownedBy 0) := by
  intro a b x y ha hb h
  cases a with
  | scalar bytes =>
    cases b with
    | scalar bytes' =>
      obtain ⟨hbytes, hrest⟩ := putBytes_determines ha hb (List.cons.inj h).2
      exact ⟨congrArg KernelArg.scalar hbytes, hrest⟩
    | scalarSlot slot size => cases (List.cons.inj h).1
    | resource allocation byteOffset => cases (List.cons.inj h).1
  | scalarSlot slot size =>
    cases b with
    | scalar bytes' => cases (List.cons.inj h).1
    | scalarSlot slot' size' =>
      obtain ⟨hpair, hrest⟩ := slot_determines (a := (slot, size)) (b := (slot', size')) ha hb
        (List.cons.inj h).2
      obtain ⟨rfl, rfl⟩ := Prod.mk.inj hpair
      exact ⟨rfl, hrest⟩
    | resource allocation byteOffset => cases (List.cons.inj h).1
  | resource allocation byteOffset =>
    cases b with
    | scalar bytes' => cases (List.cons.inj h).1
    | scalarSlot slot size => cases (List.cons.inj h).1
    | resource allocation' byteOffset' =>
      obtain ⟨hpair, hrest⟩ := pointer_determines (a := (allocation, byteOffset))
        (b := (allocation', byteOffset')) ha hb (List.cons.inj h).2
      obtain ⟨hallocation, rfl⟩ := Prod.mk.inj hpair
      exact ⟨by rw [KernelArg.ownedBy, KernelArg.ownedBy, hallocation], hrest⟩

private theorem region_determines : Determines Access.Representable
    (fun a => toLeBytes 4 a.region.resource.index ++ toLeBytes 8 a.region.offset ++ toLeBytes 8 a.region.len)
    fun a => a.region.ownedBy 0 := by
  have hindex := (u32_determines.comp fun a : Access => a.region.resource.index).restrict
    fun (a : Access) (h : a.Representable) => h
  have hoffset := (u64_determines.comp fun a : Access => a.region.offset).restrict
    fun (a : Access) (_ : a.Representable) => Nat.lt_of_le_of_lt (Nat.le_add_right _ _) a.region.fits
  have hlen := (u64_determines.comp fun a : Access => a.region.len).restrict
    fun (a : Access) (_ : a.Representable) => Nat.lt_of_le_of_lt (Nat.le_add_left _ _) a.region.fits
  refine ((hindex.append hoffset).append hlen).coarsen fun a b _ _ h => ?_
  obtain ⟨⟨⟨owner, index⟩, offset, len, _, _⟩, mode⟩ := a
  obtain ⟨⟨⟨owner', index'⟩, offset', len', _, _⟩, mode'⟩ := b
  simp only [id, Prod.mk.injEq] at h
  obtain ⟨⟨rfl, rfl⟩, rfl⟩ := h
  rfl

private theorem putAccess_determines : Determines Access.Representable putAccess (Access.ownedBy 0) := by
  intro a b x y ha hb h
  obtain ⟨htag, h⟩ := List.cons.inj h
  obtain ⟨hregion, hrest⟩ := region_determines ha hb h
  have hmode : a.mode = b.mode := by
    cases hm : a.mode <;> cases hm' : b.mode <;> simp [hm, hm'] at htag ⊢
  obtain ⟨region, mode⟩ := a
  obtain ⟨region', mode'⟩ := b
  obtain rfl : mode = mode' := hmode
  exact ⟨congrArg (fun r => Access.mk r mode) hregion, hrest⟩

private theorem field_determines : Determines (fun f : KernargField => f.alignment < 2 ^ 32)
    (fun f => toLeBytes 4 f.offset ++ toLeBytes 4 f.size ++ toLeBytes 4 f.alignment) id := by
  have hoffset := (u32_determines.comp KernargField.offset).restrict
    fun f (_ : f.alignment < 2 ^ 32) => Nat.lt_of_le_of_lt (Nat.le_add_right _ _) f.fits
  have hsize := (u32_determines.comp KernargField.size).restrict
    fun f (_ : f.alignment < 2 ^ 32) => Nat.lt_of_le_of_lt (Nat.le_add_left _ _) f.fits
  have halignment := u32_determines.comp KernargField.alignment
  refine ((hoffset.append hsize).append halignment).coarsen fun a b _ _ h => ?_
  obtain ⟨offset, size, alignment, _, _⟩ := a
  obtain ⟨offset', size', alignment', _, _⟩ := b
  simp only [id, Prod.mk.injEq] at h
  obtain ⟨⟨rfl, rfl⟩, rfl⟩ := h
  rfl

private theorem hashInput_determines : Determines (KernargAbi.Representable sha256 words)
    (fun abi => KernargAbi.hashInput abi.segmentSize abi.segmentAlignment abi.fields) id := by
  have hsize := (u32_determines.comp KernargAbi.segmentSize).restrict
    fun abi (h : abi.Representable sha256 words) => h.segmentSize
  have halignment := (u32_determines.comp KernargAbi.segmentAlignment).restrict
    fun abi (h : abi.Representable sha256 words) => h.segmentAlignment
  have hfields := ((u64_determines.counted field_determines).comp KernargAbi.fields).restrict
    fun abi (h : abi.Representable sha256 words) => ⟨h.count, h.alignment⟩
  refine ((((Determines.constant _).append hsize).append halignment).append_pair hfields).coarsen
    fun a b ha hb h => ?_
  simp only [id, Prod.mk.injEq] at h
  obtain ⟨⟨⟨-, hsize⟩, halignment⟩, hfields⟩ := h
  rw [List.map_id, List.map_id] at hfields
  have hbuilt := ha.built
  rw [hsize, halignment, hfields, hb.built] at hbuilt
  exact (Except.ok.inj hbuilt).symm

theorem KernargAbi.Representable.hash_eq {abi : KernargAbi} (h : abi.Representable sha256 words) :
    abi.hash = sha256 (hashInput abi.segmentSize abi.segmentAlignment abi.fields) := by
  have hbuilt := h.built
  rw [KernargAbi.new] at hbuilt
  split_ifs at hbuilt
  split at hbuilt
  · cases hbuilt
  · exact (congrArg KernargAbi.hash (Except.ok.inj hbuilt)).symm

/-- The hash of a kernarg layout identifies it. -/
private theorem abi_hash_inj (hinj : Set.InjOn sha256 words) {a b : KernargAbi}
    (ha : a.Representable sha256 words) (hb : b.Representable sha256 words) (h : a.hash = b.hash) : a = b := by
  rw [ha.hash_eq, hb.hash_eq] at h
  exact hashInput_determines.word ha hb (hinj ha.hashed hb.hashed h)

private theorem putAbi_determines (hinj : Set.InjOn sha256 words) :
    Determines (fun abi : Option KernargAbi => ∀ a ∈ abi, a.Representable sha256 words)
      (fun abi => abi.elim [0] fun abi => 1 :: abi.hash.bytes.toList) id := by
  intro a b x y ha hb h
  cases a with
  | none =>
    cases b with
    | none => exact ⟨rfl, (List.cons.inj h).2⟩
    | some b => cases (List.cons.inj h).1
  | some a =>
    cases b with
    | none => cases (List.cons.inj h).1
    | some b =>
      obtain ⟨hhash, hrest⟩ := digest_determines (fun _ => True) trivial trivial (List.cons.inj h).2
      exact ⟨congrArg some (abi_hash_inj hinj (ha a rfl) (hb b rfl) hhash), hrest⟩

private theorem identity_determines : Determines (fun i : KernelArtifactIdentity => i.generation < 2 ^ 64)
    (fun i => i.codeObject.bytes.toList ++ i.symbolText.bytes.toList ++ toLeBytes 8 i.generation) id := by
  have hcode := (digest_determines fun _ => True).comp KernelArtifactIdentity.codeObject
  have hsymbol := (digest_determines fun _ => True).comp KernelArtifactIdentity.symbolText
  have hgeneration := u64_determines.comp KernelArtifactIdentity.generation
  refine (((hcode.append hsymbol).restrict fun _ _ => trivial).append hgeneration).coarsen
    fun a b _ _ h => ?_
  obtain ⟨codeObject, symbolText, generation⟩ := a
  obtain ⟨codeObject', symbolText', generation'⟩ := b
  simp only [id, Prod.mk.injEq] at h
  obtain ⟨⟨rfl, rfl⟩, rfl⟩ := h
  rfl

private theorem putIdentity_determines :
    Determines (fun i : Option KernelArtifactIdentity => ∀ a ∈ i, a.generation < 2 ^ 64)
      (fun i => i.elim [0] fun i => 1 :: (i.codeObject.bytes.toList ++ i.symbolText.bytes.toList ++
        toLeBytes 8 i.generation)) id := by
  intro a b x y ha hb h
  cases a with
  | none =>
    cases b with
    | none => exact ⟨rfl, (List.cons.inj h).2⟩
    | some b => cases (List.cons.inj h).1
  | some a =>
    cases b with
    | none => cases (List.cons.inj h).1
    | some b =>
      obtain ⟨hidentity, hrest⟩ := identity_determines (ha a rfl) (hb b rfl) (List.cons.inj h).2
      exact ⟨congrArg some hidentity, hrest⟩

private theorem node_determines : Determines (fun n : NodeId => n.index < 2 ^ 32)
    (fun n => toLeBytes 4 n.index) (NodeId.ownedBy 0) :=
  (u32_determines.comp NodeId.index).coarsen fun _ _ _ _ h => congrArg (NodeId.mk 0) h

/-- A dispatch without its owner and without the times that follow from its place. -/
def PlannedDispatch.untimed (d : PlannedDispatch) : PlannedDispatch :=
  { d.ownedBy 0 with estimatedStart := 0, estimatedEnd := 0 }

private theorem putDispatch_eq (d : PlannedDispatch) : putDispatch d =
    toLeBytes 4 d.node.index ++ toLeBytes 8 d.lane ++ putBytes d.launch.kernel.toUTF8.toList ++
      putDim3 d.launch.grid ++ putDim3 d.launch.block ++ toLeBytes 4 d.launch.dynamicSharedBytes ++
      toLeBytes 4 d.launch.estimatedWork.get ++
      (d.launch.kernargAbi.elim [0] fun abi => 1 :: abi.hash.bytes.toList) ++
      (d.launch.artifactIdentity.elim [0] fun i => 1 :: (i.codeObject.bytes.toList ++
        i.symbolText.bytes.toList ++ toLeBytes 8 i.generation)) ++
      toLeBytes 8 d.launch.arguments.length ++ d.launch.arguments.flatMap putArgument ++
      toLeBytes 8 d.accesses.length ++ d.accesses.flatMap putAccess ++
      toLeBytes 8 d.dependencies.length ++ d.dependencies.flatMap fun n => toLeBytes 4 n.index := by
  rw [putDispatch]
  cases d.launch.kernargAbi <;> cases d.launch.artifactIdentity <;> simp only [Option.elim]

private theorem putDispatch_determines (hinj : Set.InjOn sha256 words) :
    Determines (PlannedDispatch.Representable sha256 words) putDispatch PlannedDispatch.untimed := by
  have hnode := (node_determines.comp PlannedDispatch.node).restrict
    fun d (h : d.Representable sha256 words) => h.node
  have hlane := (u64_determines.comp PlannedDispatch.lane).restrict
    fun d (h : d.Representable sha256 words) => h.lane
  have hkernel := (putString_determines.comp fun d : PlannedDispatch => d.launch.kernel).restrict
    fun d (h : d.Representable sha256 words) => h.launch.kernel
  have hgrid := (putDim3_determines.comp fun d : PlannedDispatch => d.launch.grid).restrict
    fun d (h : d.Representable sha256 words) => h.launch.grid
  have hblock := (putDim3_determines.comp fun d : PlannedDispatch => d.launch.block).restrict
    fun d (h : d.Representable sha256 words) => h.launch.block
  have hshared := (u32_determines.comp fun d : PlannedDispatch => d.launch.dynamicSharedBytes).restrict
    fun d (h : d.Representable sha256 words) => h.launch.dynamicSharedBytes
  have hwork := (u32_determines.comp fun d : PlannedDispatch => d.launch.estimatedWork.get).restrict
    fun d (_ : d.Representable sha256 words) => d.launch.estimatedWork.bounded
  have habi := ((putAbi_determines hinj).comp fun d : PlannedDispatch => d.launch.kernargAbi).restrict
    fun d (h : d.Representable sha256 words) => h.launch.kernargAbi
  have hidentity := (putIdentity_determines.comp fun d : PlannedDispatch => d.launch.artifactIdentity).restrict
    fun d (h : d.Representable sha256 words) => h.launch.generation
  have harguments := ((u64_determines.counted putArgument_determines).comp
    fun d : PlannedDispatch => d.launch.arguments).restrict
    fun d (h : d.Representable sha256 words) => h.launch.arguments
  have haccesses := ((u64_determines.counted putAccess_determines).comp PlannedDispatch.accesses).restrict
    fun d (h : d.Representable sha256 words) => h.accesses
  have hdependencies := ((u64_determines.counted node_determines).comp PlannedDispatch.dependencies).restrict
    fun d (h : d.Representable sha256 words) => h.dependencies
  have hall := ((((((((((hnode.append hlane).append hkernel).append hgrid).append hblock).append
    hshared).append hwork).append habi).append hidentity).append_pair harguments).append_pair
    haccesses).append_pair hdependencies
  intro a b x y ha hb h
  rw [putDispatch_eq, putDispatch_eq] at h
  obtain ⟨hview, hrest⟩ := hall ha hb h
  refine ⟨?_, hrest⟩
  simp only [id, Prod.mk.injEq] at hview
  obtain ⟨⟨⟨⟨⟨⟨⟨⟨⟨⟨⟨hnode, hlane⟩, hkernel⟩, hgrid⟩, hblock⟩, hshared⟩, hwork⟩, habi⟩, hidentity⟩,
    harguments⟩, haccesses⟩, hdependencies⟩ := hview
  have hwork : a.launch.estimatedWork = b.launch.estimatedWork := by
    cases ha : a.launch.estimatedWork
    cases hb : b.launch.estimatedWork
    simp_all
  simp only [PlannedDispatch.untimed, PlannedDispatch.ownedBy, KernelLaunch.ownedBy, hnode, hlane, hkernel,
    hgrid, hblock, hshared, hwork, habi, hidentity, harguments, haccesses, hdependencies]

private theorem putResource_determines : Determines PlannedResource.Representable
    (fun resource => toLeBytes 4 resource.id.index ++ putBytes resource.label.toUTF8.toList ++
      toLeBytes 8 resource.size) (PlannedResource.ownedBy 0) := by
  have hindex := (u32_determines.comp fun r : PlannedResource => r.id.index).restrict
    fun r (h : r.Representable) => h.id
  have hlabel := (putString_determines.comp PlannedResource.label).restrict
    fun r (h : r.Representable) => h.label
  have hsize := (u64_determines.comp PlannedResource.size).restrict
    fun r (h : r.Representable) => h.size
  refine ((hindex.append hlabel).append hsize).coarsen fun a b _ _ h => ?_
  obtain ⟨⟨owner, index⟩, label, size⟩ := a
  obtain ⟨⟨owner', index'⟩, label', size'⟩ := b
  simp only [id, Prod.mk.injEq] at h
  obtain ⟨⟨rfl, rfl⟩, rfl⟩ := h
  rfl

/-- The content of a plan without the times of its dispatches. -/
def CompiledPlan.untimed (plan : CompiledPlan) : CompiledPlan :=
  { plan.content with dispatches := plan.dispatches.map PlannedDispatch.untimed }

private theorem fingerprintInput_determines (hinj : Set.InjOn sha256 words) :
    Determines (CompiledPlan.Representable sha256 words) fingerprintInput CompiledPlan.untimed := by
  have hlanes := (u64_determines.comp fun plan : CompiledPlan => plan.laneCount.get).restrict
    fun plan (_ : plan.Representable sha256 words) => plan.laneCount.bounded
  have hmode := (putReplayMode_determines.comp CompiledPlan.replayMode).restrict
    fun plan (_ : plan.Representable sha256 words) => trivial
  have hresources := ((u64_determines.counted putResource_determines).comp CompiledPlan.resources).restrict
    fun plan (h : plan.Representable sha256 words) => h.resources
  have hdispatches := ((u64_determines.counted (putDispatch_determines hinj)).comp
    CompiledPlan.dispatches).restrict fun plan (h : plan.Representable sha256 words) => h.dispatches
  have hterminals := ((u64_determines.counted node_determines).comp CompiledPlan.terminals).restrict
    fun plan (h : plan.Representable sha256 words) => h.terminals
  have hall := ((((((Determines.constant "redline-compiled-plan-v1\x00".toUTF8.toList).append hlanes).append
    hmode).append_pair hresources).append_pair hdispatches).append_pair hterminals)
  intro a b x y ha hb h
  rw [fingerprintInput, fingerprintInput] at h
  obtain ⟨hview, hrest⟩ := hall ha hb h
  refine ⟨?_, hrest⟩
  simp only [id, Prod.mk.injEq] at hview
  obtain ⟨⟨⟨⟨⟨-, hlanes⟩, hmode⟩, hresources⟩, hdispatches⟩, hterminals⟩ := hview
  have hlanes : a.laneCount = b.laneCount := by
    cases ha : a.laneCount
    cases hb : b.laneCount
    simp_all
  simp only [CompiledPlan.untimed, CompiledPlan.content, hlanes, hmode, hresources, hdispatches, hterminals]

end Views

section Times
variable {r r' : Recorder} {s s' : Schedule}

/-- What placing a recorded node appends, and where its times come from. -/
private theorem place_spec (hv : r.Valid) (hlanes : 0 < s.laneAvailable.length) {x : NodeId}
    (hx : x ∈ r.ids) : ∃ (d : PlannedDispatch) (t : ℕ),
      s.place r x = ⟨s.laneAvailable.set d.lane d.estimatedEnd,
        Function.update s.nodeFinish x d.estimatedEnd, s.dispatches ++ [d]⟩ ∧
      d.node = x ∧ d.dependencies = predecessors r.edges x ∧ s.laneAvailable[d.lane]? = some t ∧
      d.estimatedStart = max t ((d.dependencies.map s.nodeFinish).foldl max 0) ∧
      d.estimatedEnd = saturatingAdd d.estimatedStart d.launch.estimatedWork.get := by
  obtain ⟨n, hn, -, -⟩ := hv.node_of_id hx
  obtain ⟨p, t, hp, ht, hstart, hfinish⟩ := choosePlacement_spec hlanes
    (((predecessors r.edges x).map s.nodeFinish).foldl max 0) n.launch.estimatedWork.get
  rw [Schedule.place, hn]
  simp only [hp]
  exact ⟨⟨x, p.lane, n.launch, n.accesses, predecessors r.edges x, p.start, p.finish⟩, t, rfl, rfl, rfl, ht,
    hstart, hfinish⟩

private theorem schedule_lanes (r : Recorder) (order : List NodeId) (laneCount : ℕ) :
    (schedule r order laneCount).laneAvailable.length = laneCount := by
  induction order using List.reverseRecOn with
  | nil => exact List.length_replicate
  | append_singleton order x ih =>
    rw [schedule, List.foldl_append]
    change (Schedule.place r (schedule r order laneCount) x).laneAvailable.length = laneCount
    rw [Schedule.place]
    split
    · exact ih
    · dsimp only
      split
      · exact ih
      · rw [List.length_set]
        exact ih

/-- Two schedules that differ in the owner of their ids only. -/
private structure Agree (o o' : ℕ) (s s' : Schedule) : Prop where
  lanes : s.laneAvailable = s'.laneAvailable
  finish : ∀ i, s.nodeFinish ⟨o, i⟩ = s'.nodeFinish ⟨o', i⟩
  dispatches : s.dispatches.map (PlannedDispatch.ownedBy 0) = s'.dispatches.map (PlannedDispatch.ownedBy 0)

private theorem map_owned {o : ℕ} {nodes : List NodeId} (h : ∀ a ∈ nodes, a.owner = o) (f : NodeId → ℕ) :
    nodes.map f = (nodes.map (NodeId.ownedBy 0)).map fun n => f ⟨o, n.index⟩ := by
  rw [List.map_map]
  apply List.map_congr_left
  intro a ha
  rw [Function.comp_apply, NodeId.ownedBy, ← h a ha]

private theorem predecessors_owned (hv : r.Valid) (x : NodeId) :
    ∀ a ∈ predecessors r.edges x, a.owner = r.owner :=
  fun a ha => (hv.mem_ids.mp (hv.edges_known a x (mem_predecessors.mp ha)).1).1

private theorem Agree.place (h : Agree r.owner r'.owner s s') (hv : r.Valid) (hv' : r'.Valid)
    (hlanes : 0 < s.laneAvailable.length) {x x' : NodeId} (hx : x ∈ r.ids) (hx' : x' ∈ r'.ids)
    (hlast : (s.place r x).dispatches.map PlannedDispatch.untimed =
      (s'.place r' x').dispatches.map PlannedDispatch.untimed) :
    Agree r.owner r'.owner (s.place r x) (s'.place r' x') := by
  obtain ⟨d, t, hplace, hnode, hdeps, ht, hstart, hend⟩ := place_spec hv hlanes hx
  obtain ⟨d', t', hplace', hnode', hdeps', ht', hstart', hend'⟩ := place_spec hv' (h.lanes ▸ hlanes) hx'
  rw [hplace, hplace'] at hlast ⊢
  have hlength : s.dispatches.length = s'.dispatches.length := by
    simpa using congrArg List.length h.dispatches
  rw [List.map_append, List.map_append] at hlast
  have hview : d.untimed = d'.untimed := by
    have := (List.append_inj hlast (by simpa using hlength)).2
    simpa using this
  simp only [PlannedDispatch.untimed, PlannedDispatch.ownedBy, KernelLaunch.ownedBy,
    PlannedDispatch.mk.injEq, KernelLaunch.mk.injEq, and_true] at hview
  obtain ⟨hindex, hlane, ⟨hkernel, hgrid, hblock, hshared, harguments, habi, hidentity, hwork⟩, haccesses,
    hdependencies⟩ := hview
  have hready : d.dependencies.map s.nodeFinish = d'.dependencies.map s'.nodeFinish := by
    have howned := map_owned (hdeps ▸ predecessors_owned hv x) s.nodeFinish
    have howned' := map_owned (hdeps' ▸ predecessors_owned hv' x') s'.nodeFinish
    rw [howned, howned', hdependencies]
    simp only [h.finish]
  have hfree : t = t' := by
    rw [h.lanes, hlane, ht'] at ht
    exact (Option.some.inj ht).symm
  have hstarts : d.estimatedStart = d'.estimatedStart := by rw [hstart, hstart', hfree, hready]
  have hends : d.estimatedEnd = d'.estimatedEnd := by rw [hend, hend', hstarts, hwork]
  refine ⟨by rw [h.lanes, hlane, hends], fun i => ?_, ?_⟩
  · have howner := (hv.mem_ids.mp hx).1
    have howner' := (hv'.mem_ids.mp hx').1
    have hsame : x.index = x'.index := by
      have := congrArg NodeId.index hindex
      rwa [hnode, hnode'] at this
    obtain ⟨owner, index⟩ := x
    obtain ⟨owner', index'⟩ := x'
    obtain rfl : owner = r.owner := howner
    obtain rfl : owner' = r'.owner := howner'
    obtain rfl : index = index' := hsame
    by_cases hi : i = index
    · simp [hi, hends]
    · simp [Function.update, hi, h.finish]
  · rw [List.map_append, List.map_append, h.dispatches]
    congr 1
    simp only [List.map_cons, List.map_nil, PlannedDispatch.ownedBy, KernelLaunch.ownedBy, hindex, hlane,
      hkernel, hgrid, hblock, hshared, harguments, habi, hidentity, hwork, haccesses, hdependencies,
      hstarts, hends]

/-- The times of a schedule follow from its dispatches. -/
private theorem schedule_agree (hv : r.Valid) (hv' : r'.Valid) {laneCount : ℕ} (hlanes : 0 < laneCount)
    {order order' : List NodeId} (hmem : ∀ a ∈ order, a ∈ r.ids) (hmem' : ∀ a ∈ order', a ∈ r'.ids)
    (hlen : order.length = order'.length)
    (h : (schedule r order laneCount).dispatches.map PlannedDispatch.untimed =
      (schedule r' order' laneCount).dispatches.map PlannedDispatch.untimed) :
    Agree r.owner r'.owner (schedule r order laneCount) (schedule r' order' laneCount) := by
  induction order using List.reverseRecOn generalizing order' with
  | nil =>
    obtain rfl := List.length_eq_zero_iff.mp hlen.symm
    exact ⟨rfl, fun _ => rfl, rfl⟩
  | append_singleton order x ih =>
    rcases List.eq_nil_or_concat order' with rfl | ⟨order', x', rfl⟩
    · simp at hlen
    rw [List.concat_eq_append] at *
    have hstep : schedule r (order ++ [x]) laneCount = (schedule r order laneCount).place r x :=
      List.foldl_append
    have hstep' : schedule r' (order' ++ [x']) laneCount = (schedule r' order' laneCount).place r' x' :=
      List.foldl_append
    have hx : x ∈ r.ids := hmem x (by simp)
    have hx' : x' ∈ r'.ids := hmem' x' (by simp)
    have hpos (r : Recorder) (order : List NodeId) : 0 < (schedule r order laneCount).laneAvailable.length :=
      (schedule_lanes r order laneCount).symm ▸ hlanes
    rw [hstep, hstep'] at h ⊢
    have hearlier : (schedule r order laneCount).dispatches.map PlannedDispatch.untimed =
        (schedule r' order' laneCount).dispatches.map PlannedDispatch.untimed := by
      obtain ⟨d, _, hplace, -⟩ := place_spec hv (hpos r order) hx
      obtain ⟨d', _, hplace', -⟩ := place_spec hv' (hpos r' order') hx'
      rw [hplace, hplace', List.map_append, List.map_append] at h
      exact (List.append_inj' h rfl).1
    have hagree := ih (fun a ha => hmem a (by simp [ha])) (fun a ha => hmem' a (by simp [ha]))
      (by simpa using hlen) hearlier
    exact hagree.place hv hv' (hpos r order) hx hx' h

private theorem schedule_length (hv : r.Valid) {laneCount : ℕ} (hlanes : 0 < laneCount)
    {order : List NodeId} (hmem : ∀ a ∈ order, a ∈ r.ids) :
    (schedule r order laneCount).dispatches.length = order.length := by
  induction order using List.reverseRecOn with
  | nil => rfl
  | append_singleton order x ih =>
    have hstep : schedule r (order ++ [x]) laneCount = (schedule r order laneCount).place r x :=
      List.foldl_append
    obtain ⟨d, _, hplace, -⟩ := place_spec hv
      ((schedule_lanes r order laneCount).symm ▸ hlanes) (hmem x (by simp))
    rw [hstep, hplace, List.length_append, List.length_append, ih fun a ha => hmem a (by simp [ha])]
    rfl

/-- What a successful compilation returns. -/
private theorem compile_ok {sha256 : List UInt8 → Sha256Digest} {r : Recorder} (hv : r.Valid)
    {options : CompileOptions} {plan : CompiledPlan} (h : compile sha256 r options = .ok plan) :
    ∃ order, (∀ a ∈ order, a ∈ r.ids) ∧
      plan.dispatches = (schedule r order options.laneCount.get).dispatches ∧
      plan.laneCount = options.laneCount ∧ plan.fingerprint = sha256 (fingerprintInput plan) := by
  obtain ⟨order, htopo, hperm, -⟩ := hv.topologicalOrder_ok
  refine ⟨order, fun a ha => hperm.mem_iff.mp ha, ?_⟩
  cases hc : validateKernelContracts r with
  | error e => simp [compile, hc, bind, Except.bind] at h
  | ok _ =>
    simp only [compile, hc, htopo, bind, Except.bind] at h
    split at h
    · cases h
    · obtain rfl := Except.ok.inj h
      exact ⟨rfl, rfl, rfl⟩

/-- Plans compiled from equal data have equal times. -/
private theorem compiled_times {sha256 : List UInt8 → Sha256Digest} (hv : r.Valid) (hv' : r'.Valid)
    {options options' : CompileOptions} {plan plan' : CompiledPlan}
    (h : compile sha256 r options = .ok plan) (h' : compile sha256 r' options' = .ok plan')
    (hview : plan.untimed = plan'.untimed) :
    plan.dispatches.map (PlannedDispatch.ownedBy 0) = plan'.dispatches.map (PlannedDispatch.ownedBy 0) := by
  obtain ⟨order, hmem, hdispatches, hlanes, -⟩ := compile_ok hv h
  obtain ⟨order', hmem', hdispatches', hlanes', -⟩ := compile_ok hv' h'
  simp only [CompiledPlan.untimed, CompiledPlan.content, CompiledPlan.mk.injEq] at hview
  obtain ⟨-, hmap, -, hcount, -⟩ := hview
  have hsame : options.laneCount = options'.laneCount := by rw [← hlanes, ← hlanes', hcount]
  rw [hdispatches, hdispatches', hsame] at hmap ⊢
  have hpos := options'.laneCount.pos
  have hlen : order.length = order'.length := by
    rw [← schedule_length hv hpos hmem, ← schedule_length hv' hpos hmem']
    simpa using congrArg List.length hmap
  exact (schedule_agree hv hv' hpos hmem hmem' hlen hmap).dispatches

end Times

section Hashes
variable {sha256 : List UInt8 → Sha256Digest} {words : Set (List UInt8)}

private theorem mem_mapInsert {K V : Type} [DecidableEq K] {lt : K → K → Bool} {k : K} {v : V}
    {entries : List (K × V)} {entry : K × V} (h : entry ∈ mapInsert lt k v entries) :
    entry = (k, v) ∨ entry ∈ entries := by
  induction entries with
  | nil => exact .inl (List.mem_singleton.mp h)
  | cons first rest ih =>
    obtain ⟨k', v'⟩ := first
    simp only [mapInsert] at h
    split_ifs at h
    · exact (List.mem_cons.mp h).imp_right (List.mem_cons_of_mem _)
    · exact List.mem_cons.mp h
    · rcases List.mem_cons.mp h with rfl | h
      · exact .inr List.mem_cons_self
      · exact (ih h).imp_right (List.mem_cons_of_mem _)

/-- What the layout hash covers. -/
def ReplayBindings.layoutData (b : ReplayBindings) (plan : CompiledPlan) :
    List (ℕ × ℕ × Option AllocationPolicy) × List (ScalarSlotId × ℕ) :=
  (plan.resources.map fun resource =>
    (resource.id.index, resource.size, (b.resource resource.id).map ResourceBinding.policy),
    plan.scalarSlots)

inductive BackendKind where
  | hipSerial
  | hipMultiStream
  | directAql
  deriving DecidableEq, Repr

structure PlanCacheKey where
  plan : Sha256Digest
  bindingLayout : Sha256Digest
  artifacts : Sha256Digest
  device : String
  backend : BackendKind
  deriving DecidableEq

namespace PlanCacheKey

/-- Bytes hashed into the identity of a plan's kernels. -/
def artifactsInput (plan : CompiledPlan) : List UInt8 :=
  "redline-plan-artifacts-v1\x00".toUTF8.toList ++ plan.artifactIdentities.flatMap fun artifact =>
    putBytes artifact.1.toUTF8.toList ++ artifact.2.codeObject.bytes.toList ++
      artifact.2.symbolText.bytes.toList ++ toLeBytes 8 artifact.2.generation

def new (sha256 : List UInt8 → Sha256Digest) (plan : CompiledPlan) (bindings : ReplayBindings)
    (device : String) (backend : BackendKind) : Except ReplayBindingError PlanCacheKey := do
  let bindingLayout ← bindings.layoutFingerprint sha256 plan
  return ⟨plan.fingerprint, bindingLayout, sha256 (artifactsInput plan), device, backend⟩

end PlanCacheKey

private theorem mem_scalarSlots {plan : CompiledPlan} (h : plan.Representable sha256 words) :
    ∀ slot ∈ plan.scalarSlots, slot.1.index < 2 ^ 32 ∧ slot.2 < 2 ^ 32 := by
  refine List.foldlRecOn (motive := fun slots => ∀ slot ∈ (slots : List (ScalarSlotId × ℕ)),
    slot.1.index < 2 ^ 32 ∧ slot.2 < 2 ^ 32) _ _ (by simp) ?_
  intro slots hslots argument hargument entry hentry
  obtain ⟨d, hd, ha⟩ := List.mem_flatMap.mp hargument
  have hwords := (h.dispatches.2 d hd).launch.arguments.2 argument ha
  cases argument with
  | scalar bytes => exact hslots entry hentry
  | resource allocation byteOffset => exact hslots entry hentry
  | scalarSlot slot size =>
    rcases mem_mapInsert hentry with rfl | hentry
    · exact hwords
    · exact hslots entry hentry

private theorem mem_artifactIdentities {plan : CompiledPlan} (h : plan.Representable sha256 words) :
    ∀ artifact ∈ plan.artifactIdentities,
      artifact.1.toUTF8.toList.length < 2 ^ 64 ∧ artifact.2.generation < 2 ^ 64 := by
  refine List.foldlRecOn (motive := fun artifacts => ∀ artifact ∈ (artifacts : List (String × KernelArtifactIdentity)),
    artifact.1.toUTF8.toList.length < 2 ^ 64 ∧ artifact.2.generation < 2 ^ 64) _ _ (by simp) ?_
  intro artifacts hartifacts d hd entry hentry
  have hlaunch := (h.dispatches.2 d hd).launch
  cases hidentity : d.launch.artifactIdentity with
  | none =>
    rw [hidentity] at hentry
    exact hartifacts entry hentry
  | some identity =>
    rw [hidentity] at hentry
    rcases mem_mapInsert hentry with rfl | hentry
    · exact ⟨hlaunch.kernel, hlaunch.generation identity hidentity⟩
    · exact hartifacts entry hentry

private theorem artifact_determines : Determines
    (fun artifact : String × KernelArtifactIdentity =>
      artifact.1.toUTF8.toList.length < 2 ^ 64 ∧ artifact.2.generation < 2 ^ 64)
    (fun artifact => putBytes artifact.1.toUTF8.toList ++ artifact.2.codeObject.bytes.toList ++
      artifact.2.symbolText.bytes.toList ++ toLeBytes 8 artifact.2.generation) id := by
  have hkernel := (putString_determines.comp fun a : String × KernelArtifactIdentity => a.1).restrict
    fun a (h : a.1.toUTF8.toList.length < 2 ^ 64 ∧ a.2.generation < 2 ^ 64) => h.1
  have hidentity := (identity_determines.comp fun a : String × KernelArtifactIdentity => a.2).restrict
    fun a (h : a.1.toUTF8.toList.length < 2 ^ 64 ∧ a.2.generation < 2 ^ 64) => h.2
  have hall : Determines _ _ id := (hkernel.append hidentity).coarsen
    fun a b _ _ h => Prod.ext (Prod.mk.inj h).1 (Prod.mk.inj h).2
  simpa only [List.append_assoc] using hall

/-- The words hashed for two plans agree exactly if their kernels do. -/
private theorem artifactsInput_inj {plan plan' : CompiledPlan} (h : plan.Representable sha256 words)
    (h' : plan'.Representable sha256 words)
    (heq : PlanCacheKey.artifactsInput plan = PlanCacheKey.artifactsInput plan') :
    plan.artifactIdentities = plan'.artifactIdentities := by
  have hmap := artifact_determines.remainder (fun a _ => by simp [putBytes, toLeBytes])
    (mem_artifactIdentities h) (mem_artifactIdentities h') (List.append_cancel_left heq)
  simpa using hmap

private theorem tag_inj {a b : AllocationPolicy} (h : a.tag = b.tag) : a = b := by
  cases a <;> cases b <;> first | rfl | cases h

/-- A validated plan has every resource bound. -/
private theorem validate_bound {b : ReplayBindings} {plan : CompiledPlan} (h : b.validate plan = .ok ()) :
    ∀ resource ∈ plan.resources, ∃ binding, b.resource resource.id = some binding := by
  intro resource hmem
  cases hb : b.resource resource.id with
  | some binding => exact ⟨binding, rfl⟩
  | none =>
    rw [ReplayBindings.validate] at h
    split at h
    · cases h
    · rename_i hnone
      have hfirst := (Option.or_eq_none_iff.mp (Option.or_eq_none_iff.mp hnone).1).1
      have := List.findSome?_eq_none_iff.mp hfirst resource hmem
      simp [ReplayBindings.resourceError, hb] at this

private theorem layoutResource_determines :
    Determines (fun r : PlannedResource × ReplayBindings => r.1.Representable ∧
        ∃ binding, r.2.resource r.1.id = some binding)
      (fun r => toLeBytes 4 r.1.id.index ++ toLeBytes 8 r.1.size ++
        ((r.2.resource r.1.id).map fun x => x.policy.tag).toList)
      fun r => (r.1.id.index, r.1.size, (r.2.resource r.1.id).map ResourceBinding.policy) := by
  intro a b x y ha hb h
  obtain ⟨ha, binding, hbinding⟩ := ha
  obtain ⟨hb, binding', hbinding'⟩ := hb
  simp only [hbinding, hbinding', Option.map_some, Option.toList_some, List.append_assoc] at h
  obtain ⟨hindex, h⟩ := u32_determines ha.id hb.id h
  obtain ⟨hsize, h⟩ := u64_determines ha.size hb.size h
  obtain ⟨htag, hrest⟩ := List.cons.inj h
  refine ⟨?_, hrest⟩
  simp only [hbinding, hbinding', Option.map_some, tag_inj htag]
  exact Prod.ext hindex (Prod.ext hsize rfl)

private theorem layoutInput_inj {b b' : ReplayBindings} {plan plan' : CompiledPlan}
    (h : plan.Representable sha256 words) (h' : plan'.Representable sha256 words)
    (hb : b.validate plan = .ok ()) (hb' : b'.validate plan' = .ok ())
    (heq : b.layoutInput plan = b'.layoutInput plan') : b.layoutData plan = b'.layoutData plan' := by
  simp only [ReplayBindings.layoutInput, List.append_assoc] at heq
  obtain ⟨hlen, heq⟩ := u64_determines h.resources.1 h'.resources.1 (List.append_cancel_left heq)
  have hbound {b : ReplayBindings} {plan : CompiledPlan} (h : plan.Representable sha256 words)
      (hb : b.validate plan = .ok ()) : ∀ r ∈ plan.resources.map fun resource => (resource, b),
        r.1.Representable ∧ ∃ binding, r.2.resource r.1.id = some binding := by
    intro r hr
    obtain ⟨resource, hmem, rfl⟩ := List.mem_map.mp hr
    exact ⟨h.resources.2 resource hmem, validate_bound hb resource hmem⟩
  obtain ⟨hresources, heq⟩ := layoutResource_determines.sequence (hbound h hb) (hbound h' hb')
    (by simpa using hlen) (by simpa only [List.flatMap_map, List.append_assoc] using heq)
  have hslots := slot_determines.remainder (fun slot _ => by simp [toLeBytes]) (mem_scalarSlots h)
    (mem_scalarSlots h') heq
  rw [List.map_map, List.map_map] at hresources
  rw [List.map_id, List.map_id] at hslots
  exact Prod.ext hresources hslots

private theorem layoutFingerprint_ok {b : ReplayBindings} {plan : CompiledPlan} {layout : Sha256Digest}
    (h : b.layoutFingerprint sha256 plan = .ok layout) :
    b.validate plan = .ok () ∧ layout = sha256 (b.layoutInput plan) := by
  cases hv : b.validate plan with
  | error e => simp [ReplayBindings.layoutFingerprint, hv, bind, Except.bind] at h
  | ok _ =>
    simp only [ReplayBindings.layoutFingerprint, hv, bind, Except.bind] at h
    exact ⟨rfl, (Except.ok.inj h).symm⟩

private theorem layoutInput_eq (b : ReplayBindings) (plan : CompiledPlan) :
    b.layoutInput plan = "redline-binding-layout-v1\x00".toUTF8.toList ++
      toLeBytes 8 (b.layoutData plan).1.length ++
      ((b.layoutData plan).1.flatMap fun r => toLeBytes 4 r.1 ++ toLeBytes 8 r.2.1 ++
        (r.2.2.map AllocationPolicy.tag).toList) ++
      (b.layoutData plan).2.flatMap fun slot => toLeBytes 4 slot.1.index ++ toLeBytes 4 slot.2 := by
  simp only [ReplayBindings.layoutInput, ReplayBindings.layoutData, List.length_map, List.flatMap_map,
    Option.map_map]
  rfl

private theorem putArgument_ownedBy (a : KernelArg) : putArgument (a.ownedBy 0) = putArgument a := by
  cases a <;> rfl

private theorem putDispatch_ownedBy (d : PlannedDispatch) : putDispatch (d.ownedBy 0) = putDispatch d := by
  simp only [putDispatch_eq, PlannedDispatch.ownedBy, KernelLaunch.ownedBy, List.length_map,
    List.flatMap_map, putArgument_ownedBy]
  rfl

/-- Neither owners nor the fingerprint itself are hashed. -/
private theorem fingerprintInput_content (plan : CompiledPlan) :
    fingerprintInput plan.content = fingerprintInput plan := by
  simp only [fingerprintInput, CompiledPlan.content, List.length_map, List.flatMap_map,
    putDispatch_ownedBy]
  rfl

private theorem fingerprint_eq_iff (hinj : Set.InjOn sha256 words) {r r' : Recorder} (hv : r.Valid)
    (hv' : r'.Valid) {options options' : CompileOptions} {plan plan' : CompiledPlan}
    (h : compile sha256 r options = .ok plan) (h' : compile sha256 r' options' = .ok plan')
    (hplan : plan.Representable sha256 words) (hplan' : plan'.Representable sha256 words)
    (hword : fingerprintInput plan ∈ words) (hword' : fingerprintInput plan' ∈ words) :
    plan.fingerprint = plan'.fingerprint ↔ plan.content = plan'.content := by
  obtain ⟨-, -, -, -, hfingerprint⟩ := compile_ok hv h
  obtain ⟨-, -, -, -, hfingerprint'⟩ := compile_ok hv' h'
  constructor
  · intro heq
    have hinput := heq
    rw [hfingerprint, hfingerprint'] at hinput
    have hview := (fingerprintInput_determines hinj).word hplan hplan' (hinj hword hword' hinput)
    have hdispatches := compiled_times hv hv' h h' hview
    simp only [CompiledPlan.untimed, CompiledPlan.content, CompiledPlan.mk.injEq] at hview
    obtain ⟨hresources, -, hterminals, hlanes, hmode, -⟩ := hview
    simp only [CompiledPlan.content, hresources, hdispatches, hterminals, hlanes, hmode]
  · intro heq
    rw [hfingerprint, hfingerprint', ← fingerprintInput_content plan, heq, fingerprintInput_content]

private theorem layout_eq_iff (hinj : Set.InjOn sha256 words) {plan plan' : CompiledPlan}
    {b b' : ReplayBindings} {layout layout' : Sha256Digest} (hplan : plan.Representable sha256 words)
    (hplan' : plan'.Representable sha256 words) (h : b.layoutFingerprint sha256 plan = .ok layout)
    (h' : b'.layoutFingerprint sha256 plan' = .ok layout') (hword : b.layoutInput plan ∈ words)
    (hword' : b'.layoutInput plan' ∈ words) :
    layout = layout' ↔ b.layoutData plan = b'.layoutData plan' := by
  obtain ⟨hvalid, rfl⟩ := layoutFingerprint_ok h
  obtain ⟨hvalid', rfl⟩ := layoutFingerprint_ok h'
  refine ⟨fun heq => layoutInput_inj hplan hplan' hvalid hvalid' (hinj hword hword' heq), fun heq => ?_⟩
  rw [layoutInput_eq, layoutInput_eq, heq]

private theorem artifacts_eq_iff (hinj : Set.InjOn sha256 words) {plan plan' : CompiledPlan}
    (hplan : plan.Representable sha256 words) (hplan' : plan'.Representable sha256 words)
    (hword : PlanCacheKey.artifactsInput plan ∈ words) (hword' : PlanCacheKey.artifactsInput plan' ∈ words) :
    sha256 (PlanCacheKey.artifactsInput plan) = sha256 (PlanCacheKey.artifactsInput plan') ↔
      plan.artifactIdentities = plan'.artifactIdentities := by
  refine ⟨fun heq => artifactsInput_inj hplan hplan' (hinj hword hword' heq), fun heq => ?_⟩
  rw [PlanCacheKey.artifactsInput, PlanCacheKey.artifactsInput, heq]

private theorem planCacheKey_ok {plan : CompiledPlan} {b : ReplayBindings} {device : String}
    {backend : BackendKind} {key : PlanCacheKey} (h : PlanCacheKey.new sha256 plan b device backend = .ok key) :
    ∃ layout, b.layoutFingerprint sha256 plan = .ok layout ∧
      key = ⟨plan.fingerprint, layout, sha256 (PlanCacheKey.artifactsInput plan), device, backend⟩ := by
  obtain ⟨layout, hlayout, hkey⟩ := bind_ok h
  exact ⟨layout, hlayout, (Except.ok.inj hkey).symm⟩

/-- The plan's identity, for any set of words on which the hash does not collide:
equal fingerprints mean plans of equal content, whatever recorder they are from, and the
hashes of kernarg layouts, of binding layouts and of cache keys identify what they cover. -/
theorem hashes_identify (hinj : Set.InjOn sha256 words) :
    (∀ owner owner' calls calls' options options' plan plan',
      compile sha256 (.run owner calls) options = .ok plan →
      compile sha256 (.run owner' calls') options' = .ok plan' →
      plan.Representable sha256 words → plan'.Representable sha256 words →
      fingerprintInput plan ∈ words → fingerprintInput plan' ∈ words →
      (plan.fingerprint = plan'.fingerprint ↔ plan.content = plan'.content) ∧
      ∀ b b' device device' backend backend' key key',
        PlanCacheKey.new sha256 plan b device backend = .ok key →
        PlanCacheKey.new sha256 plan' b' device' backend' = .ok key' →
        b.layoutInput plan ∈ words → b'.layoutInput plan' ∈ words →
        PlanCacheKey.artifactsInput plan ∈ words → PlanCacheKey.artifactsInput plan' ∈ words →
        (key = key' ↔ plan.content = plan'.content ∧ b.layoutData plan = b'.layoutData plan' ∧
          plan.artifactIdentities = plan'.artifactIdentities ∧ device = device' ∧ backend = backend')) ∧
    (∀ (plan plan' : CompiledPlan) (b b' : ReplayBindings) layout layout', plan.Representable sha256 words →
      plan'.Representable sha256 words → b.layoutFingerprint sha256 plan = .ok layout →
      b'.layoutFingerprint sha256 plan' = .ok layout' → b.layoutInput plan ∈ words →
      b'.layoutInput plan' ∈ words → (layout = layout' ↔ b.layoutData plan = b'.layoutData plan')) ∧
    (∀ abi abi' : KernargAbi, abi.Representable sha256 words → abi'.Representable sha256 words →
      (abi.hash = abi'.hash ↔ abi.segmentSize = abi'.segmentSize ∧
        abi.segmentAlignment = abi'.segmentAlignment ∧ abi.fields = abi'.fields)) := by
  refine ⟨?_, fun plan plan' b b' layout layout' => layout_eq_iff hinj, ?_⟩
  · intro owner owner' calls calls' options options' plan plan' h h' hplan hplan' hword hword'
    have hfingerprint := fingerprint_eq_iff hinj (Recorder.run_valid owner calls)
      (Recorder.run_valid owner' calls') h h' hplan hplan' hword hword'
    refine ⟨hfingerprint, fun b b' device device' backend backend' key key' hkey hkey' hlayout hlayout'
      hartifacts hartifacts' => ?_⟩
    obtain ⟨layout, hb, rfl⟩ := planCacheKey_ok hkey
    obtain ⟨layout', hb', rfl⟩ := planCacheKey_ok hkey'
    rw [PlanCacheKey.mk.injEq, hfingerprint, layout_eq_iff hinj hplan hplan' hb hb' hlayout hlayout',
      artifacts_eq_iff hinj hplan hplan' hartifacts hartifacts']
  · intro abi abi' habi habi'
    constructor
    · intro heq
      obtain rfl := abi_hash_inj hinj habi habi' heq
      exact ⟨rfl, rfl, rfl⟩
    · rintro ⟨hsize, halignment, hfields⟩
      rw [habi.hash_eq, habi'.hash_eq, hsize, halignment, hfields]

end Hashes

section Solo

/-- One resource and one kernel that touches nothing. -/
def soloCalls : List Recorder.Call :=
  [.resource "x" 16, .dispatch ⟨"k", ⟨1, 1, 1⟩, ⟨32, 1, 1⟩, 0, [], none, none, .one⟩ []]

def soloOptions : CompileOptions := ⟨⟨1, Nat.one_pos, by norm_num⟩, .tokenLatency⟩

def soloPlan (owner : ℕ) (fingerprint : Sha256Digest) : CompiledPlan :=
  ⟨[⟨⟨owner, 0⟩, "x", 16⟩],
    [⟨⟨owner, 0⟩, 0, ⟨"k", ⟨1, 1, 1⟩, ⟨32, 1, 1⟩, 0, [], none, none, .one⟩, [], [], 0, 1⟩], [⟨owner, 0⟩],
    soloOptions.laneCount, .tokenLatency, fingerprint⟩

/-- SHA-256 of the one word the solo plan hashes. -/
def soloSha256 (word : List UInt8) : Sha256Digest :=
  if word = fingerprintInput (soloPlan 0 ⟨Vector.replicate 32 0⟩) then
    ⟨#v[162, 227, 143, 228, 25, 202, 185, 79, 166, 79, 102, 97, 157, 173, 40, 81, 131, 65, 189, 233, 189,
      235, 228, 190, 172, 51, 141, 168, 158, 135, 140, 169]⟩
  else ⟨Vector.replicate 32 0⟩

private theorem soloPlan_representable (owner : ℕ) (fingerprint : Sha256Digest) :
    (soloPlan owner fingerprint).Representable soloSha256
      {fingerprintInput (soloPlan 0 ⟨Vector.replicate 32 0⟩)} := by
  have hname (s : String) (h : s.toByteArray.size < 2 ^ 64) : s.toUTF8.toList.length < 2 ^ 64 := by
    rw [byteArray_toList]
    exact h
  refine ⟨⟨by simp [soloPlan], ?_⟩, ⟨by simp [soloPlan], ?_⟩, ⟨by simp [soloPlan], ?_⟩⟩
  · rintro r (_ | ⟨_, ⟨⟩⟩)
    exact ⟨by simp, hname "x" (by decide), by simp⟩
  · rintro d (_ | ⟨_, ⟨⟩⟩)
    refine ⟨by simp, by simp, ⟨hname "k" (by decide), ?_, ?_, by simp, by simp, ?_, ?_⟩, by simp, by simp⟩
    · exact ⟨by simp, by simp, by simp⟩
    · exact ⟨by simp, by simp, by simp⟩
    · exact fun _ h => nomatch h
    · exact fun _ h => nomatch h
  · rintro n (_ | ⟨_, ⟨⟩⟩)
    simp

/-- The same calls on two recorders compile to one plan. -/
theorem solo_plans_identified : ∃ plan plan',
    compile soloSha256 (.run 0 soloCalls) soloOptions = .ok plan ∧
    compile soloSha256 (.run 1 soloCalls) soloOptions = .ok plan' ∧ plan.resources ≠ plan'.resources ∧
    plan.fingerprint = plan'.fingerprint :=
  have hplans := (hashes_identify (Set.injOn_singleton soloSha256 _)).1 0 1 soloCalls soloCalls soloOptions
    soloOptions _ _ rfl rfl (soloPlan_representable 0 _) (soloPlan_representable 1 _) rfl rfl
  ⟨_, _, rfl, rfl, by decide, hplans.1.mpr rfl⟩

end Solo

end Hipscope.Redline
