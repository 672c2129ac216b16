import Hipscope.Pm4.Operations
import Hipscope.Redline.Lowering

/-! The retained indirect buffer: where its dispatches keep their dimensions, and
patching them in place. -/
namespace Hipscope.Pm4
open Redline

inductive Pm4ReplayError where
  | graphInactive
  | emptyGraph
  | zeroWorkgroup (dispatch : ℕ) (workgroups : List UInt32)
  | dispatchOutOfBounds (dispatch dispatches : ℕ)
  | malformedIndirectBuffer (dword : ℕ)
  deriving DecidableEq

def asBytes (dwords : List UInt32) : List UInt8 := dwords.flatMap fun word => toLeBytes 4 word.toNat

/-- Four bytes as a little-endian word. -/
def wordOfBytes (a b c d : UInt8) : UInt32 :=
  UInt32.ofNat (a.toNat + 256 * (b.toNat + 256 * (c.toNat + 256 * d.toNat)))

def dwordsOfBytes : List UInt8 → List UInt32
  | a :: b :: c :: d :: rest => wordOfBytes a b c d :: dwordsOfBytes rest
  | _ => []

def collectOffset (offsets : List ℕ) (cursor : ℕ) (header : UInt32) (_ : List UInt32) :
    Except Pm4ReplayError (List ℕ) :=
  if opcode header = Opcode.dispatchDirect then
    if bodyDwords header ≠ 4 then .error (.malformedIndirectBuffer cursor)
    else .ok (offsets ++ [(cursor + 1) * 4])
  else .ok offsets

/-- Byte offsets of the dimensions of every dispatch. -/
def pm4DispatchWorkgroupOffsets (bytes : List UInt8) : Except Pm4ReplayError (List ℕ) :=
  if bytes.length % 4 ≠ 0 then .error (.malformedIndirectBuffer (bytes.length / 4))
  else walkDwords .malformedIndirectBuffer collectOffset [] (dwordsOfBytes bytes)

structure SingleQueuePm4Ib where
  indirect : List UInt8
  dispatchWorkgroupOffsets : List ℕ
  usable : Bool
  deriving DecidableEq

namespace SingleQueuePm4Ib

def createEncoded (dwords : List UInt32) : Except Pm4ReplayError SingleQueuePm4Ib :=
  if dwords = [] then .error .emptyGraph
  else do
    let offsets ← pm4DispatchWorkgroupOffsets (asBytes dwords)
    return ⟨asBytes dwords, offsets, true⟩

/-- The buffer is written only after every check. -/
def patchDispatchDimensions (ib : SingleQueuePm4Ib) (dispatch : ℕ) (x y z : UInt32) :
    Except Pm4ReplayError SingleQueuePm4Ib :=
  if !ib.usable then .error .graphInactive
  else if [x, y, z].contains 0 then .error (.zeroWorkgroup dispatch [x, y, z])
  else match ib.dispatchWorkgroupOffsets[dispatch]? with
    | none => .error (.dispatchOutOfBounds dispatch ib.dispatchWorkgroupOffsets.length)
    | some offset =>
      if offset + 12 > ib.indirect.length then .error (.malformedIndirectBuffer (offset / 4))
      else .ok { ib with indirect := Aql.writeAt ib.indirect offset (asBytes [x, y, z]) }

/-- What a patch has checked. -/
theorem patchDispatchDimensions_ok {ib next : SingleQueuePm4Ib} {dispatch : ℕ} {x y z : UInt32}
    (h : ib.patchDispatchDimensions dispatch x y z = .ok next) :
    ib.usable = true ∧ [x, y, z].contains 0 = false ∧ dispatch < ib.dispatchWorkgroupOffsets.length := by
  unfold patchDispatchDimensions at h
  split at h
  · cases h
  rename_i husable
  split at h
  · cases h
  rename_i hzero
  split at h
  · cases h
  rename_i hoffset
  exact ⟨by simpa using husable, by simpa using hzero, (List.getElem?_eq_some_iff.mp hoffset).1⟩

end SingleQueuePm4Ib

section Bytes

@[simp] theorem asBytes_append (left right : List UInt32) :
    asBytes (left ++ right) = asBytes left ++ asBytes right :=
  List.flatMap_append

@[simp] theorem asBytes_length (dwords : List UInt32) : (asBytes dwords).length = 4 * dwords.length := by
  induction dwords with
  | nil => rfl
  | cons word dwords ih =>
    rw [asBytes, List.flatMap_cons, List.length_append, toLeBytes_length, List.length_cons]
    rw [asBytes] at ih
    omega

private theorem wordOfBytes_toLeBytes (word : UInt32) :
    wordOfBytes (UInt8.ofNat (word.toNat % 256)) (UInt8.ofNat (word.toNat / 256 % 256))
      (UInt8.ofNat (word.toNat / 256 / 256 % 256))
      (UInt8.ofNat (word.toNat / 256 / 256 / 256 % 256)) = word := by
  have hlt := word.toNat_lt
  apply UInt32.toNat_inj.mp
  simp only [wordOfBytes, UInt32.toNat_ofNat', UInt8.toNat_ofNat', Nat.mod_mod]
  omega

theorem dwordsOfBytes_asBytes (dwords : List UInt32) : dwordsOfBytes (asBytes dwords) = dwords := by
  induction dwords with
  | nil => rfl
  | cons word dwords ih =>
    rw [asBytes, List.flatMap_cons]
    simp only [toLeBytes, List.cons_append, List.nil_append, dwordsOfBytes, wordOfBytes_toLeBytes]
    exact congrArg _ ih

private theorem writeAt_middle {before old new after : List UInt8} (h : old.length = new.length) :
    Aql.writeAt (before ++ old ++ after) before.length new = before ++ new ++ after := by
  have hlen : before.length + new.length = (before ++ old).length := by simp [h]
  rw [Aql.writeAt, hlen, List.drop_left, List.append_assoc before old, List.take_left]

/-- Overwriting a stretch of dwords through their bytes. -/
theorem writeAt_asBytes {before old new after : List UInt32} (h : old.length = new.length) :
    Aql.writeAt (asBytes (before ++ old ++ after)) (before.length * 4) (asBytes new) =
      asBytes (before ++ new ++ after) := by
  have hbefore : before.length * 4 = (asBytes before).length := by simp [Nat.mul_comm]
  simp only [asBytes_append, hbefore]
  exact writeAt_middle (by simp [h])

end Bytes

section Offsets

/-- Dword offsets of the dimensions of every dispatch. -/
def dispatchCursors : ℕ → List Packet → List ℕ
  | _, [] => []
  | cursor, p :: ps => (if p.dispatch?.isSome then [cursor + 1] else []) ++
      dispatchCursors (cursor + p.encode.length) ps

private theorem foldPackets_collectOffset {offsets : List ℕ} {cursor : ℕ} {ps : List Packet}
    (h : WellFormedStream ps) : foldPackets collectOffset offsets cursor ps =
      .ok (offsets ++ (dispatchCursors cursor ps).map (· * 4)) := by
  induction ps generalizing offsets cursor with
  | nil => simp [foldPackets, dispatchCursors]
  | cons p ps ih =>
    have hp := h p List.mem_cons_self
    have hrest : WellFormedStream ps := fun q hq => h q (List.mem_cons_of_mem _ hq)
    rw [foldPackets, collectOffset]
    simp only [opcode_header hp, dispatchCursors]
    split
    · rename_i hd
      have hbody : bodyDwords p.header = 4 := by
        rw [(Packet.header_fields hp).2.1]
        cases p with
        | dispatchDirect x y z initiator => rfl
        | _ => simp [Packet.dispatch?] at hd
      rw [if_neg (not_not.mpr hbody)]
      refine (ih hrest).trans ?_
      simp
    · exact ih hrest

theorem pm4DispatchWorkgroupOffsets_encodeStream {ps : List Packet} (h : WellFormedStream ps) :
    pm4DispatchWorkgroupOffsets (asBytes (encodeStream ps)) =
      .ok ((dispatchCursors 0 ps).map (· * 4)) := by
  rw [pm4DispatchWorkgroupOffsets, if_neg (by simp), dwordsOfBytes_asBytes,
    walkDwords_encodeStream h, foldPackets_collectOffset h, List.nil_append]

theorem dispatchCursors_length (cursor : ℕ) (ps : List Packet) :
    (dispatchCursors cursor ps).length = (dispatches ps).length := by
  induction ps generalizing cursor with
  | nil => rfl
  | cons p ps ih =>
    rw [dispatchCursors, List.length_append, ih]
    cases hp : p.dispatch? with
    | none => simp [dispatches, hp]
    | some d => simp [dispatches, hp, Nat.add_comm]

/-- The k-th dispatch of a stream and the packets around it. -/
structure DispatchAt (ps : List Packet) (k : ℕ) (x y z initiator : UInt32)
    (before after : List Packet) : Prop where
  split : ps = before ++ .dispatchDirect x y z initiator :: after
  index : (dispatches before).length = k

private theorem eq_dispatchDirect {p : Packet} {dims : List UInt32} (h : p.dispatch? = some dims) :
    ∃ x y z initiator, p = .dispatchDirect x y z initiator := by
  cases p with
  | dispatchDirect x y z initiator => exact ⟨x, y, z, initiator, rfl⟩
  | _ => cases h

theorem exists_dispatchAt {ps : List Packet} {k : ℕ} (h : k < (dispatches ps).length) :
    ∃ x y z initiator before after, DispatchAt ps k x y z initiator before after := by
  induction ps generalizing k with
  | nil => simp [dispatches] at h
  | cons p ps ih =>
    rw [dispatches, List.filterMap_cons] at h
    cases hp : p.dispatch? with
    | none =>
      rw [hp] at h
      obtain ⟨x, y, z, initiator, before, after, hat⟩ := ih h
      refine ⟨x, y, z, initiator, p :: before, after, congrArg _ hat.split, ?_⟩
      rw [← hat.index, dispatches, List.filterMap_cons, hp, dispatches]
    | some dims =>
      rw [hp] at h
      cases k with
      | zero =>
        obtain ⟨x, y, z, initiator, rfl⟩ := eq_dispatchDirect hp
        exact ⟨x, y, z, initiator, [], ps, rfl, rfl⟩
      | succ k =>
        obtain ⟨x, y, z, initiator, before, after, hat⟩ := ih (Nat.lt_of_succ_lt_succ h)
        refine ⟨x, y, z, initiator, p :: before, after, congrArg _ hat.split, ?_⟩
        rw [← hat.index, dispatches, List.filterMap_cons, hp, List.length_cons, dispatches]

theorem dispatchCursors_append (cursor : ℕ) (ps qs : List Packet) :
    dispatchCursors cursor (ps ++ qs) = dispatchCursors cursor ps ++
      dispatchCursors (cursor + (encodeStream ps).length) qs := by
  induction ps generalizing cursor with
  | nil => rfl
  | cons p ps ih =>
    rw [List.cons_append, dispatchCursors, ih, dispatchCursors, List.append_assoc, encodeStream_cons,
      List.length_append, Nat.add_assoc]

namespace DispatchAt
variable {ps before after : List Packet} {k : ℕ} {x y z initiator : UInt32}

/-- The offset of the k-th dispatch points right behind its header. -/
theorem cursor (h : DispatchAt ps k x y z initiator before after) :
    (dispatchCursors 0 ps)[k]? = some ((encodeStream before).length + 1) := by
  rw [h.split, dispatchCursors_append, List.getElem?_append_right]
  · rw [dispatchCursors_length, h.index]
    simp [dispatchCursors, Packet.dispatch?]
  · rw [dispatchCursors_length, h.index]

/-- The dwords before the dimensions, the dimensions, and the dwords after. -/
theorem dwords (h : DispatchAt ps k x y z initiator before after) :
    encodeStream ps = (encodeStream before ++ [packet3 Opcode.dispatchDirect 4 true]) ++ [x, y, z] ++
      (initiator :: encodeStream after) := by
  rw [h.split, encodeStream_append, encodeStream_cons]
  simp [Packet.encode, Packet.header, Packet.body]

theorem bytes (h : DispatchAt ps k x y z initiator before after) :
    ((asBytes (encodeStream ps)).drop (((encodeStream before).length + 1) * 4)).take 12 =
      asBytes [x, y, z] := by
  have hlen : ((encodeStream before).length + 1) * 4 =
      (asBytes (encodeStream before ++ [packet3 Opcode.dispatchDirect 4 true])).length := by
    simp only [asBytes_length, List.length_append, List.length_singleton]
    omega
  rw [h.dwords, List.append_assoc, asBytes_append, hlen, List.drop_left, asBytes_append]
  exact List.take_left' rfl

/-- Patching replaces the dimensions of that dispatch and nothing else. -/
theorem patch (h : DispatchAt ps k x y z initiator before after) {a b c : UInt32}
    (hnonzero : [a, b, c].contains 0 = false) :
    SingleQueuePm4Ib.patchDispatchDimensions
        ⟨asBytes (encodeStream ps), (dispatchCursors 0 ps).map (· * 4), true⟩ k a b c =
      .ok ⟨asBytes (encodeStream (before ++ .dispatchDirect a b c initiator :: after)),
        (dispatchCursors 0 ps).map (· * 4), true⟩ := by
  have hnew : DispatchAt (before ++ .dispatchDirect a b c initiator :: after) k a b c initiator
      before after := ⟨rfl, h.index⟩
  have hoffset : ((dispatchCursors 0 ps).map (· * 4))[k]? =
      some (((encodeStream before).length + 1) * 4) := by simp [h.cursor]
  have hlen : ((encodeStream before).length + 1) * 4 =
      (encodeStream before ++ [packet3 Opcode.dispatchDirect 4 true]).length * 4 := by simp
  have hfits : ¬ ((encodeStream before).length + 1) * 4 + 12 > (asBytes (encodeStream ps)).length := by
    rw [asBytes_length, h.dwords]
    simp only [List.length_append, List.length_cons, List.length_nil]
    omega
  rw [SingleQueuePm4Ib.patchDispatchDimensions, hnonzero]
  simp only [Bool.not_true, Bool.false_eq_true, if_false, hoffset, if_neg hfits]
  have hsame : [x, y, z].length = [a, b, c].length := rfl
  rw [hlen, h.dwords, writeAt_asBytes hsame, ← hnew.dwords]

end DispatchAt
end Offsets
/-- Streams of either builder. -/
inductive BuiltStream : List Packet → Prop
  | gfx10 {b : Gfx10Pm4CommandBuffer} (h : Gfx10Built b) : BuiltStream b.packets
  | gfx12 {b : Gfx12Pm4CommandBuffer} (h : Gfx12Built b) : BuiltStream b.packets

theorem BuiltStream.wellFormed {ps : List Packet} (h : BuiltStream ps) : WellFormedStream ps := by
  cases h with
  | gfx10 h => exact h.wellFormed
  | gfx12 h => exact h.wellFormed

/-- The walkers find every packet of a built stream: one offset per dispatch that
points at its dimensions, patches that change nothing else, and timestamps that
can be taken out again. -/
theorem walkers_agree :
    (∀ ps, BuiltStream ps → ∃ offsets,
      pm4DispatchWorkgroupOffsets (asBytes (encodeStream ps)) = .ok offsets ∧
      offsets.length = (dispatches ps).length ∧
      ∀ k offset, offsets[k]? = some offset → ∃ x y z initiator before after,
        DispatchAt ps k x y z initiator before after ∧
        offset = ((encodeStream before).length + 1) * 4 ∧
        ((asBytes (encodeStream ps)).drop offset).take 12 = asBytes [x, y, z] ∧
        ∀ a b c, [a, b, c].contains 0 = false →
          SingleQueuePm4Ib.patchDispatchDimensions ⟨asBytes (encodeStream ps), offsets, true⟩ k a b c =
            .ok ⟨asBytes (encodeStream (before ++ .dispatchDirect a b c initiator :: after)), offsets,
              true⟩) ∧
    ∀ b : Gfx12Pm4CommandBuffer, Gfx12Built b → ∀ baseAddress, ∃ (slots : ℕ) (marked : List (Packet × Bool)),
      timestampSlotCount b.dwords = .ok slots ∧
      withPerDispatchTimestamps b.dwords baseAddress =
        .ok (b.withPerDispatchTimestamps baseAddress).dwords ∧
      (b.withPerDispatchTimestamps baseAddress).packets = marked.map Prod.fst ∧
      (marked.filter fun p => !p.2).map Prod.fst = b.packets ∧
      (marked.filter fun p => p.2).map Prod.fst =
        (List.range slots).map fun slot => .copyTimestamp (baseAddress + slot * 8) := by
  refine ⟨fun ps h => ?_, fun b h baseAddress => ?_⟩
  · refine ⟨_, pm4DispatchWorkgroupOffsets_encodeStream h.wellFormed, ?_, fun k offset hk => ?_⟩
    · rw [List.length_map, dispatchCursors_length]
    · have hlt : k < (dispatches ps).length := by
        rw [← dispatchCursors_length 0]
        simpa using (List.getElem?_eq_some_iff.mp hk).1
      obtain ⟨x, y, z, initiator, before, after, hat⟩ := exists_dispatchAt hlt
      obtain rfl : ((encodeStream before).length + 1) * 4 = offset := by simpa [hat.cursor] using hk
      exact ⟨x, y, z, initiator, before, after, hat, rfl, hat.bytes, fun a b c => hat.patch⟩
  · obtain ⟨hkept, hadded⟩ := instrument_split baseAddress b.packets
    exact ⟨_, instrument baseAddress b.packets, timestampSlotCount_encodeStream h.wellFormed,
      withPerDispatchTimestamps_encodeStream h.wellFormed baseAddress, rfl, hkept, hadded⟩

section Example

def pointerKernel : Kernel :=
  ⟨⟨"copy", 7, ⟨1, 8, 8, 0, 0, false⟩⟩, some ⟨4096, 0, 0, 0, 0x408⟩⟩

/-- Two dispatches between clock writes. -/
def timedPair : Gfx12Pm4CommandBuffer :=
  Gfx12Operation.run .newStateful [.acquireSystem,
    .dispatch pointerKernel ⟨⟨64, 1, 1⟩, ⟨64, 1, 1⟩, 3⟩ 0 4096, .waitComputeIdle,
    .dispatch pointerKernel ⟨⟨128, 1, 1⟩, ⟨64, 1, 1⟩, 3⟩ 0 8192, .withGpuTimestamps 64 72]

theorem timedPair_built : Gfx12Built timedPair :=
  .apply _ (.apply _ (.apply _ (.apply _ (.apply _ .newStateful))))

theorem timedPair_walked :
    (∃ offsets, pm4DispatchWorkgroupOffsets (asBytes timedPair.dwords) = .ok offsets ∧
      offsets.length = 2) ∧
    ∃ slots, timestampSlotCount timedPair.dwords = .ok slots ∧ slots = 3 := by
  obtain ⟨offsets, hoffsets, hlen, -⟩ := walkers_agree.1 timedPair.packets (.gfx12 timedPair_built)
  obtain ⟨slots, marked, hslots, -⟩ := walkers_agree.2 timedPair timedPair_built 4096
  have hcount : timestampSlotCount timedPair.dwords = .ok 3 := by decide
  refine ⟨⟨offsets, hoffsets, hlen⟩, slots, hslots, ?_⟩
  rw [hcount] at hslots
  exact (Except.ok.inj hslots).symm

end Example
end Hipscope.Pm4
