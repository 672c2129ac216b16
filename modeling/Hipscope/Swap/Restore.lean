import Hipscope.Residency.SlotPool
import Hipscope.Swap.Snapshot

/-! Restoring a snapshot into a slot: validation, the writes to the device, the pool's new length. The
arenas are raw, one byte an element; device copies succeed. `none` is a panic. -/
namespace Hipscope.Swap
open Residency

/-- FNV-1a -/
def checksumOf (bytes : List UInt8) : UInt64 :=
  bytes.foldl (fun h b => (h ^^^ b.toUInt64) * 0x100000001b3) 0xcbf29ce484222325

def hexadecimal (n : UInt64) : String := "0x" ++ String.ofList (Nat.toDigits 16 n.toNat)

def SnapshotStamp.debug (s : SnapshotStamp) : String :=
  s!"SnapshotStamp \x7b model_hash: {s.modelHash}, kv_dtype_tag: {s.kvDtypeTag}, per_pos_bytes: {s.perPosBytes}, n_fa_layers: {s.nFaLayers}, dn_layout_version: {s.dnLayoutVersion}, cap: {s.cap}, dn_bytes: {s.dnBytes} \x7d"

/-- The length the payload must have; the product wraps. -/
def SlotSnapshot.expectedLen (s : SlotSnapshot) : ℕ :=
  (s.stamp.nFaLayers.toNat * 2 * s.seqLen.toNat * s.stamp.perPosBytes.toNat + s.stamp.dnBytes.toNat) % 2 ^ 64

def SlotSnapshot.validate (s : SlotSnapshot) (expect : SnapshotStamp) : Except SwapError Unit :=
  let found := s.stamp.debug
  let wanted := expect.debug
  let want := s.expectedLen
  let length := s.payload.data.length
  let got := hexadecimal (checksumOf s.payload.data)
  let recorded := hexadecimal s.checksum
  if s.stamp ≠ expect then .error (.stamp s!"snapshot {found} != expected {wanted}")
  else if length ≠ want then .error (.corrupt s!"payload is {length} bytes, expected {want}")
  else if checksumOf s.payload.data ≠ s.checksum then .error (.corrupt s!"checksum {got} != recorded {recorded}")
  else .ok ()

/-- A buffer on the device: a layer's K or V arena, or one of a slot's state buffers. -/
inductive Buffer where
  | k (layer : ℕ)
  | v (layer : ℕ)
  | extra (i : ℕ)
  deriving DecidableEq

structure Device where
  kLayers : ℕ
  vLayers : ℕ
  extras : ℕ
  bytes : Buffer → List UInt8

/-- Where one part of a payload goes. -/
structure Part where
  buffer : Buffer
  offset : ℕ
  len : ℕ

/-- The bytes of one layer's K or V; the product wraps. -/
def SlotSnapshot.span (s : SlotSnapshot) : ℕ := s.seqLen.toNat * s.stamp.perPosBytes.toNat % 2 ^ 64

def kvParts (device : Device) (desc : KvSlotDesc) (span : ℕ) : List Part :=
  if span > 0 then
    (List.range (min device.kLayers device.vLayers)).flatMap fun layer =>
      [⟨.k layer, desc.kBase, span⟩, ⟨.v layer, desc.vBase, span⟩]
  else []

def extraParts (device : Device) : List Part :=
  (List.range device.extras).map fun i => ⟨.extra i, 0, (device.bytes (.extra i)).length⟩

def overwrite (bytes : List UInt8) (offset : ℕ) (data : List UInt8) : List UInt8 :=
  bytes.take offset ++ data ++ bytes.drop (offset + data.length)

def Device.write (device : Device) (part : Part) (data : List UInt8) : Device :=
  { device with
    bytes := Function.update device.bytes part.buffer (overwrite (device.bytes part.buffer) part.offset data) }

/-- Part after part, from the payload's byte `off` on. -/
def writeParts (payload : List UInt8) : ℕ → List Part → Device → Option Device
  | _, [], device => some device
  | off, part :: parts, device =>
    if part.offset + part.len ≤ (device.bytes part.buffer).length ∧ off + part.len ≤ payload.length then
      writeParts payload (off + part.len) parts (device.write part ((payload.drop off).take part.len))
    else none

/-- The outcome, what was written, and what device and pool are afterwards. -/
structure Restored where
  outcome : Except SwapError Unit
  written : List Part
  device : Device
  pool : SlotPool

def extraBytes (device : Device) : ℕ := ((extraParts device).map Part.len).sum

def restoreSlot (device : Device) (pool : SlotPool) (slot : ℕ) (snap : SlotSnapshot) (expect : SnapshotStamp) :
    Option Restored :=
  match snap.validate expect with
  | .error e => some ⟨.error e, [], device, pool⟩
  | .ok () => do
    let desc ← pool.descs[slot]?
    if (device.kLayers * 2 * snap.span + extraBytes device) % 2 ^ 64 ≠ snap.payload.data.length then
      some ⟨.error (.corrupt "payload does not match this rig's arena and state sizes"), [], device, pool⟩
    else do
      let parts := kvParts device desc snap.span ++ extraParts device
      let device ← writeParts snap.payload.data 0 parts device
      let (outcome, pool) ← pool.setSeqLen slot snap.seqLen.toNat
      some ⟨outcome.mapError SwapError.gpu, parts, device, pool⟩

/-- Validation and the size check pass. -/
def Accepted (device : Device) (snap : SlotSnapshot) (expect : SnapshotStamp) : Prop :=
  snap.validate expect = .ok () ∧
    (device.kLayers * 2 * snap.span + extraBytes device) % 2 ^ 64 = snap.payload.data.length

/-- The buffers hold, where the parts go, the payload's bytes from `off` on. -/
def Holds (device : Device) (payload : List UInt8) : ℕ → List Part → Prop
  | _, [] => True
  | off, part :: parts =>
    ((device.bytes part.buffer).drop part.offset).take part.len = (payload.drop off).take part.len ∧
      Holds device payload (off + part.len) parts

/-- A part inside the slabs of a slot, or inside one of its state buffers. -/
def Part.Inside (device : Device) (pool : SlotPool) (desc : KvSlotDesc) (part : Part) : Prop :=
  match part.buffer with
  | .k _ => desc.kBase ≤ part.offset ∧ part.offset + part.len ≤ desc.kBase + pool.slabBytes
  | .v _ => desc.vBase ≤ part.offset ∧ part.offset + part.len ≤ desc.vBase + pool.slabBytes
  | .extra _ => part.offset + part.len ≤ (device.bytes part.buffer).length

/-- A rejected snapshot leaves device and pool alone, an accepted one stays with its slot. -/
structure Restored.Safe (device : Device) (pool : SlotPool) (slot : ℕ) (r : Restored) : Prop where
  rejected : ∀ e, r.outcome = .error e → r.device = device ∧ r.pool = pool
  confined : r.outcome = .ok () → ∀ desc, pool.descs[slot]? = some desc →
    ∀ part ∈ r.written, part.Inside device pool desc

section Writes
variable {device next : Device} {payload data bytes : List UInt8} {off offset : ℕ} {parts : List Part} {part : Part}
  {buffer : Buffer}

theorem overwrite_eq_self_iff :
    overwrite bytes offset data = bytes ↔ (bytes.drop offset).take data.length = data := by
  have hsplit : bytes.take offset ++ (bytes.drop offset).take data.length ++
      bytes.drop (offset + data.length) = bytes := by
    rw [List.append_assoc, ← List.drop_drop, List.take_append_drop, List.take_append_drop]
  constructor
  · intro h'
    have h' := h'.trans hsplit.symm
    exact (List.append_cancel_left (List.append_cancel_right h')).symm
  · intro h'
    rw [h'] at hsplit
    exact hsplit

@[simp] theorem write_same : (device.write part data).bytes part.buffer =
    overwrite (device.bytes part.buffer) part.offset data := Function.update_self _ _ _

theorem write_other (h : buffer ≠ part.buffer) : (device.write part data).bytes buffer = device.bytes buffer :=
  Function.update_of_ne h _ _

theorem write_eq_self_iff : device.write part data = device ↔
    overwrite (device.bytes part.buffer) part.offset data = device.bytes part.buffer := by
  constructor
  · intro h
    rw [← write_same, h]
  · intro h
    rw [Device.write, h, Function.update_eq_self]

theorem writeParts_frame (h : writeParts payload off parts device = some next)
    (hb : buffer ∉ parts.map Part.buffer) : next.bytes buffer = device.bytes buffer := by
  induction parts generalizing off device with
  | nil => rw [← Option.some.inj h]
  | cons part parts ih =>
    rw [List.map_cons, List.mem_cons, not_or] at hb
    rw [writeParts] at h
    split_ifs at h with hfit
    rw [ih h hb.2]
    exact write_other hb.1

/-- Each buffer is written at most once, so nothing changes exactly when every part is there already. -/
theorem writeParts_eq_self_iff (h : writeParts payload off parts device = some next)
    (hnodup : (parts.map Part.buffer).Nodup) : next = device ↔ Holds device payload off parts := by
  induction parts generalizing off device with
  | nil => exact ⟨fun _ => trivial, fun _ => (Option.some.inj h).symm⟩
  | cons part parts ih =>
    rw [List.map_cons, List.nodup_cons] at hnodup
    rw [writeParts] at h
    split_ifs at h with hfit
    obtain ⟨hroom, hpayload⟩ := hfit
    have hlength : ((payload.drop off).take part.len).length = part.len := by
      rw [List.length_take, List.length_drop]
      omega
    have hself : device.write part ((payload.drop off).take part.len) = device ↔
        ((device.bytes part.buffer).drop part.offset).take part.len = (payload.drop off).take part.len := by
      rw [write_eq_self_iff, overwrite_eq_self_iff, hlength]
    have hframe := writeParts_frame h hnodup.1
    rw [write_same] at hframe
    constructor
    · rintro rfl
      have hsame := write_eq_self_iff.2 hframe.symm
      rw [hsame] at h
      exact ⟨hself.1 hsame, (ih h hnodup.2).1 rfl⟩
    · rintro ⟨hpart, hrest⟩
      rw [hself.2 hpart] at h
      exact (ih h hnodup.2).2 hrest

end Writes

section Restoring
variable {device : Device} {pool : SlotPool} {slot : ℕ} {snap : SlotSnapshot} {expect : SnapshotStamp} {r : Restored}
  {desc : KvSlotDesc} {span : ℕ}

theorem mem_kvParts {part : Part} : part ∈ kvParts device desc span ↔
    0 < span ∧ ∃ layer < min device.kLayers device.vLayers,
      part = ⟨.k layer, desc.kBase, span⟩ ∨ part = ⟨.v layer, desc.vBase, span⟩ := by
  rw [kvParts]
  split_ifs with hspan
  · simp [hspan]
  · simp [hspan]

private theorem nodup_layers (n : ℕ) :
    ((List.range n).flatMap fun layer => [Buffer.k layer, Buffer.v layer]).Nodup := by
  rw [List.nodup_flatMap]
  refine ⟨fun layer _ => by simp, ?_⟩
  refine List.Pairwise.imp ?_ List.nodup_range
  intro a b hab
  simp [Function.onFun, Ne.symm hab]

theorem nodup_parts (device : Device) (desc : KvSlotDesc) (span : ℕ) :
    ((kvParts device desc span ++ extraParts device).map Part.buffer).Nodup := by
  rw [List.map_append, List.nodup_append]
  refine ⟨?_, ?_, ?_⟩
  · rw [kvParts]
    split_ifs
    · rw [List.map_flatMap]
      exact nodup_layers _
    · exact List.nodup_nil
  · rw [extraParts, List.map_map]
    exact List.nodup_range.map fun a b hab => Buffer.extra.inj hab
  · rintro a ha b hb rfl
    obtain ⟨part, hpart, rfl⟩ := List.mem_map.1 ha
    obtain ⟨part', hpart', hsame⟩ := List.mem_map.1 hb
    obtain ⟨-, layer, -, rfl | rfl⟩ := mem_kvParts.1 hpart <;>
      simp [extraParts] at hpart' <;> obtain ⟨i, -, rfl⟩ := hpart' <;> simp at hsame

theorem kvParts_inside_iff : (∀ part ∈ kvParts device desc span, part.Inside device pool desc) ↔
    min device.kLayers device.vLayers = 0 ∨ span ≤ pool.slabBytes := by
  constructor
  · intro h
    by_cases hspan : 0 < span
    · by_cases hlayers : 0 < min device.kLayers device.vLayers
      · have hfirst := h ⟨.k 0, desc.kBase, span⟩ (mem_kvParts.2 ⟨hspan, 0, hlayers, .inl rfl⟩)
        simp only [Part.Inside] at hfirst
        omega
      · omega
    · omega
  · rintro h part hpart
    obtain ⟨-, layer, hlayer, rfl | rfl⟩ := mem_kvParts.1 hpart
    all_goals
      simp only [Part.Inside]
      omega

theorem extraParts_inside : ∀ part ∈ extraParts device, part.Inside device pool desc := by
  intro part hpart
  rw [extraParts, List.mem_map] at hpart
  obtain ⟨i, -, rfl⟩ := hpart
  simp [Part.Inside]

/-- The outcome of writing a length is decided by the capacity. -/
theorem setSeqLen_cases {outcome : Except String Unit} {seqLen : ℕ} {next : SlotPool}
    (h : pool.setSeqLen slot seqLen = some (outcome, next)) :
    (pool.capTokens < seqLen ∧ (∃ e, outcome = .error e) ∧ next = pool) ∨
      (seqLen ≤ pool.capTokens ∧ outcome = .ok ()) := by
  unfold SlotPool.setSeqLen at h
  split_ifs at h with hcap
  · obtain ⟨rfl, rfl⟩ := Prod.mk.inj (Option.some.inj h)
    exact .inl ⟨hcap, ⟨_, rfl⟩, rfl⟩
  · refine .inr ⟨by omega, ?_⟩
    cases hd : pool.descs[slot]? with
    | none => simp [hd] at h
    | some d =>
      simp only [hd, Option.bind_eq_bind, Option.bind_some] at h
      split_ifs at h <;> exact (congrArg Prod.fst (Option.some.inj h)).symm

/-- A restore ends before the device is touched, or writes every part and then the pool. -/
theorem restoreSlot_cases (h : restoreSlot device pool slot snap expect = some r) :
    (¬ Accepted device snap expect ∧ (∃ e, r.outcome = .error e) ∧ r.device = device ∧ r.pool = pool) ∨
    ∃ desc outcome, Accepted device snap expect ∧ pool.descs[slot]? = some desc ∧
      r.written = kvParts device desc snap.span ++ extraParts device ∧
      writeParts snap.payload.data 0 r.written device = some r.device ∧
      pool.setSeqLen slot snap.seqLen.toNat = some (outcome, r.pool) ∧
      r.outcome = outcome.mapError SwapError.gpu := by
  unfold restoreSlot at h
  split at h
  next e hinvalid =>
    obtain rfl := Option.some.inj h
    refine .inl ⟨fun hacc => ?_, ⟨e, rfl⟩, rfl, rfl⟩
    rw [hacc.1] at hinvalid
    cases hinvalid
  next hvalid =>
    obtain ⟨desc, hdesc, h⟩ := Option.bind_eq_some_iff.1 h
    split_ifs at h with hsize
    · obtain rfl := Option.some.inj h
      exact .inl ⟨fun hacc => hsize hacc.2, ⟨_, rfl⟩, rfl, rfl⟩
    · obtain ⟨next, hwrite, h⟩ := Option.bind_eq_some_iff.1 h
      obtain ⟨⟨outcome, pool'⟩, hset, h⟩ := Option.bind_eq_some_iff.1 h
      obtain rfl := Option.some.inj h
      exact .inr ⟨desc, outcome, ⟨hvalid, not_not.1 hsize⟩, hdesc, rfl, hwrite, hset, rfl⟩

/-- A restore is safe exactly when an accepted snapshot longer than the slots changes nothing, and one that
fits stays below a slab. -/
theorem restoreSlot_safe_iff (h : restoreSlot device pool slot snap expect = some r) :
    r.Safe device pool slot ↔ (Accepted device snap expect →
      (pool.capTokens < snap.seqLen.toNat → ∀ desc, pool.descs[slot]? = some desc →
        Holds device snap.payload.data 0 (kvParts device desc snap.span ++ extraParts device)) ∧
      (snap.seqLen.toNat ≤ pool.capTokens →
        min device.kLayers device.vLayers = 0 ∨ snap.span ≤ pool.slabBytes)) := by
  obtain ⟨hacc, ⟨e, he⟩, hdevice, hpool⟩ | ⟨desc, outcome, hacc, hdesc, hwritten, hwrite, hset, hout⟩ :=
    restoreSlot_cases h
  · refine iff_of_true ⟨fun _ _ => ⟨hdevice, hpool⟩, fun hok => ?_⟩ fun h' => absurd h' hacc
    rw [he] at hok
    cases hok
  · have hnodup := nodup_parts device desc snap.span
    rw [← hwritten] at hnodup
    have hself := writeParts_eq_self_iff hwrite hnodup
    obtain ⟨hlong, ⟨e, rfl⟩, hpool⟩ | ⟨hshort, rfl⟩ := setSeqLen_cases hset
    · constructor
      · intro hsafe _
        refine ⟨fun _ desc' hdesc' => ?_, fun hle => by omega⟩
        obtain rfl := Option.some.inj (hdesc.symm.trans hdesc')
        rw [← hwritten]
        exact hself.1 (hsafe.rejected _ hout).1
      · intro hcond
        refine ⟨fun _ _ => ⟨hself.2 ?_, hpool⟩, fun hok => ?_⟩
        · rw [hwritten]
          exact (hcond hacc).1 hlong desc hdesc
        · rw [hout] at hok
          cases hok
    · constructor
      · intro hsafe _
        have hkv : ∀ part ∈ kvParts device desc snap.span, part.Inside device pool desc := by
          intro part hpart
          refine hsafe.confined hout desc hdesc part ?_
          rw [hwritten]
          exact List.mem_append_left _ hpart
        exact ⟨fun hlt => by omega, fun _ => kvParts_inside_iff.1 hkv⟩
      · intro hcond
        refine ⟨fun e he => ?_, fun _ desc' hdesc' part hpart => ?_⟩
        · rw [hout] at he
          cases he
        · obtain rfl := Option.some.inj (hdesc.symm.trans hdesc')
          rw [hwritten, List.mem_append] at hpart
          obtain hkv | hextra := hpart
          · exact kvParts_inside_iff.2 ((hcond hacc).2 hshort) part hkv
          · exact extraParts_inside part hextra

end Restoring

/-- One layer of 256 zero bytes for K and for V, without state buffers. -/
def smallDevice : Device := ⟨1, 1, 0, fun _ => List.replicate 256 0⟩

/-- Two slots of 128 one-byte positions. -/
def smallPool : SlotPool := ⟨[⟨0, 0, 0, 128⟩, ⟨128, 128, 0, 128⟩], [false, false], 128, 1, true⟩

def smallStamp : SnapshotStamp := ⟨0, 0, 1, 1, 0, 128, 0⟩

/-- A snapshot of ones with a correct checksum. -/
def snapshotOfOnes (seqLen : UInt64) (h : seqLen.toNat < 2 ^ 61) : SlotSnapshot :=
  ⟨smallStamp, seqLen, ⟨[], by decide⟩, ⟨List.replicate (2 * seqLen.toNat) 1, by rw [List.length_replicate]; omega⟩,
    checksumOf (List.replicate (2 * seqLen.toNat) 1)⟩

theorem restoreSlot_safe_three : ∃ r,
    restoreSlot smallDevice smallPool 1 (snapshotOfOnes 3 (by decide)) smallStamp = some r ∧
      r.Safe smallDevice smallPool 1 := by
  have hrun : (restoreSlot smallDevice smallPool 1 (snapshotOfOnes 3 (by decide)) smallStamp).isSome := by
    decide +kernel
  obtain ⟨r, hr⟩ := Option.isSome_iff_exists.1 hrun
  refine ⟨r, hr, (restoreSlot_safe_iff hr).2 fun _ => ⟨fun hlong => ?_, fun _ => .inr (by decide)⟩⟩
  exact absurd hlong (by decide)

/-- A snapshot of 129 positions is written, over both slots, and then refused. -/
theorem refused_after_writing : SlotPool.new (some (2 ^ 40)) 2 128 1 = some (.ok smallPool) ∧
    ∃ r, restoreSlot smallDevice smallPool 0 (snapshotOfOnes 129 (by decide)) smallStamp = some r ∧
      (∃ e, r.outcome = .error e) ∧ (smallDevice.bytes (.k 0))[128]? = some 0 ∧
      (r.device.bytes (.k 0))[128]? = some 1 := by
  refine ⟨by rfl, ?_⟩
  have hrun : (restoreSlot smallDevice smallPool 0 (snapshotOfOnes 129 (by decide)) smallStamp).any
      fun r => !r.outcome.toBool && (r.device.bytes (.k 0))[128]? == some 1 := by
    decide +kernel
  obtain ⟨r, hr, hfacts⟩ := (Option.any_eq_true _ _).1 hrun
  rw [Bool.and_eq_true, Bool.not_eq_true', beq_iff_eq] at hfacts
  obtain ⟨hfailed, hspilled⟩ := hfacts
  refine ⟨r, hr, ?_, by decide +kernel, hspilled⟩
  cases hout : r.outcome with
  | error e => exact ⟨e, rfl⟩
  | ok u =>
    rw [hout] at hfailed
    cases hfailed

end Hipscope.Swap
