import Hipscope.Pm4.Gfx12
import Hipscope.Pm4.Registers

/-! A GPU-clock write before the first packet of a GFX12 stream and after every
dispatch, inserted by a walk over the dwords. -/
namespace Hipscope.Pm4

def countSlot (slots _ : ℕ) (header : UInt32) (_ : List UInt32) : Except Pm4BuildError ℕ :=
  .ok (if opcode header = Opcode.dispatchDirect then slots + 1 else slots)

/-- One slot per dispatch and a leading baseline. -/
def timestampSlotCount (dwords : List UInt32) : Except Pm4BuildError ℕ :=
  walkDwords .malformedStream countSlot 1 dwords

/-- Copies one packet, with a clock write after a dispatch. -/
def copyTimed (baseAddress : ℕ) (timed : List UInt32 × ℕ) (_ : ℕ) (header : UInt32)
    (body : List UInt32) : Except Pm4BuildError (List UInt32 × ℕ) :=
  if opcode header = Opcode.dispatchDirect then
    .ok (timed.1 ++ header :: body ++ (Packet.copyTimestamp (baseAddress + timed.2 * 8)).encode,
      timed.2 + 1)
  else .ok (timed.1 ++ header :: body, timed.2)

def withPerDispatchTimestamps (dwords : List UInt32) (baseAddress : ℕ) :
    Except Pm4BuildError (List UInt32) := do
  let timed ← walkDwords .malformedStream (copyTimed baseAddress)
    ((Packet.copyTimestamp baseAddress).encode, 1) dwords
  return timed.1

/-- The packets of an instrumented stream; the flag marks the inserted ones. -/
def instrumentFrom (baseAddress : ℕ) : ℕ → List Packet → List (Packet × Bool)
  | _, [] => []
  | slot, p :: ps =>
    if p.dispatch?.isSome then
      (p, false) :: (.copyTimestamp (baseAddress + slot * 8), true) ::
        instrumentFrom baseAddress (slot + 1) ps
    else (p, false) :: instrumentFrom baseAddress slot ps

def instrument (baseAddress : ℕ) (ps : List Packet) : List (Packet × Bool) :=
  (.copyTimestamp baseAddress, true) :: instrumentFrom baseAddress 1 ps

theorem opcode_header {p : Packet} (h : p.WellFormed) :
    opcode p.header = Opcode.dispatchDirect ↔ p.dispatch?.isSome := by
  rw [(Packet.header_fields h).2.2]
  exact p.opcode_dispatch

private theorem foldPackets_countSlot {slots cursor : ℕ} {ps : List Packet}
    (h : ∀ p ∈ ps, p.WellFormed) :
    foldPackets countSlot slots cursor ps = .ok (slots + (dispatches ps).length) := by
  induction ps generalizing slots cursor with
  | nil => rfl
  | cons p ps ih =>
    rw [foldPackets, countSlot]
    simp only [opcode_header (h p List.mem_cons_self)]
    refine (ih fun q hq => h q (List.mem_cons_of_mem _ hq)).trans ?_
    cases hp : p.dispatch? with
    | none => simp [dispatches, hp]
    | some d =>
      simp only [dispatches, List.filterMap_cons, hp, Option.isSome_some, if_true, List.length_cons]
      rw [Nat.add_assoc, Nat.add_comm 1]

/-- The announced number of slots is the number of dispatches and one more. -/
theorem timestampSlotCount_encodeStream {ps : List Packet} (h : ∀ p ∈ ps, p.WellFormed) :
    timestampSlotCount (encodeStream ps) = .ok (1 + (dispatches ps).length) :=
  (walkDwords_encodeStream h).trans (foldPackets_countSlot h)

private theorem foldPackets_copyTimed {baseAddress slot cursor : ℕ} {timed : List UInt32}
    {ps : List Packet} (h : ∀ p ∈ ps, p.WellFormed) :
    foldPackets (copyTimed baseAddress) (timed, slot) cursor ps =
      .ok (timed ++ encodeStream ((instrumentFrom baseAddress slot ps).map Prod.fst),
        slot + (dispatches ps).length) := by
  induction ps generalizing timed slot cursor with
  | nil => simp [foldPackets, instrumentFrom, dispatches]
  | cons p ps ih =>
    have hrest : ∀ q ∈ ps, q.WellFormed := fun q hq => h q (List.mem_cons_of_mem _ hq)
    rw [foldPackets, copyTimed]
    simp only [opcode_header (h p List.mem_cons_self), instrumentFrom]
    split
    · rename_i hp
      obtain ⟨d, hd⟩ := Option.isSome_iff_exists.mp hp
      refine (ih hrest).trans ?_
      simp [dispatches, hd, Packet.encode, Nat.add_assoc, Nat.add_comm 1]
    · rename_i hp
      refine (ih hrest).trans ?_
      have hd : p.dispatch? = none := by simpa using hp
      simp [dispatches, hd, Packet.encode]

theorem withPerDispatchTimestamps_encodeStream {ps : List Packet} (h : ∀ p ∈ ps, p.WellFormed)
    (baseAddress : ℕ) : withPerDispatchTimestamps (encodeStream ps) baseAddress =
      .ok (encodeStream ((instrument baseAddress ps).map Prod.fst)) := by
  rw [withPerDispatchTimestamps, walkDwords_encodeStream h, foldPackets_copyTimed h]
  simp [instrument, bind, Except.bind, pure, Except.pure]

private theorem instrumentFrom_split (baseAddress slot : ℕ) (ps : List Packet) :
    ((instrumentFrom baseAddress slot ps).filter fun p => !p.2).map Prod.fst = ps ∧
      ((instrumentFrom baseAddress slot ps).filter fun p => p.2).map Prod.fst =
        (List.range' slot (dispatches ps).length).map fun i => .copyTimestamp (baseAddress + i * 8) := by
  induction ps generalizing slot with
  | nil => exact ⟨rfl, rfl⟩
  | cons p ps ih =>
    rw [instrumentFrom]
    cases hp : p.dispatch? with
    | none =>
      obtain ⟨hkept, hadded⟩ := ih slot
      simpa [dispatches, hp] using ⟨hkept, hadded⟩
    | some d =>
      obtain ⟨hkept, hadded⟩ := ih (slot + 1)
      simpa [dispatches, hp, List.range'_succ] using ⟨hkept, hadded⟩

/-- Deleting the inserted packets gives the stream back; the inserted ones write
consecutive slots. -/
theorem instrument_split (baseAddress : ℕ) (ps : List Packet) :
    ((instrument baseAddress ps).filter fun p => !p.2).map Prod.fst = ps ∧
      ((instrument baseAddress ps).filter fun p => p.2).map Prod.fst =
        (List.range (1 + (dispatches ps).length)).map fun i =>
          .copyTimestamp (baseAddress + i * 8) := by
  obtain ⟨hkept, hadded⟩ := instrumentFrom_split baseAddress 1 ps
  refine ⟨by simpa [instrument] using hkept, ?_⟩
  rw [Nat.add_comm, List.range_eq_range', List.range'_succ]
  simpa [instrument] using hadded

theorem dispatches_instrument (baseAddress : ℕ) (ps : List Packet) :
    dispatches ((instrument baseAddress ps).map Prod.fst) = dispatches ps := by
  have hfrom (slot : ℕ) : dispatches ((instrumentFrom baseAddress slot ps).map Prod.fst) =
      dispatches ps := by
    induction ps generalizing slot with
    | nil => rfl
    | cons p ps ih =>
      have hcopy : (Packet.copyTimestamp (baseAddress + slot * 8)).dispatch? = none := rfl
      rw [instrumentFrom]
      cases hp : p.dispatch? with
      | none =>
        simp only [dispatches, Option.isSome_none, Bool.false_eq_true, if_false, List.map_cons,
          List.filterMap_cons, hp]
        exact ih slot
      | some d =>
        simp only [dispatches, Option.isSome_some, if_true, List.map_cons, List.filterMap_cons, hp,
          hcopy]
        exact congrArg (d :: ·) (ih (slot + 1))
  exact hfrom 1

theorem instrument_wellFormed (baseAddress : ℕ) {ps : List Packet} (h : ∀ p ∈ ps, p.WellFormed) :
    ∀ p ∈ (instrument baseAddress ps).map Prod.fst, p.WellFormed := by
  intro p hp
  obtain ⟨⟨q, inserted⟩, hq, rfl⟩ := List.mem_map.mp hp
  obtain ⟨hkept, hadded⟩ := instrument_split baseAddress ps
  cases inserted with
  | false =>
    refine h q ?_
    rw [← hkept]
    exact List.mem_map_of_mem (List.mem_filter.mpr ⟨hq, rfl⟩)
  | true =>
    have hmem : q ∈ ((instrument baseAddress ps).filter fun p => p.2).map Prod.fst :=
      List.mem_map_of_mem (List.mem_filter.mpr ⟨hq, rfl⟩)
    rw [hadded] at hmem
    obtain ⟨i, -, rfl⟩ := List.mem_map.mp hmem
    trivial

/-- The packets of the instrumented copy, which starts without a register cache. -/
def Gfx12Pm4CommandBuffer.withPerDispatchTimestamps (b : Gfx12Pm4CommandBuffer) (baseAddress : ℕ) :
    Gfx12Pm4CommandBuffer :=
  new.push ((instrument baseAddress b.packets).map Prod.fst)

end Hipscope.Pm4
