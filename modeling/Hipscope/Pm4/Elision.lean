import Hipscope.Pm4.Operations
import Hipscope.Pm4.RegisterFile

/-! Leaving out register writes is invisible: a stateful builder and the plain
one, given the same operations, show every dispatch the same registers. -/
namespace Hipscope.Pm4
open Redline

/-- Two streams that no dispatch can tell apart, and the cache the first was
built with. -/
structure Mirrors (state : Option RegisterState) (elided plain : List Packet) : Prop where
  registers : ∀ file, programAll file elided = programAll file plain
  shown : ∀ file, shown file elided = shown file plain
  others : inertPackets elided = inertPackets plain
  agrees : ∀ registers ∈ state, ∀ file, Agrees registers (programAll file elided)

namespace Mirrors
variable {state : Option RegisterState} {elided plain : List Packet}

theorem refl (ps : List Packet) : Mirrors none ps ps :=
  ⟨fun _ => rfl, fun _ => rfl, rfl, by simp⟩

theorem empty (ps : List Packet) : Mirrors (some fun _ => none) ps ps := by
  refine ⟨fun _ => rfl, fun _ => rfl, rfl, ?_⟩
  intro registers hr file register value hv
  obtain rfl : (fun _ => none) = registers := by simpa using hr
  cases hv

/-- The same packets on both sides, with a cache that agrees after them. -/
theorem append (h : Mirrors state elided plain) (state' : Option RegisterState) (ps : List Packet)
    (hs : ∀ registers ∈ state', ∀ file, Agrees registers (programAll (programAll file elided) ps)) :
    Mirrors state' (elided ++ ps) (plain ++ ps) := by
  refine ⟨fun file => ?_, fun file => ?_, ?_, fun registers hr file => ?_⟩
  · rw [programAll_append, programAll_append, h.registers]
  · rw [shown_append, shown_append, h.shown, h.registers]
  · rw [inertPackets_append, inertPackets_append, h.others]
  · rw [programAll_append]
    exact hs registers hr file

theorem push (h : Mirrors state elided plain) {ps : List Packet} (hps : ∀ p ∈ ps, p.Inert) :
    Mirrors state (elided ++ ps) (plain ++ ps) := by
  refine h.append state ps fun registers hr file => ?_
  rw [programAll_inert hps]
  exact h.agrees registers hr file

/-- A foreign stream may change any register, and empties the cache. -/
theorem appendStream (h : Mirrors state elided plain) (ps : List Packet) :
    Mirrors (state.map fun _ _ => none) (elided ++ ps) (plain ++ ps) := by
  have hempty : ∀ registers ∈ state.map fun _ _ => none, ∀ file, Agrees registers file := by
    intro registers hr file register value hv
    obtain ⟨old, -, rfl⟩ := Option.map_eq_some_iff.mp hr
    cases hv
  exact h.append _ ps fun registers hr file => hempty registers hr _

/-- A copy after other packets, without a cache. -/
theorem prepend (h : Mirrors state elided plain) (ps : List Packet) :
    Mirrors none (ps ++ elided) (ps ++ plain) := by
  refine ⟨fun file => ?_, fun file => ?_, ?_, by simp⟩
  · rw [programAll_append, programAll_append, h.registers]
  · rw [shown_append, shown_append, h.shown]
  · rw [inertPackets_append, inertPackets_append, h.others]

/-- A register write through the cache. -/
theorem setRegisters (h : Mirrors state elided plain) (first : UInt32) {values : List UInt32}
    (hpos : 0 < values.length) (hlen : values.length ≤ 16) :
    Mirrors (Pm4.setRegisters state first values).1
      (elided ++ (Pm4.setRegisters state first values).2) (plain ++ [.setShReg first values]) := by
  have hspec (file : RegisterFile) := @setRegisters_spec state first values (programAll file elided)
    hpos hlen fun registers hr => h.agrees registers hr file
  have hwrites := @setRegisters_writes state first values hpos hlen
  have hplain : ∀ p ∈ [Packet.setShReg first values], RegisterWrite p := fun p hp =>
    ⟨first, values, List.mem_singleton.mp hp, hpos, hlen⟩
  have hdirect (file : RegisterFile) :
      programAll file [.setShReg first values] = writeRegisters file first values :=
    Packet.program_setShReg hlen file
  refine ⟨fun file => ?_, fun file => ?_, ?_, fun registers hr file => ?_⟩
  · rw [programAll_append, programAll_append, hdirect, ← h.registers]
    exact (hspec file).1
  · rw [shown_append, shown_append, h.shown, shown_registerWrites hwrites,
      shown_registerWrites hplain]
  · rw [inertPackets_append, inertPackets_append, h.others, inertPackets_registerWrites hwrites,
      inertPackets_registerWrites hplain]
  · rw [programAll_append, (hspec file).1]
    exact (hspec file).2 registers hr

/-- A register write that goes round a cache without entries for it. -/
theorem writeThrough (h : Mirrors state elided plain) (first : UInt32) {values : List UInt32}
    (hlen : values.length ≤ 16)
    (hfree : ∀ registers ∈ state, ∀ i < values.length, registers (first + UInt32.ofNat i) = none) :
    Mirrors state (elided ++ [.setShReg first values]) (plain ++ [.setShReg first values]) := by
  refine h.append state _ fun registers hr file register value hv => ?_
  have hdirect : programAll (programAll file elided) [.setShReg first values] =
      writeRegisters (programAll file elided) first values := Packet.program_setShReg hlen _
  rw [hdirect, writeRegisters_of_outside]
  · exact h.agrees registers hr file register value hv
  · rintro i hi rfl
    rw [hfree registers hr i hi] at hv
    cases hv

end Mirrors

section Gfx10

/-- The stateful builder and the plain one after the same operations. -/
structure Gfx10Mirrors (elided plain : Gfx10Pm4CommandBuffer) : Prop where
  mirrors : Mirrors elided.registerState elided.packets plain.packets
  uncached : plain.registerState = none
  initiator : elided.dispatchInitiatorPolicy = plain.dispatchInitiatorPolicy
  limits : elided.resourceLimitsPolicy = plain.resourceLimitsPolicy

variable {elided plain : Gfx10Pm4CommandBuffer}

theorem Gfx10Mirrors.push (h : Gfx10Mirrors elided plain) {ps : List Packet}
    (hps : ∀ p ∈ ps, p.Inert) : Gfx10Mirrors (elided.push ps) (plain.push ps) :=
  ⟨h.mirrors.push hps, h.uncached, h.initiator, h.limits⟩

theorem Gfx10Mirrors.setShRegs (h : Gfx10Mirrors elided plain) {write : UInt32 × List UInt32}
    (hw : 0 < write.2.length ∧ write.2.length ≤ 16) :
    Gfx10Mirrors (elided.setShRegs write.1 write.2) (plain.setShRegs write.1 write.2) := by
  refine ⟨?_, ?_, h.initiator, h.limits⟩
  · have hplain : (plain.setShRegs write.1 write.2).packets =
        plain.packets ++ [.setShReg write.1 write.2] := by
      simp [Gfx10Pm4CommandBuffer.setShRegs, h.uncached, setRegisters]
    rw [hplain]
    exact h.mirrors.setRegisters write.1 hw.1 hw.2
  · simp [Gfx10Pm4CommandBuffer.setShRegs, h.uncached, setRegisters]

theorem Gfx10Mirrors.programRegisters (h : Gfx10Mirrors elided plain)
    {writes : List (UInt32 × List UInt32)}
    (hw : ∀ write ∈ writes, 0 < write.2.length ∧ write.2.length ≤ 16) :
    Gfx10Mirrors (elided.programRegisters writes) (plain.programRegisters writes) := by
  induction writes generalizing elided plain with
  | nil => exact h
  | cons write writes ih =>
    exact ih (h.setShRegs (hw write List.mem_cons_self)) fun w hm => hw w (List.mem_cons_of_mem _ hm)

/-- Two edits with one outcome that keep the builders alike. -/
def Gfx10Alike (x y : Except Gfx10Pm4BuildError Gfx10Pm4CommandBuffer) : Prop :=
  (∃ e, x = .error e ∧ y = .error e) ∨ ∃ b c, x = .ok b ∧ y = .ok c ∧ Gfx10Mirrors b c

theorem Gfx10Alike.commit (h : Gfx10Mirrors elided plain)
    {x y : Except Gfx10Pm4BuildError Gfx10Pm4CommandBuffer} (hxy : Gfx10Alike x y) :
    (Edit.commit x elided).1 = (Edit.commit y plain).1 ∧
      Gfx10Mirrors (Edit.commit x elided).2 (Edit.commit y plain).2 := by
  rcases hxy with ⟨e, rfl, rfl⟩ | ⟨b, c, rfl, rfl, hbc⟩
  · exact ⟨rfl, h⟩
  · exact ⟨rfl, hbc⟩

theorem Gfx10Mirrors.dispatchImage (h : Gfx10Mirrors elided plain) (image : Gfx10KernelImage)
    (geometry : LaunchGeometry) (dynamicGroupBytes : ℕ) (userSgprs : List UInt32) :
    Gfx10Alike (elided.dispatchImage image geometry dynamicGroupBytes userSgprs)
      (plain.dispatchImage image geometry dynamicGroupBytes userSgprs) := by
  unfold Gfx10Pm4CommandBuffer.dispatchImage
  dsimp only
  split
  · exact .inl ⟨_, rfl, rfl⟩
  split
  · exact .inl ⟨_, rfl, rfl⟩
  split
  · exact .inl ⟨_, rfl, rfl⟩
  split
  · exact .inl ⟨_, rfl, rfl⟩
  split
  · exact .inl ⟨_, rfl, rfl⟩
  rename_i hsgprs
  cases Gfx10Pm4CommandBuffer.workgroups geometry with
  | error e => exact .inl ⟨e, rfl, rfl⟩
  | ok counts =>
    refine .inr ⟨_, _, rfl, rfl, ?_⟩
    have hprogrammed := h.programRegisters (@Gfx10Pm4CommandBuffer.imageRegisters_lengths
      elided.resourceLimitsPolicy image geometry.workgroup (image.groupSegmentSize + dynamicGroupBytes)
      _ (Gfx10Pm4CommandBuffer.userData_lengths (by simpa using hsgprs)))
    rw [← h.limits, hprogrammed.initiator]
    exact hprogrammed.push (by simp [Packet.Inert])

/-- One operation has the same outcome on both builders and keeps them alike. -/
theorem Gfx10Mirrors.apply (h : Gfx10Mirrors elided plain) (operation : Gfx10Operation) :
    (operation.apply elided).1 = (operation.apply plain).1 ∧
      Gfx10Mirrors (operation.apply elided).2 (operation.apply plain).2 := by
  cases operation with
  | withDispatchInitiatorPolicy policy => exact ⟨rfl, h.mirrors, h.uncached, rfl, h.limits⟩
  | withResourceLimitsPolicy policy => exact ⟨rfl, h.mirrors, h.uncached, h.initiator, rfl⟩
  | withDispatchInterleave interleave =>
    cases interleave with
    | none => exact ⟨rfl, h⟩
    | some interleave =>
      have hwrite : 0 < [interleave.threads].length ∧ [interleave.threads].length ≤ 16 := by simp
      exact ⟨rfl, @Gfx10Mirrors.setShRegs elided plain h (0x22f, [interleave.threads]) hwrite⟩
  | withGpuTimestamps start stop =>
    refine ⟨rfl, ?_, rfl, rfl, rfl⟩
    exact (h.mirrors.prepend [.copyTimestamp start]).push (by simp [Packet.Inert])
  | appendStream commands =>
    refine ⟨rfl, h.mirrors.appendStream commands.packets, ?_, h.initiator, h.limits⟩
    simp [Gfx10Operation.apply, Gfx10Pm4CommandBuffer.appendStream, h.uncached]
  | dispatch kernel geometry dynamicGroupBytes kernargAddress =>
    simp only [Gfx10Operation.apply, Gfx10Pm4CommandBuffer.dispatchEdit_apply]
    refine Gfx10Alike.commit h ?_
    unfold Gfx10Pm4CommandBuffer.dispatch
    cases Gfx10KernelImage.fromHsa kernel with
    | error e => exact .inl ⟨e, rfl, rfl⟩
    | ok image =>
      change Gfx10Alike (hsaUserSgprs image.kernelCodeProperties kernargAddress >>= fun sgprs =>
          elided.dispatchImage image geometry dynamicGroupBytes sgprs)
        (hsaUserSgprs image.kernelCodeProperties kernargAddress >>= fun sgprs =>
          plain.dispatchImage image geometry dynamicGroupBytes sgprs)
      cases hsaUserSgprs image.kernelCodeProperties kernargAddress with
      | error e => exact .inl ⟨e, rfl, rfl⟩
      | ok userSgprs => exact h.dispatchImage image geometry dynamicGroupBytes userSgprs
  | dispatchImage image geometry dynamicGroupBytes userSgprs =>
    simp only [Gfx10Operation.apply, Gfx10Pm4CommandBuffer.dispatchImageEdit_apply]
    exact Gfx10Alike.commit h (h.dispatchImage image geometry dynamicGroupBytes userSgprs)
  | dependencyRmwSameAgent =>
    exact ⟨rfl, (h.push (by simp [Packet.Inert])).push (by simp [Packet.Inert])⟩
  | dependencyRmwVmem =>
    exact ⟨rfl, (h.push (by simp [Packet.Inert])).push (by simp [Packet.Inert])⟩
  | dependencyRmwGlobal =>
    exact ⟨rfl, (h.push (by simp [Packet.Inert])).push (by simp [Packet.Inert])⟩
  | dependencyFence address value =>
    exact ⟨rfl, (h.push (by simp [Packet.Inert])).push (by simp [Packet.Inert])⟩
  | _ => exact ⟨rfl, h.push (by simp [Packet.Inert])⟩

theorem Gfx10Mirrors.run (h : Gfx10Mirrors elided plain) (operations : List Gfx10Operation) :
    Gfx10Mirrors (Gfx10Operation.run elided operations) (Gfx10Operation.run plain operations) := by
  induction operations generalizing elided plain with
  | nil => exact h
  | cons operation operations ih => exact ih (h.apply operation).2

end Gfx10
section Gfx12

/-- The queue-global registers. -/
def staticRegisters : List UInt32 := [0x215, 0x216, 0x230, 0x231, 0x232, 0x233]

/-- A write lies inside the queue-global registers or outside of them. -/
def OneSided (write : UInt32 × List UInt32) : Prop :=
  ∀ i < write.2.length, write.1 + UInt32.ofNat i ∈ staticRegisters ↔
    Gfx12Pm4CommandBuffer.isStaticRegister write.1 = true

/-- The stateful builder and the plain one after the same operations. A builder
that keeps dynamic registers out of its cache caches queue-global ones only. -/
structure Gfx12Mirrors (elided plain : Gfx12Pm4CommandBuffer) : Prop where
  mirrors : Mirrors elided.registerState elided.packets plain.packets
  uncached : plain.registerState = none
  restricted : elided.cacheDynamicRegisters = false → ∀ registers ∈ elided.registerState,
    ∀ register, registers register ≠ none → register ∈ staticRegisters

variable {elided plain : Gfx12Pm4CommandBuffer}

theorem Gfx12Mirrors.push (h : Gfx12Mirrors elided plain) {ps : List Packet}
    (hps : ∀ p ∈ ps, p.Inert) : Gfx12Mirrors (elided.push ps) (plain.push ps) :=
  ⟨h.mirrors.push hps, h.uncached, h.restricted⟩

theorem setShRegs_plain (h : plain.registerState = none) (write : UInt32 × List UInt32) :
    (plain.setShRegs write.1 write.2).packets = plain.packets ++ [.setShReg write.1 write.2] ∧
      (plain.setShRegs write.1 write.2).registerState = none := by
  unfold Gfx12Pm4CommandBuffer.setShRegs
  split
  · exact ⟨rfl, h⟩
  · simp [h, setRegisters]

theorem Gfx12Mirrors.setShRegs (h : Gfx12Mirrors elided plain) {write : UInt32 × List UInt32}
    (hw : 0 < write.2.length ∧ write.2.length ≤ 16) (hside : OneSided write) :
    Gfx12Mirrors (elided.setShRegs write.1 write.2) (plain.setShRegs write.1 write.2) := by
  obtain ⟨hpackets, huncached⟩ := setShRegs_plain h.uncached write
  by_cases hround : (!elided.cacheDynamicRegisters &&
      !Gfx12Pm4CommandBuffer.isStaticRegister write.1) = true
  · have helided : elided.setShRegs write.1 write.2 = elided.push [.setShReg write.1 write.2] :=
      if_pos hround
    simp only [Bool.and_eq_true, Bool.not_eq_true'] at hround
    rw [helided]
    refine ⟨?_, huncached, h.restricted⟩
    rw [hpackets]
    refine h.mirrors.writeThrough write.1 hw.2 fun registers hr i hi => ?_
    by_contra hne
    have hstatic := (hside i hi).mp (h.restricted hround.1 registers hr _ hne)
    rw [hround.2] at hstatic
    cases hstatic
  · have helided : elided.setShRegs write.1 write.2 =
        { elided with
          packets := elided.packets ++ (setRegisters elided.registerState write.1 write.2).2
          registerState := (setRegisters elided.registerState write.1 write.2).1 } := if_neg hround
    rw [helided]
    refine ⟨?_, huncached, fun hdynamic registers hr register hne => ?_⟩
    · rw [hpackets]
      exact h.mirrors.setRegisters write.1 hw.1 hw.2
    · have hdynamic' : elided.cacheDynamicRegisters = false := hdynamic
      have hstatic : Gfx12Pm4CommandBuffer.isStaticRegister write.1 = true := by
        simpa [hdynamic'] using hround
      cases hs : elided.registerState with
      | none => simp [hs, setRegisters] at hr
      | some cached =>
        obtain rfl : (elideRuns cached write.1 none write.2).1 = registers := by
          simpa [hs, setRegisters] using hr
        rcases elideRuns_cached hne with hold | ⟨i, hi, rfl⟩
        · exact h.restricted hdynamic' cached (by simp [hs]) register hold
        · exact (hside i hi).mpr hstatic

theorem Gfx12Mirrors.programRegisters (h : Gfx12Mirrors elided plain)
    {writes : List (UInt32 × List UInt32)}
    (hw : ∀ write ∈ writes, 0 < write.2.length ∧ write.2.length ≤ 16)
    (hside : ∀ write ∈ writes, OneSided write) :
    Gfx12Mirrors (elided.programRegisters writes) (plain.programRegisters writes) := by
  induction writes generalizing elided plain with
  | nil => exact h
  | cons write writes ih =>
    exact ih (h.setShRegs (hw write List.mem_cons_self) (hside write List.mem_cons_self))
      (fun w hm => hw w (List.mem_cons_of_mem _ hm)) fun w hm => hside w (List.mem_cons_of_mem _ hm)

/-- No dispatch register range straddles the queue-global registers. -/
theorem kernelRegisters_oneSided (pm4 : KernelPm4Metadata) (workgroup : Dim3) (totalGroupBytes : ℕ)
    {userData : List (UInt32 × List UInt32)} (h : ∀ write ∈ userData, OneSided write) :
    ∀ write ∈ Gfx12Pm4CommandBuffer.kernelRegisters pm4 workgroup totalGroupBytes userData,
      OneSided write := by
  have hfixed (first : UInt32) (values : List UInt32) (n : ℕ) (hn : values.length = n)
      (hall : ∀ i < n, first + UInt32.ofNat i ∈ staticRegisters ↔
        Gfx12Pm4CommandBuffer.isStaticRegister first = true) : OneSided (first, values) := by
    intro i hi
    exact hall i (hn ▸ hi)
  intro write hw
  rcases List.mem_append.mp hw with hw | hw
  · simp only [List.mem_cons, List.not_mem_nil, or_false] at hw
    rcases hw with rfl | rfl | rfl | rfl | rfl | rfl | rfl
    · exact hfixed _ _ 2 rfl (by decide)
    · exact hfixed _ _ 2 rfl (by decide)
    · exact hfixed _ _ 1 rfl (by decide)
    · exact hfixed _ _ 1 rfl (by decide)
    · exact hfixed _ _ 3 rfl (by decide)
    · exact hfixed _ _ 1 rfl (by decide)
    · exact hfixed _ _ 4 rfl (by decide)
  · exact h write hw

theorem kernargWrites_oneSided (properties : UInt16) (kernargAddress : ℕ) :
    ∀ write ∈ Gfx12Pm4CommandBuffer.kernargWrites properties kernargAddress, OneSided write := by
  intro write hw
  unfold Gfx12Pm4CommandBuffer.kernargWrites at hw
  split at hw
  · obtain rfl := List.mem_singleton.mp hw
    intro i hi
    have hall : ∀ i < 2, 0x240 + UInt32.ofNat i ∈ staticRegisters ↔
      Gfx12Pm4CommandBuffer.isStaticRegister 0x240 = true := by decide
    exact hall i hi
  · simp at hw

theorem Gfx12Mirrors.dispatch (h : Gfx12Mirrors elided plain) (kernel : Kernel)
    (geometry : LaunchGeometry) (dynamicGroupBytes kernargAddress : ℕ) :
    (∃ e, elided.dispatch kernel geometry dynamicGroupBytes kernargAddress = .error e ∧
        plain.dispatch kernel geometry dynamicGroupBytes kernargAddress = .error e) ∨
      ∃ b c, elided.dispatch kernel geometry dynamicGroupBytes kernargAddress = .ok b ∧
        plain.dispatch kernel geometry dynamicGroupBytes kernargAddress = .ok c ∧
        Gfx12Mirrors b c := by
  unfold Gfx12Pm4CommandBuffer.dispatch
  split
  · exact .inl ⟨_, rfl, rfl⟩
  cases kernel.pm4Metadata with
  | none => exact .inl ⟨_, rfl, rfl⟩
  | some pm4 =>
    dsimp only
    split
    · exact .inl ⟨_, rfl, rfl⟩
    split
    · exact .inl ⟨_, rfl, rfl⟩
    split
    · exact .inl ⟨_, rfl, rfl⟩
    split
    · exact .inl ⟨_, rfl, rfl⟩
    exact .inr ⟨_, _, rfl, rfl, Gfx12Mirrors.push (h.programRegisters
      (Gfx12Pm4CommandBuffer.kernelRegisters_lengths
        (Gfx12Pm4CommandBuffer.kernargWrites_lengths pm4.kernelCodeProperties kernargAddress))
      (kernelRegisters_oneSided pm4 geometry.workgroup _
        (kernargWrites_oneSided pm4.kernelCodeProperties kernargAddress))) (by simp [Packet.Inert])⟩

/-- Clock writes inserted after the dispatches of a list of header and body pairs. -/
private def timeRaw (baseAddress : ℕ) : ℕ → List (UInt32 × List UInt32) → List (UInt32 × List UInt32)
  | _, [] => []
  | slot, p :: ps =>
    if opcode p.1 = Opcode.dispatchDirect then
      p :: (Packet.copyTimestamp (baseAddress + slot * 8)).raw :: timeRaw baseAddress (slot + 1) ps
    else p :: timeRaw baseAddress slot ps

private theorem copyTimestamp_opcode (address : ℕ) :
    opcode (Packet.copyTimestamp address).header = Opcode.copyData :=
  (Packet.header_fields (p := .copyTimestamp address) trivial).2.2

/-- Instrumentation only looks at packets that leave the registers alone. -/
private theorem inertPackets_instrumentFrom {baseAddress slot : ℕ} {ps : List Packet}
    (h : WellFormedStream ps) :
    inertPackets ((instrumentFrom baseAddress slot ps).map Prod.fst) =
      timeRaw baseAddress slot (inertPackets ps) := by
  induction ps generalizing slot with
  | nil => rfl
  | cons p ps ih =>
    have hrest : WellFormedStream ps := fun q hq => h q (List.mem_cons_of_mem _ hq)
    have hdispatch := opcode_header (h p List.mem_cons_self)
    have hcopy : opcode (Packet.copyTimestamp (baseAddress + slot * 8)).header ≠ Opcode.setShReg := by
      rw [copyTimestamp_opcode]
      decide
    rw [instrumentFrom, inertPackets_cons p ps]
    by_cases hp : p.dispatch?.isSome
    · have hop : opcode p.raw.1 = Opcode.dispatchDirect := hdispatch.mpr hp
      have hkeep : opcode p.header ≠ Opcode.setShReg := by
        rw [show opcode p.header = _ from hop]
        decide
      rw [if_pos hp, if_neg hkeep, List.map_cons, List.map_cons, inertPackets_cons, if_neg hkeep,
        inertPackets_cons, if_neg hcopy, ih hrest]
      simp only [List.singleton_append, timeRaw, hop, if_true]
    · have hop : opcode p.raw.1 ≠ Opcode.dispatchDirect := fun hop => hp (hdispatch.mp hop)
      rw [if_neg hp, List.map_cons, inertPackets_cons, ih hrest]
      split
      · rfl
      · simp only [List.singleton_append, timeRaw, hop, if_false]

private theorem instrumentFrom_registers (baseAddress slot : ℕ) (ps : List Packet)
    (file : RegisterFile) :
    programAll file ((instrumentFrom baseAddress slot ps).map Prod.fst) = programAll file ps ∧
      shown file ((instrumentFrom baseAddress slot ps).map Prod.fst) = shown file ps := by
  induction ps generalizing slot file with
  | nil => exact ⟨rfl, rfl⟩
  | cons p ps ih =>
    rw [instrumentFrom]
    split
    · have hinert : (Packet.copyTimestamp (baseAddress + slot * 8)).program (p.program file) =
          p.program file := Packet.program_inert (show (Packet.copyTimestamp _).Inert from trivial) _
      have hcopy : opcode (Packet.copyTimestamp (baseAddress + slot * 8)).header ≠
          Opcode.dispatchDirect := by
        rw [copyTimestamp_opcode]
        decide
      obtain ⟨hregisters, hshown⟩ := ih (slot + 1) (p.program file)
      refine ⟨?_, ?_⟩
      · rw [List.map_cons, List.map_cons, programAll, List.foldl_cons, List.foldl_cons, hinert]
        exact hregisters
      · rw [List.map_cons, List.map_cons, shown_cons, shown_cons, if_neg hcopy, hinert, hshown,
          shown_cons, List.nil_append]
    · obtain ⟨hregisters, hshown⟩ := ih slot (p.program file)
      refine ⟨hregisters, ?_⟩
      rw [List.map_cons, shown_cons, hshown, shown_cons]

theorem Mirrors.instrument {state : Option RegisterState} {elided plain : List Packet}
    (h : Mirrors state elided plain) (helided : WellFormedStream elided)
    (hplain : WellFormedStream plain) (baseAddress : ℕ) :
    Mirrors none ((instrument baseAddress elided).map Prod.fst)
      ((instrument baseAddress plain).map Prod.fst) := by
  refine @Mirrors.prepend none _ _ ?_ [.copyTimestamp baseAddress]
  refine ⟨fun file => ?_, fun file => ?_, ?_, by simp⟩
  · rw [(instrumentFrom_registers baseAddress 1 elided file).1, h.registers,
      (instrumentFrom_registers baseAddress 1 plain file).1]
  · rw [(instrumentFrom_registers baseAddress 1 elided file).2, h.shown,
      (instrumentFrom_registers baseAddress 1 plain file).2]
  · rw [inertPackets_instrumentFrom helided, h.others, inertPackets_instrumentFrom hplain]

/-- One operation has the same outcome on both builders and keeps them alike. -/
theorem Gfx12Mirrors.apply (h : Gfx12Mirrors elided plain) (helided : WellFormedStream elided.packets)
    (hplain : WellFormedStream plain.packets) (operation : Gfx12Operation) :
    (operation.apply elided).1 = (operation.apply plain).1 ∧
      Gfx12Mirrors (operation.apply elided).2 (operation.apply plain).2 := by
  cases operation with
  | withGpuTimestamps start stop =>
    refine ⟨rfl, ?_, rfl, fun _ registers hr => ?_⟩
    · exact (h.mirrors.prepend [.copyTimestamp start]).push (by simp [Packet.Inert])
    · cases hr
  | withPerDispatchTimestamps baseAddress =>
    refine ⟨rfl, h.mirrors.instrument helided hplain baseAddress, rfl, fun _ registers hr => ?_⟩
    cases hr
  | dispatch kernel geometry dynamicGroupBytes kernargAddress =>
    simp only [Gfx12Operation.apply, Gfx12Pm4CommandBuffer.dispatchEdit_apply]
    rcases h.dispatch kernel geometry dynamicGroupBytes kernargAddress with
      ⟨e, he, hp⟩ | ⟨b, c, he, hp, hbc⟩
    · rw [he, hp]
      exact ⟨rfl, h⟩
    · rw [he, hp]
      exact ⟨rfl, hbc⟩
  | _ => exact ⟨rfl, h.push (by simp [Packet.Inert])⟩

theorem Gfx12Mirrors.run (h : Gfx12Mirrors elided plain) (helided : WellFormedStream elided.packets)
    (hplain : WellFormedStream plain.packets) (operations : List Gfx12Operation) :
    Gfx12Mirrors (Gfx12Operation.run elided operations) (Gfx12Operation.run plain operations) ∧
      WellFormedStream (Gfx12Operation.run elided operations).packets ∧
      WellFormedStream (Gfx12Operation.run plain operations).packets := by
  induction operations generalizing elided plain with
  | nil => exact ⟨h, helided, hplain⟩
  | cons operation operations ih =>
    exact ih (h.apply helided hplain operation).2 (operation.apply_wellFormed helided)
      (operation.apply_wellFormed hplain)

end Gfx12

/-- Two streams that run alike from any registers: the same values at every
dispatch, and the same packets but for register writes. -/
structure Indistinguishable (left right : List UInt32) : Prop where
  executed : ∀ file, ∃ files, execute file left = .ok files ∧ execute file right = .ok files
  others : ∃ ps, otherPackets left = .ok ps ∧ otherPackets right = .ok ps

theorem Mirrors.indistinguishable {state : Option RegisterState} {elided plain : List Packet}
    (h : Mirrors state elided plain) (helided : WellFormedStream elided)
    (hplain : WellFormedStream plain) :
    Indistinguishable (encodeStream elided) (encodeStream plain) := by
  refine ⟨fun file => ⟨Pm4.shown file plain, ?_, execute_encodeStream hplain file⟩,
    inertPackets plain, ?_, otherPackets_encodeStream hplain⟩
  · rw [execute_encodeStream helided, h.shown]
  · rw [otherPackets_encodeStream helided, h.others]

theorem Gfx10Operation.run_wellFormed {b : Gfx10Pm4CommandBuffer} (hb : WellFormedStream b.packets)
    {operations : List Gfx10Operation}
    (h : ∀ operation ∈ operations, ∀ commands, operation = .appendStream commands →
      Gfx10Built commands) : WellFormedStream (run b operations).packets := by
  induction operations generalizing b with
  | nil => exact hb
  | cons operation operations ih =>
    refine ih (operation.apply_wellFormed hb fun commands hc => ?_) fun later hlater =>
      h later (List.mem_cons_of_mem _ hlater)
    exact (h operation List.mem_cons_self commands hc).wellFormed

/-- Eliding register writes is invisible on both builders, for every sequence of
operations, and a failed operation changes nothing. -/
theorem elision_invisible :
    (∀ operations : List Gfx10Operation, (∀ operation ∈ operations, ∀ commands,
        operation = .appendStream commands → Gfx10Built commands) →
      Indistinguishable (Gfx10Operation.run .newStateful operations).dwords
        (Gfx10Operation.run .new operations).dwords) ∧
    (∀ operations : List Gfx12Operation,
      Indistinguishable (Gfx12Operation.run .newStateful operations).dwords
          (Gfx12Operation.run .new operations).dwords ∧
        Indistinguishable (Gfx12Operation.run .newStaticStateful operations).dwords
          (Gfx12Operation.run .new operations).dwords) ∧
    (∀ (b : Gfx10Pm4CommandBuffer) (operation : Gfx10Operation) e,
      (operation.apply b).1 = .error e → (operation.apply b).2.dwords = b.dwords ∧
        (operation.apply b).2.registerState = b.registerState) ∧
    ∀ (b : Gfx12Pm4CommandBuffer) (operation : Gfx12Operation) e,
      (operation.apply b).1 = .error e → (operation.apply b).2.dwords = b.dwords ∧
        (operation.apply b).2.registerState = b.registerState := by
  refine ⟨fun operations happended => ?_, fun operations => ?_, fun b operation e he => ?_,
    fun b operation e he => ?_⟩
  · have hstart : Gfx10Mirrors .newStateful .new := ⟨.empty [], rfl, rfl, rfl⟩
    refine (hstart.run operations).mirrors.indistinguishable ?_ ?_
    · exact Gfx10Operation.run_wellFormed Gfx10Built.newStateful.wellFormed happended
    · exact Gfx10Operation.run_wellFormed Gfx10Built.new.wellFormed happended
  · have hplain := Gfx12Built.new.wellFormed
    have hstateful : Gfx12Mirrors .newStateful .new :=
      ⟨.empty [], rfl, by simp [Gfx12Pm4CommandBuffer.newStateful]⟩
    have hstatic : Gfx12Mirrors .newStaticStateful .new :=
      ⟨.empty [], rfl, by simp [Gfx12Pm4CommandBuffer.newStaticStateful]⟩
    obtain ⟨hm, he, hp⟩ := hstateful.run Gfx12Built.newStateful.wellFormed hplain operations
    obtain ⟨hm', he', -⟩ := hstatic.run Gfx12Built.newStaticStateful.wellFormed hplain operations
    exact ⟨hm.mirrors.indistinguishable he hp, hm'.mirrors.indistinguishable he' hp⟩
  · rw [operation.apply_error he]
    exact ⟨rfl, rfl⟩
  · rw [operation.apply_error he]
    exact ⟨rfl, rfl⟩

section Example

def smallImage : Gfx10KernelImage := ⟨4096, 1, 2, 3, 0, 0, false, true, 0x408⟩

/-- Two launches of one kernel, a third one after a foreign stream, and one the
builder refuses. -/
def repeatedLaunches : List Gfx10Operation :=
  [.dispatchImage smallImage ⟨⟨64, 1, 1⟩, ⟨64, 1, 1⟩, 3⟩ 0 [7, 8],
    .dispatchImage smallImage ⟨⟨128, 1, 1⟩, ⟨64, 1, 1⟩, 3⟩ 0 [7, 9],
    .appendStream (Gfx10Pm4CommandBuffer.new.withDispatchInterleave (some .threads64)),
    .dispatchImage smallImage ⟨⟨64, 1, 1⟩, ⟨64, 1, 1⟩, 3⟩ 0 [7, 9],
    .dispatchImage smallImage ⟨⟨64, 1, 1⟩, ⟨48, 1, 1⟩, 3⟩ 0 [7, 9]]

theorem repeatedLaunches_elided :
    Indistinguishable (Gfx10Operation.run .newStateful repeatedLaunches).dwords
        (Gfx10Operation.run .new repeatedLaunches).dwords ∧
      (Gfx10Operation.run .newStateful repeatedLaunches).dwords.length <
        (Gfx10Operation.run .new repeatedLaunches).dwords.length ∧
      (Gfx10Operation.apply .newStateful (.dispatchImage smallImage ⟨⟨64, 1, 1⟩, ⟨48, 1, 1⟩, 3⟩ 0
        [7, 9])).2.dwords = [] := by
  refine ⟨elision_invisible.1 repeatedLaunches fun operation ho commands hc => ?_, by decide,
    (elision_invisible.2.2.1 .newStateful _ (.partialWorkgroupUnsupported 0) rfl).1⟩
  subst hc
  obtain rfl : commands = Gfx10Pm4CommandBuffer.new.withDispatchInterleave (some .threads64) := by
    simpa [repeatedLaunches] using ho
  exact .apply (.withDispatchInterleave (some .threads64)) .new (by simp)

end Example
end Hipscope.Pm4
