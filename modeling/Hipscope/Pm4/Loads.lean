import Hipscope.Pm4.Elision

/-! What a dispatch finds in the shader registers: the entry of its own kernel and the address of its
own kernargs, whatever writes a stateful builder left out. -/
namespace Hipscope.Pm4
open Redline

/-- The user register behind those of the private-segment buffer. -/
def kernargRegister (properties : UInt16) : UInt32 :=
  if properties &&& enableSgprPrivateSegmentBuffer ≠ 0 then 0x244 else 0x240

/-- The registers hold the entry of the kernel, its work-group size, and the kernarg address where the
kernel takes one. -/
def Loads (kernel : Kernel) (workgroup : Dim3) (kernargAddress : ℕ) (file : RegisterFile) : Prop :=
  ∃ pm4, kernel.pm4Metadata = some pm4 ∧
    file 0x20c = UInt32.ofNat (pm4.codeEntry >>> 8) ∧ file 0x20d = UInt32.ofNat (pm4.codeEntry >>> 40) ∧
    file 0x207 = UInt32.ofNat workgroup.x ∧ file 0x208 = UInt32.ofNat workgroup.y ∧
    file 0x209 = UInt32.ofNat workgroup.z ∧
    (pm4.kernelCodeProperties &&& enableSgprKernargSegmentPtr ≠ 0 →
      file (kernargRegister pm4.kernelCodeProperties) = lowDword kernargAddress ∧
        file (kernargRegister pm4.kernelCodeProperties + 1) = highDword kernargAddress)

/-- A stream without dispatches shows nothing. -/
theorem shown_anonymous {ps : List Packet} (hps : WellFormedStream ps) (h : dispatches ps = [])
    (file : RegisterFile) : shown file ps = [] := by
  induction ps generalizing file with
  | nil => rfl
  | cons p ps ih =>
    rw [dispatches, List.filterMap_eq_nil_iff] at h
    have hop : opcode p.header ≠ Opcode.dispatchDirect := by
      rw [Ne, opcode_header (hps p List.mem_cons_self), h p List.mem_cons_self]
      simp
    rw [shown_cons, if_neg hop, List.nil_append]
    exact ih (fun q hq => hps q (List.mem_cons_of_mem _ hq))
      (List.filterMap_eq_nil_iff.mpr fun q hq => h q (List.mem_cons_of_mem _ hq)) _

/-- A dispatch sees the registers as they are before it. -/
theorem shown_dispatch (ps : List Packet) (x y z initiator : UInt32) (file : RegisterFile) :
    shown file (ps ++ [.dispatchDirect x y z initiator]) = shown file ps ++ [programAll file ps] := by
  have hop : opcode (Packet.dispatchDirect x y z initiator).header = Opcode.dispatchDirect :=
    (Packet.header_fields (p := .dispatchDirect x y z initiator) trivial).2.2
  rw [shown_append, shown_cons, if_pos hop]
  rfl

theorem shown_prepares {before after : List Packet} (h : Prepares before after) (file : RegisterFile) :
    shown file after = shown file before := by
  obtain ⟨writes, rfl, hwrites⟩ := h
  rw [shown_append, shown_registerWrites hwrites, List.append_nil]

section Gfx10

/-- Every builder has a plain one beside it. -/
theorem Gfx10Built.mirrors {b : Gfx10Pm4CommandBuffer} (h : Gfx10Built b) :
    ∃ plain, Gfx10Mirrors b plain := by
  induction h with
  | new => exact ⟨.new, .refl [], rfl, rfl, rfl⟩
  | newStateful => exact ⟨.new, .empty [], rfl, rfl, rfl⟩
  | apply operation _ _ ih _ =>
    obtain ⟨plain, hplain⟩ := ih
    exact ⟨_, (hplain.apply operation).2⟩

variable {b b' plain : Gfx10Pm4CommandBuffer} {writes : List (UInt32 × List UInt32)}

private theorem gfx10_plain (h : plain.registerState = none)
    (hw : ∀ write ∈ writes, 0 < write.2.length ∧ write.2.length ≤ 16) (file : RegisterFile) :
    programAll file (plain.programRegisters writes).packets =
      writeRuns (programAll file plain.packets) writes := by
  induction writes generalizing plain with
  | nil => rfl
  | cons write writes ih =>
    have hone : (plain.setShRegs write.1 write.2).packets =
        plain.packets ++ [.setShReg write.1 write.2] := by
      simp [Gfx10Pm4CommandBuffer.setShRegs, h, setRegisters]
    have hstate : (plain.setShRegs write.1 write.2).registerState = none := by
      simp [Gfx10Pm4CommandBuffer.setShRegs, h, setRegisters]
    refine (ih hstate fun w hm => hw w (List.mem_cons_of_mem _ hm)).trans ?_
    rw [hone, programAll_append]
    exact congrArg (writeRuns · writes) (Packet.program_setShReg (hw write List.mem_cons_self).2 _)

/-- Whatever is left out, the registers after a list of writes are those written. -/
theorem Gfx10Built.programRegisters (h : Gfx10Built b)
    (hw : ∀ write ∈ writes, 0 < write.2.length ∧ write.2.length ≤ 16) (file : RegisterFile) :
    programAll file (b.programRegisters writes).packets = writeRuns (programAll file b.packets) writes := by
  obtain ⟨plain, hplain⟩ := h.mirrors
  rw [(hplain.programRegisters hw).mirrors.registers, gfx10_plain hplain.uncached hw,
    hplain.mirrors.registers]

/-- The user registers are those of the buffer, then the kernarg pointer. -/
theorem hsaUserSgprs_ok {properties : UInt16} {kernargAddress : ℕ} {userSgprs : List UInt32}
    (h : hsaUserSgprs properties kernargAddress = .ok userSgprs) :
    userSgprs = (if properties &&& enableSgprPrivateSegmentBuffer ≠ 0 then [0, 0, 0, 0] else []) ++
      (if properties &&& enableSgprKernargSegmentPtr ≠ 0 then
        [lowDword kernargAddress, highDword kernargAddress] else []) := by
  dsimp only [hsaUserSgprs] at h
  by_cases hbad : properties &&& ~~~gfx10SupportedKernelProperties = 0
  · rw [if_neg (not_not.mpr hbad)] at h
    by_cases hkernarg : properties &&& enableSgprKernargSegmentPtr = 0
    · rw [if_neg (not_not.mpr hkernarg)] at h
      rw [if_neg (not_not.mpr hkernarg), List.append_nil]
      exact (Except.ok.inj h).symm
    · rw [if_pos hkernarg] at h
      split at h
      · cases h
      · rw [if_pos hkernarg]
        exact (Except.ok.inj h).symm
  · rw [if_pos hbad] at h
    cases h

/-- The user registers are the last ones written, and nothing else is written over the others. -/
theorem loads_image {kernel : Kernel} {image : Gfx10KernelImage} {userSgprs : List UInt32}
    {kernargAddress : ℕ} (himage : Gfx10KernelImage.fromHsa kernel = .ok image)
    (hsgprs : hsaUserSgprs image.kernelCodeProperties kernargAddress = .ok userSgprs)
    (limits : Gfx11ComputeResourceLimitsPolicy) (workgroup : Dim3) (totalGroupBytes : ℕ)
    (file : RegisterFile) :
    Loads kernel workgroup kernargAddress (writeRuns file (Gfx10Pm4CommandBuffer.imageRegisters limits image
      workgroup totalGroupBytes (if userSgprs = [] then [] else [(0x240, userSgprs)]))) := by
  unfold Gfx10KernelImage.fromHsa at himage
  split at himage
  · cases himage
  rename_i pm4 hpm4
  dsimp only at himage
  split at himage
  · cases himage
  cases himage
  rw [hsaUserSgprs_ok hsgprs]
  refine ⟨pm4, hpm4, ?_⟩
  unfold kernargRegister
  split_ifs <;> simp_all [writeRuns, Gfx10Pm4CommandBuffer.imageRegisters, writeRegisters, Dim3.axes,
    Function.update]

/-- A dispatch shows the registers of its own kernel, work-group size and kernargs. -/
theorem Gfx10Built.dispatch_loads {kernel : Kernel} {geometry : LaunchGeometry}
    {dynamicGroupBytes kernargAddress : ℕ} (h : Gfx10Built b)
    (hd : b.dispatch kernel geometry dynamicGroupBytes kernargAddress = .ok b') (file : RegisterFile) :
    ∃ seen, shown file b'.packets = shown file b.packets ++ [seen] ∧
      Loads kernel geometry.workgroup kernargAddress seen := by
  obtain ⟨image, userSgprs, himage, hsgprs, hd⟩ := Gfx10Pm4CommandBuffer.dispatch_ok hd
  obtain ⟨counts, initiator, -, hlen, hpackets⟩ := Gfx10Pm4CommandBuffer.dispatchImage_ok hd
  have hlengths := @Gfx10Pm4CommandBuffer.imageRegisters_lengths b.resourceLimitsPolicy image
    geometry.workgroup (image.groupSegmentSize + dynamicGroupBytes) _
    (Gfx10Pm4CommandBuffer.userData_lengths hlen)
  refine ⟨_, ?_, loads_image himage hsgprs b.resourceLimitsPolicy geometry.workgroup
    (image.groupSegmentSize + dynamicGroupBytes) (programAll file b.packets)⟩
  rw [hpackets, shown_dispatch, shown_prepares (b.programRegisters_prepares hlengths),
    h.programRegisters hlengths]

end Gfx10
section Gfx12

/-- Every builder has a plain one beside it. -/
theorem Gfx12Built.mirrors {b : Gfx12Pm4CommandBuffer} (h : Gfx12Built b) :
    ∃ plain, Gfx12Mirrors b plain ∧ WellFormedStream plain.packets := by
  have hplain := Gfx12Built.new.wellFormed
  induction h with
  | new => exact ⟨.new, ⟨.refl [], rfl, by simp [Gfx12Pm4CommandBuffer.new]⟩, hplain⟩
  | newStateful => exact ⟨.new, ⟨.empty [], rfl, by simp [Gfx12Pm4CommandBuffer.newStateful]⟩, hplain⟩
  | newStaticStateful =>
    exact ⟨.new, ⟨.empty [], rfl, by simp [Gfx12Pm4CommandBuffer.newStaticStateful]⟩, hplain⟩
  | apply operation hb ih =>
    obtain ⟨plain, hmirrors, hformed⟩ := ih
    exact ⟨_, (hmirrors.apply hb.wellFormed hformed operation).2, operation.apply_wellFormed hformed⟩

variable {b b' plain : Gfx12Pm4CommandBuffer} {writes : List (UInt32 × List UInt32)}

private theorem gfx12_plain (h : plain.registerState = none)
    (hw : ∀ write ∈ writes, 0 < write.2.length ∧ write.2.length ≤ 16) (file : RegisterFile) :
    programAll file (plain.programRegisters writes).packets =
      writeRuns (programAll file plain.packets) writes := by
  induction writes generalizing plain with
  | nil => rfl
  | cons write writes ih =>
    obtain ⟨hone, hstate⟩ := setShRegs_plain h write
    refine (ih hstate fun w hm => hw w (List.mem_cons_of_mem _ hm)).trans ?_
    rw [hone, programAll_append]
    exact congrArg (writeRuns · writes) (Packet.program_setShReg (hw write List.mem_cons_self).2 _)

/-- Whatever is left out, the registers after a list of writes are those written. -/
theorem Gfx12Built.programRegisters (h : Gfx12Built b)
    (hw : ∀ write ∈ writes, 0 < write.2.length ∧ write.2.length ≤ 16)
    (hside : ∀ write ∈ writes, OneSided write) (file : RegisterFile) :
    programAll file (b.programRegisters writes).packets = writeRuns (programAll file b.packets) writes := by
  obtain ⟨plain, hplain, -⟩ := h.mirrors
  rw [(hplain.programRegisters hw hside).mirrors.registers, gfx12_plain hplain.uncached hw,
    hplain.mirrors.registers]

/-- This generation has no private-segment buffer, so the kernarg pointer is first. -/
theorem loads_kernel {kernel : Kernel} {pm4 : KernelPm4Metadata} (hpm4 : kernel.pm4Metadata = some pm4)
    (hproperties : pm4.kernelCodeProperties &&& ~~~gfx12SupportedKernelProperties = 0)
    (workgroup : Dim3) (totalGroupBytes kernargAddress : ℕ) (file : RegisterFile) :
    Loads kernel workgroup kernargAddress (writeRuns file (Gfx12Pm4CommandBuffer.kernelRegisters pm4
      workgroup totalGroupBytes
      (Gfx12Pm4CommandBuffer.kernargWrites pm4.kernelCodeProperties kernargAddress))) := by
  have hbuffer : pm4.kernelCodeProperties &&& enableSgprPrivateSegmentBuffer = 0 := by
    have hkept : (~~~gfx12SupportedKernelProperties) &&& enableSgprPrivateSegmentBuffer =
        enableSgprPrivateSegmentBuffer := by decide
    rw [← hkept, ← UInt16.and_assoc, hproperties, UInt16.zero_and]
  refine ⟨pm4, hpm4, ?_⟩
  unfold kernargRegister Gfx12Pm4CommandBuffer.kernargWrites
  split_ifs <;> simp_all [writeRuns, Gfx12Pm4CommandBuffer.kernelRegisters, writeRegisters, Dim3.axes,
    Function.update]

/-- A dispatch shows the registers of its own kernel, work-group size and kernargs. -/
theorem Gfx12Built.dispatch_loads {kernel : Kernel} {geometry : LaunchGeometry}
    {dynamicGroupBytes kernargAddress : ℕ} (h : Gfx12Built b)
    (hd : b.dispatch kernel geometry dynamicGroupBytes kernargAddress = .ok b') (file : RegisterFile) :
    ∃ seen, shown file b'.packets = shown file b.packets ++ [seen] ∧
      Loads kernel geometry.workgroup kernargAddress seen := by
  obtain ⟨pm4, initiator, hpm4, hproperties, hpackets⟩ := Gfx12Pm4CommandBuffer.dispatch_ok hd
  have hlengths := @Gfx12Pm4CommandBuffer.kernelRegisters_lengths pm4 geometry.workgroup
    (kernel.metadata.groupSegmentSize + dynamicGroupBytes) _
    (Gfx12Pm4CommandBuffer.kernargWrites_lengths pm4.kernelCodeProperties kernargAddress)
  have hsides := kernelRegisters_oneSided pm4 geometry.workgroup
    (kernel.metadata.groupSegmentSize + dynamicGroupBytes)
    (kernargWrites_oneSided pm4.kernelCodeProperties kernargAddress)
  refine ⟨_, ?_, loads_kernel hpm4 hproperties geometry.workgroup
    (kernel.metadata.groupSegmentSize + dynamicGroupBytes) kernargAddress (programAll file b.packets)⟩
  rw [hpackets, shown_dispatch, shown_prepares (b.programRegisters_prepares hlengths),
    h.programRegisters hlengths hsides]

end Gfx12
end Hipscope.Pm4
