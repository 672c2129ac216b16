import Hipscope.Pm4.Registers

/-! The GFX12 command builder. Its dispatches count work-items, not work-groups. -/
namespace Hipscope.Pm4
open Redline

inductive Pm4BuildError where
  | missingKernelDescriptor
  | scratchUnsupported (privateBytes : ℕ) (dynamicCallstack : Bool)
  | unsupportedKernelProperties (bits : UInt16)
  | nullKernarg
  | groupSegmentOverflow
  | groupSegmentTooLarge (bytes : ℕ)
  | malformedStream (dword : ℕ)
  deriving DecidableEq

def gfx12SupportedKernelProperties : UInt16 := enableSgprKernargSegmentPtr ||| enableWavefrontSize32

def dispatchInitiator (wave32 : Bool) : UInt32 := 0x25 ||| (if wave32 then 0x8000 else 0)

structure Gfx12Pm4CommandBuffer where
  packets : List Packet
  registerState : Option RegisterState
  cacheDynamicRegisters : Bool

namespace Gfx12Pm4CommandBuffer

def new : Gfx12Pm4CommandBuffer := ⟨[], none, false⟩

def newStateful : Gfx12Pm4CommandBuffer := ⟨[], some fun _ => none, true⟩

def newStaticStateful : Gfx12Pm4CommandBuffer := ⟨[], some fun _ => none, false⟩

def dwords (b : Gfx12Pm4CommandBuffer) : List UInt32 := encodeStream b.packets

def push (b : Gfx12Pm4CommandBuffer) (packets : List Packet) : Gfx12Pm4CommandBuffer :=
  { b with packets := b.packets ++ packets }

/-- Queue-global registers: ring size, resource limits, thread management. -/
def isStaticRegister (first : UInt32) : Bool := first = 0x216 || first = 0x215 || first = 0x230

def setShRegs (b : Gfx12Pm4CommandBuffer) (first : UInt32) (values : List UInt32) :
    Gfx12Pm4CommandBuffer :=
  if !b.cacheDynamicRegisters && !isStaticRegister first then b.push [.setShReg first values]
  else
    let written := setRegisters b.registerState first values
    { b with packets := b.packets ++ written.2, registerState := written.1 }

/-- Several register writes in order. -/
def programRegisters (b : Gfx12Pm4CommandBuffer) (writes : List (UInt32 × List UInt32)) :
    Gfx12Pm4CommandBuffer :=
  writes.foldl (fun b write => b.setShRegs write.1 write.2) b

def acquireSystem (b : Gfx12Pm4CommandBuffer) : Gfx12Pm4CommandBuffer :=
  b.push [.acquireMem 0xff 4 0x1c3f1]

def acquireSystemGfx12 (b : Gfx12Pm4CommandBuffer) : Gfx12Pm4CommandBuffer :=
  b.push [.acquireMem 0xff 4 0x1c1d1]

def acquireInterNodeGfx12 (b : Gfx12Pm4CommandBuffer) : Gfx12Pm4CommandBuffer :=
  b.push [.acquireMem 0xff 4 0x10180]

def waitComputeIdle (b : Gfx12Pm4CommandBuffer) : Gfx12Pm4CommandBuffer := b.push [.csPartialFlush]

def withGpuTimestamps (b : Gfx12Pm4CommandBuffer) (start stop : ℕ) : Gfx12Pm4CommandBuffer :=
  new.push ([.copyTimestamp start] ++ b.packets ++ [.releaseTimestamp stop])

/-- Everything a dispatch programs before its user data. -/
def kernelRegisters (pm4 : KernelPm4Metadata) (workgroup : Dim3) (totalGroupBytes : ℕ)
    (userData : List (UInt32 × List UInt32)) : List (UInt32 × List UInt32) :=
  [ ((0x20c : UInt32), [UInt32.ofNat (pm4.codeEntry >>> 8), UInt32.ofNat (pm4.codeEntry >>> 40)]),
    (0x212, [pm4.computePgmRsrc1, rsrc2WithLds pm4.computePgmRsrc2 (ldsBlocks totalGroupBytes)]),
    (0x223, [pm4.computePgmRsrc3]),
    (0x216, [0]),
    (0x207, workgroup.axes.map UInt32.ofNat),
    (0x215, [0x3ff]),
    (0x230, [0xffffffff, 0xffffffff, 0xffffffff, 0xffffffff]) ] ++ userData

def dispatch (b : Gfx12Pm4CommandBuffer) (kernel : Kernel) (geometry : LaunchGeometry)
    (dynamicGroupBytes kernargAddress : ℕ) : Except Pm4BuildError Gfx12Pm4CommandBuffer :=
  if kernel.metadata.privateSegmentSize ≠ 0 ∨ kernel.metadata.dynamicCallstack then
    .error (.scratchUnsupported kernel.metadata.privateSegmentSize kernel.metadata.dynamicCallstack)
  else match kernel.pm4Metadata with
    | none => .error .missingKernelDescriptor
    | some pm4 =>
      let unsupported := pm4.kernelCodeProperties &&& ~~~gfx12SupportedKernelProperties
      let wave32 := pm4.kernelCodeProperties &&& enableWavefrontSize32 ≠ 0
      let needsKernarg := pm4.kernelCodeProperties &&& enableSgprKernargSegmentPtr ≠ 0
      if unsupported ≠ 0 then .error (.unsupportedKernelProperties unsupported)
      else if needsKernarg ∧ kernargAddress = 0 then .error .nullKernarg
      else if kernel.metadata.groupSegmentSize + dynamicGroupBytes ≥ 2 ^ 32 then
        .error .groupSegmentOverflow
      else
        let totalGroupBytes := kernel.metadata.groupSegmentSize + dynamicGroupBytes
        if ldsBlocks totalGroupBytes > ldsBlockLimit then .error (.groupSegmentTooLarge totalGroupBytes)
        else
          let b := b.programRegisters (kernelRegisters pm4 geometry.workgroup totalGroupBytes
            (if needsKernarg then [(0x240, [lowDword kernargAddress, highDword kernargAddress])]
              else []))
          .ok (b.push [.dispatchDirect (UInt32.ofNat geometry.gridWorkitems.x)
            (UInt32.ofNat geometry.gridWorkitems.y) (UInt32.ofNat geometry.gridWorkitems.z)
            (dispatchInitiator wave32)])

theorem setShRegs_prepares (b : Gfx12Pm4CommandBuffer) (write : UInt32 × List UInt32)
    (h : 0 < write.2.length ∧ write.2.length ≤ 16) :
    Prepares b.packets (b.setShRegs write.1 write.2).packets := by
  unfold setShRegs
  split
  · refine ⟨_, rfl, fun p hp => ?_⟩
    obtain rfl := List.mem_singleton.mp hp
    exact ⟨write.1, write.2, rfl, h.1, h.2⟩
  · exact ⟨_, rfl, setRegisters_writes h.1 h.2⟩

theorem programRegisters_prepares (b : Gfx12Pm4CommandBuffer)
    {writes : List (UInt32 × List UInt32)}
    (h : ∀ write ∈ writes, 0 < write.2.length ∧ write.2.length ≤ 16) :
    Prepares b.packets (b.programRegisters writes).packets := by
  induction writes generalizing b with
  | nil => exact .refl _
  | cons write writes ih =>
    exact (b.setShRegs_prepares write (h write List.mem_cons_self)).trans
      (ih _ fun w hw => h w (List.mem_cons_of_mem _ hw))

theorem kernelRegisters_lengths {pm4 : KernelPm4Metadata} {workgroup : Dim3}
    {totalGroupBytes : ℕ} {userData : List (UInt32 × List UInt32)}
    (h : ∀ write ∈ userData, 0 < write.2.length ∧ write.2.length ≤ 16) :
    ∀ write ∈ kernelRegisters pm4 workgroup totalGroupBytes userData,
      0 < write.2.length ∧ write.2.length ≤ 16 := by
  intro write hw
  rcases List.mem_append.mp hw with hw | hw
  · simp only [List.mem_cons, List.not_mem_nil, or_false] at hw
    rcases hw with rfl | rfl | rfl | rfl | rfl | rfl | rfl <;> simp [Dim3.axes]
  · exact h write hw

/-- The kernarg pointer, where the kernel takes one. -/
def kernargWrites (properties : UInt16) (kernargAddress : ℕ) : List (UInt32 × List UInt32) :=
  if properties &&& enableSgprKernargSegmentPtr ≠ 0 then
    [(0x240, [lowDword kernargAddress, highDword kernargAddress])]
  else []

theorem kernargWrites_lengths (properties : UInt16) (kernargAddress : ℕ) :
    ∀ write ∈ kernargWrites properties kernargAddress, 0 < write.2.length ∧ write.2.length ≤ 16 := by
  intro write hw
  unfold kernargWrites at hw
  split at hw
  · obtain rfl := List.mem_singleton.mp hw
    exact ⟨by simp, by simp⟩
  · simp at hw

/-- What a dispatch appends: the registers of the kernel and one packet with the work-item counts. -/
theorem dispatch_ok {b b' : Gfx12Pm4CommandBuffer} {kernel : Kernel} {geometry : LaunchGeometry}
    {dynamicGroupBytes kernargAddress : ℕ}
    (h : b.dispatch kernel geometry dynamicGroupBytes kernargAddress = .ok b') :
    ∃ pm4 initiator, kernel.pm4Metadata = some pm4 ∧
      pm4.kernelCodeProperties &&& ~~~gfx12SupportedKernelProperties = 0 ∧
      b'.packets = (b.programRegisters (kernelRegisters pm4 geometry.workgroup
        (kernel.metadata.groupSegmentSize + dynamicGroupBytes)
        (kernargWrites pm4.kernelCodeProperties kernargAddress))).packets ++
        [.dispatchDirect (UInt32.ofNat geometry.gridWorkitems.x)
          (UInt32.ofNat geometry.gridWorkitems.y) (UInt32.ofNat geometry.gridWorkitems.z) initiator] := by
  unfold dispatch at h
  split at h
  · cases h
  split at h
  · cases h
  rename_i pm4 hpm4
  dsimp only at h
  split at h
  · cases h
  rename_i hproperties
  split at h
  · cases h
  split at h
  · cases h
  split at h
  · cases h
  cases h
  exact ⟨pm4, _, hpm4, not_not.mp hproperties, rfl⟩

/-- A dispatch appends register writes and one packet with the work-item counts. -/
theorem dispatch_prepares {b b' : Gfx12Pm4CommandBuffer} {kernel : Kernel} {geometry : LaunchGeometry}
    {dynamicGroupBytes kernargAddress : ℕ}
    (h : b.dispatch kernel geometry dynamicGroupBytes kernargAddress = .ok b') :
    ∃ prepared initiator, Prepares b.packets prepared ∧
      b'.packets = prepared ++ [.dispatchDirect (UInt32.ofNat geometry.gridWorkitems.x)
        (UInt32.ofNat geometry.gridWorkitems.y) (UInt32.ofNat geometry.gridWorkitems.z) initiator] := by
  obtain ⟨pm4, initiator, -, -, hpackets⟩ := dispatch_ok h
  exact ⟨_, initiator, programRegisters_prepares b (kernelRegisters_lengths
    (kernargWrites_lengths pm4.kernelCodeProperties kernargAddress)), hpackets⟩

end Gfx12Pm4CommandBuffer
end Hipscope.Pm4
