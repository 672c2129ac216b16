import Hipscope.Pm4.Registers

/-! The GFX10/GFX11 command builder. -/
namespace Hipscope.Pm4
open Redline

inductive Gfx10DispatchInitiatorPolicy where
  | legacy
  | orderMode
  | radv
  deriving DecidableEq, Repr

def Gfx10DispatchInitiatorPolicy.bits (policy : Gfx10DispatchInitiatorPolicy) (wave32 : Bool) :
    UInt32 :=
  let order : UInt32 := match policy with
    | legacy => 0x8
    | orderMode => 0x40
    | radv => 0x2040
  (1 : UInt32) ||| 4 ||| order ||| (if wave32 then 0x8000 else 0)

inductive Gfx11DispatchInterleave where
  | disabled
  | threads64
  | threads128
  | threads256
  | threads512
  deriving DecidableEq, Repr

def Gfx11DispatchInterleave.threads : Gfx11DispatchInterleave → UInt32
  | disabled => 0
  | threads64 => 64
  | threads128 => 128
  | threads256 => 256
  | threads512 => 512

inductive Gfx11ComputeResourceLimitsPolicy where
  | legacy
  | simdDestAlways
  | radv (forceSimdDistForSingleWave : Bool)
  deriving DecidableEq, Repr

def Gfx11ComputeResourceLimitsPolicy.bits (policy : Gfx11ComputeResourceLimitsPolicy)
    (workgroup : Dim3) (wave32 : Bool) : UInt32 :=
  match policy with
  | legacy => 0
  | simdDestAlways => 0x400000
  | radv force =>
    let waveSize := if wave32 then 32 else 64
    let waves := (workgroup.axes.prod + (waveSize - 1)) / waveSize
    let simdDest : UInt32 := if waves % 4 = 0 then 0x400000 else 0
    let forceSimd : UInt32 := if force ∧ waves = 1 then 0x800000 else 0
    simdDest ||| forceSimd

structure Gfx10KernelImage where
  codeEntry : ℕ
  computePgmRsrc1 : UInt32
  computePgmRsrc2 : UInt32
  computePgmRsrc3 : UInt32
  groupSegmentSize : ℕ
  privateSegmentSize : ℕ
  dynamicCallstack : Bool
  wave32 : Bool
  kernelCodeProperties : UInt16

inductive Gfx10Pm4BuildError where
  | missingKernelDescriptor
  | invalidCodeEntry (address : ℕ)
  | scratchUnsupported (privateBytes : ℕ) (dynamicCallstack : Bool)
  | unsupportedKernelProperties (bits : UInt16)
  | nullKernarg
  | tooManyUserSgprs (count : ℕ)
  | partialWorkgroupUnsupported (axis : ℕ)
  | groupSegmentOverflow
  | groupSegmentTooLarge (bytes : ℕ)
  deriving DecidableEq

def gfx10SupportedKernelProperties : UInt16 :=
  enableSgprPrivateSegmentBuffer ||| enableSgprKernargSegmentPtr ||| enableWavefrontSize32

def Gfx10KernelImage.fromHsa (kernel : Kernel) : Except Gfx10Pm4BuildError Gfx10KernelImage :=
  match kernel.pm4Metadata with
  | none => .error .missingKernelDescriptor
  | some pm4 =>
    let unsupported := pm4.kernelCodeProperties &&& ~~~gfx10SupportedKernelProperties
    if unsupported ≠ 0 then .error (.unsupportedKernelProperties unsupported)
    else .ok
      { codeEntry := pm4.codeEntry
        computePgmRsrc1 := pm4.computePgmRsrc1
        computePgmRsrc2 := pm4.computePgmRsrc2
        computePgmRsrc3 := pm4.computePgmRsrc3
        groupSegmentSize := kernel.metadata.groupSegmentSize
        privateSegmentSize := kernel.metadata.privateSegmentSize
        dynamicCallstack := kernel.metadata.dynamicCallstack
        wave32 := pm4.kernelCodeProperties &&& enableWavefrontSize32 ≠ 0
        kernelCodeProperties := pm4.kernelCodeProperties }

/-- Implicit user registers: the private-segment buffer, then the kernarg pointer. -/
def hsaUserSgprs (properties : UInt16) (kernargAddress : ℕ) :
    Except Gfx10Pm4BuildError (List UInt32) :=
  let unsupported := properties &&& ~~~gfx10SupportedKernelProperties
  if unsupported ≠ 0 then .error (.unsupportedKernelProperties unsupported)
  else
    let buffer : List UInt32 :=
      if properties &&& enableSgprPrivateSegmentBuffer ≠ 0 then [0, 0, 0, 0] else []
    if properties &&& enableSgprKernargSegmentPtr ≠ 0 then
      if kernargAddress = 0 then .error .nullKernarg
      else .ok (buffer ++ [lowDword kernargAddress, highDword kernargAddress])
    else .ok buffer

structure Gfx10Pm4CommandBuffer where
  packets : List Packet
  registerState : Option RegisterState
  dispatchInitiatorPolicy : Gfx10DispatchInitiatorPolicy
  resourceLimitsPolicy : Gfx11ComputeResourceLimitsPolicy

namespace Gfx10Pm4CommandBuffer

def new : Gfx10Pm4CommandBuffer := ⟨[], none, .legacy, .legacy⟩

def newStateful : Gfx10Pm4CommandBuffer := ⟨[], some fun _ => none, .legacy, .legacy⟩

def dwords (b : Gfx10Pm4CommandBuffer) : List UInt32 := encodeStream b.packets

def push (b : Gfx10Pm4CommandBuffer) (packets : List Packet) : Gfx10Pm4CommandBuffer :=
  { b with packets := b.packets ++ packets }

def setShRegs (b : Gfx10Pm4CommandBuffer) (first : UInt32) (values : List UInt32) :
    Gfx10Pm4CommandBuffer :=
  let written := setRegisters b.registerState first values
  { b with packets := b.packets ++ written.2, registerState := written.1 }

/-- Several register writes in order. -/
def programRegisters (b : Gfx10Pm4CommandBuffer) (writes : List (UInt32 × List UInt32)) :
    Gfx10Pm4CommandBuffer :=
  writes.foldl (fun b write => b.setShRegs write.1 write.2) b

def withDispatchInitiatorPolicy (b : Gfx10Pm4CommandBuffer) (policy : Gfx10DispatchInitiatorPolicy) :
    Gfx10Pm4CommandBuffer :=
  { b with dispatchInitiatorPolicy := policy }

def withResourceLimitsPolicy (b : Gfx10Pm4CommandBuffer)
    (policy : Gfx11ComputeResourceLimitsPolicy) : Gfx10Pm4CommandBuffer :=
  { b with resourceLimitsPolicy := policy }

def withDispatchInterleave (b : Gfx10Pm4CommandBuffer)
    (interleave : Option Gfx11DispatchInterleave) : Gfx10Pm4CommandBuffer :=
  match interleave with
  | none => b
  | some interleave => b.setShRegs 0x22f [interleave.threads]

def acquireSystem (b : Gfx10Pm4CommandBuffer) : Gfx10Pm4CommandBuffer :=
  b.push [.acquireMem 0xff 4 0x1c3f1]

def acquireInterNodeSameAgent (b : Gfx10Pm4CommandBuffer) : Gfx10Pm4CommandBuffer :=
  b.push [.acquireMem 0x00ffffff 10 0x00380]

def acquireInterNodeVmem (b : Gfx10Pm4CommandBuffer) : Gfx10Pm4CommandBuffer :=
  b.push [.acquireMem 0x00ffffff 10 0x00300]

def waitComputeIdle (b : Gfx10Pm4CommandBuffer) : Gfx10Pm4CommandBuffer := b.push [.csPartialFlush]

def releaseMemoryValue (b : Gfx10Pm4CommandBuffer) (address : ℕ) (value : UInt32) :
    Gfx10Pm4CommandBuffer :=
  b.push [.releaseMem address value]

def writeMemoryValueAfterIdle (b : Gfx10Pm4CommandBuffer) (address : ℕ) (value : UInt32) :
    Gfx10Pm4CommandBuffer :=
  b.push [.writeData address value]

def waitMemoryValue (b : Gfx10Pm4CommandBuffer) (address : ℕ) (value : UInt32) :
    Gfx10Pm4CommandBuffer :=
  b.push [.waitRegMem address value]

def dependencyFence (b : Gfx10Pm4CommandBuffer) (address : ℕ) (value : UInt32) :
    Gfx10Pm4CommandBuffer :=
  (b.releaseMemoryValue address value).waitMemoryValue address value

def withGpuTimestamps (b : Gfx10Pm4CommandBuffer) (start stop : ℕ) : Gfx10Pm4CommandBuffer :=
  new.push ([.copyTimestamp start] ++ b.packets ++ [.releaseTimestamp stop])

/-- The appended stream may have changed any register. -/
def appendStream (b commands : Gfx10Pm4CommandBuffer) : Gfx10Pm4CommandBuffer :=
  { b with
    packets := b.packets ++ commands.packets
    registerState := b.registerState.map fun _ _ => none }

/-- Work-group counts of an integral grid. -/
def workgroups (geometry : LaunchGeometry) : Except Gfx10Pm4BuildError Dim3 :=
  match (geometry.gridWorkitems.axes.zip geometry.workgroup.axes).zipIdx.findSome?
      fun ((grid, workgroup), axis) =>
        if workgroup ∣ grid then none else some (Gfx10Pm4BuildError.partialWorkgroupUnsupported axis) with
  | some error => .error error
  | none => .ok ⟨geometry.gridWorkitems.x / geometry.workgroup.x,
      geometry.gridWorkitems.y / geometry.workgroup.y, geometry.gridWorkitems.z / geometry.workgroup.z⟩

/-- Everything a dispatch programs before its user data. -/
def imageRegisters (limits : Gfx11ComputeResourceLimitsPolicy) (image : Gfx10KernelImage)
    (workgroup : Dim3) (totalGroupBytes : ℕ) (userData : List (UInt32 × List UInt32)) :
    List (UInt32 × List UInt32) :=
  [ ((0x20c : UInt32), [UInt32.ofNat (image.codeEntry >>> 8), UInt32.ofNat (image.codeEntry >>> 40)]),
    (0x212, [image.computePgmRsrc1,
      rsrc2WithLds image.computePgmRsrc2 (ldsBlocks totalGroupBytes)]),
    (0x228, [image.computePgmRsrc3]),
    (0x218, [0]),
    (0x207, workgroup.axes.map UInt32.ofNat),
    (0x215, [limits.bits workgroup image.wave32]) ] ++
    userData

def dispatchImage (b : Gfx10Pm4CommandBuffer) (image : Gfx10KernelImage) (geometry : LaunchGeometry)
    (dynamicGroupBytes : ℕ) (userSgprs : List UInt32) :
    Except Gfx10Pm4BuildError Gfx10Pm4CommandBuffer :=
  if image.privateSegmentSize ≠ 0 ∨ image.dynamicCallstack then
    .error (.scratchUnsupported image.privateSegmentSize image.dynamicCallstack)
  else if image.groupSegmentSize + dynamicGroupBytes ≥ 2 ^ 32 then .error .groupSegmentOverflow
  else
    let totalGroupBytes := image.groupSegmentSize + dynamicGroupBytes
    if ldsBlocks totalGroupBytes > ldsBlockLimit then .error (.groupSegmentTooLarge totalGroupBytes)
    else if image.codeEntry = 0 ∨ image.codeEntry &&& 0xff ≠ 0 then
      .error (.invalidCodeEntry image.codeEntry)
    else if userSgprs.length > 16 then .error (.tooManyUserSgprs userSgprs.length)
    else do
      let workgroups ← workgroups geometry
      let b := b.programRegisters (imageRegisters b.resourceLimitsPolicy image geometry.workgroup
        totalGroupBytes (if userSgprs = [] then [] else [(0x240, userSgprs)]))
      return b.push [.dispatchDirect (UInt32.ofNat workgroups.x) (UInt32.ofNat workgroups.y)
        (UInt32.ofNat workgroups.z) (b.dispatchInitiatorPolicy.bits image.wave32)]

def dispatch (b : Gfx10Pm4CommandBuffer) (kernel : Kernel) (geometry : LaunchGeometry)
    (dynamicGroupBytes kernargAddress : ℕ) : Except Gfx10Pm4BuildError Gfx10Pm4CommandBuffer := do
  let image ← Gfx10KernelImage.fromHsa kernel
  let userSgprs ← hsaUserSgprs image.kernelCodeProperties kernargAddress
  b.dispatchImage image geometry dynamicGroupBytes userSgprs

/-- The stream ends with the dwords of a compute-idle event. -/
def endsWithComputeIdle (b : Gfx10Pm4CommandBuffer) : Bool :=
  Packet.csPartialFlush.encode.isSuffixOf b.dwords

theorem setShRegs_prepares (b : Gfx10Pm4CommandBuffer) (write : UInt32 × List UInt32)
    (h : 0 < write.2.length ∧ write.2.length ≤ 16) :
    Prepares b.packets (b.setShRegs write.1 write.2).packets :=
  ⟨_, rfl, setRegisters_writes h.1 h.2⟩

theorem programRegisters_prepares (b : Gfx10Pm4CommandBuffer)
    {writes : List (UInt32 × List UInt32)}
    (h : ∀ write ∈ writes, 0 < write.2.length ∧ write.2.length ≤ 16) :
    Prepares b.packets (b.programRegisters writes).packets := by
  induction writes generalizing b with
  | nil => exact .refl _
  | cons write writes ih =>
    exact (b.setShRegs_prepares write (h write List.mem_cons_self)).trans
      (ih _ fun w hw => h w (List.mem_cons_of_mem _ hw))

theorem imageRegisters_lengths {limits : Gfx11ComputeResourceLimitsPolicy}
    {image : Gfx10KernelImage} {workgroup : Dim3} {totalGroupBytes : ℕ}
    {userData : List (UInt32 × List UInt32)}
    (h : ∀ write ∈ userData, 0 < write.2.length ∧ write.2.length ≤ 16) :
    ∀ write ∈ imageRegisters limits image workgroup totalGroupBytes userData,
      0 < write.2.length ∧ write.2.length ≤ 16 := by
  intro write hw
  rcases List.mem_append.mp hw with hw | hw
  · simp only [List.mem_cons, List.not_mem_nil, or_false] at hw
    rcases hw with rfl | rfl | rfl | rfl | rfl | rfl <;> simp [Dim3.axes]
  · exact h write hw

theorem userData_lengths {userSgprs : List UInt32} (h : userSgprs.length ≤ 16) :
    ∀ write ∈ (if userSgprs = [] then [] else [((0x240 : UInt32), userSgprs)]),
      0 < write.2.length ∧ write.2.length ≤ 16 := by
  intro write hw
  split at hw
  · simp at hw
  · rename_i hne
    obtain rfl := List.mem_singleton.mp hw
    exact ⟨List.length_pos_iff.mpr hne, h⟩

/-- What a dispatch appends: the registers of the image and one packet with the work-group counts. -/
theorem dispatchImage_ok {b b' : Gfx10Pm4CommandBuffer} {image : Gfx10KernelImage}
    {geometry : LaunchGeometry} {dynamicGroupBytes : ℕ} {userSgprs : List UInt32}
    (h : b.dispatchImage image geometry dynamicGroupBytes userSgprs = .ok b') :
    ∃ counts initiator, workgroups geometry = .ok counts ∧ userSgprs.length ≤ 16 ∧
      b'.packets = (b.programRegisters (imageRegisters b.resourceLimitsPolicy image geometry.workgroup
        (image.groupSegmentSize + dynamicGroupBytes)
        (if userSgprs = [] then [] else [(0x240, userSgprs)]))).packets ++
        [.dispatchDirect (UInt32.ofNat counts.x) (UInt32.ofNat counts.y) (UInt32.ofNat counts.z)
          initiator] := by
  unfold dispatchImage at h
  split at h
  · cases h
  split at h
  · cases h
  dsimp only at h
  split at h
  · cases h
  split at h
  · cases h
  split at h
  · cases h
  rename_i hsgprs
  obtain ⟨counts, hcounts, h⟩ := bind_ok h
  cases h
  exact ⟨counts, _, hcounts, by simpa using hsgprs, rfl⟩

/-- A dispatch appends register writes and one packet with the work-group counts. -/
theorem dispatchImage_prepares {b b' : Gfx10Pm4CommandBuffer} {image : Gfx10KernelImage}
    {geometry : LaunchGeometry} {dynamicGroupBytes : ℕ} {userSgprs : List UInt32}
    (h : b.dispatchImage image geometry dynamicGroupBytes userSgprs = .ok b') :
    ∃ counts prepared initiator, workgroups geometry = .ok counts ∧ Prepares b.packets prepared ∧
      b'.packets = prepared ++ [.dispatchDirect (UInt32.ofNat counts.x) (UInt32.ofNat counts.y)
        (UInt32.ofNat counts.z) initiator] := by
  obtain ⟨counts, initiator, hcounts, hsgprs, hpackets⟩ := dispatchImage_ok h
  exact ⟨counts, _, initiator, hcounts,
    programRegisters_prepares b (imageRegisters_lengths (userData_lengths hsgprs)), hpackets⟩

theorem dispatch_ok {b b' : Gfx10Pm4CommandBuffer} {kernel : Kernel} {geometry : LaunchGeometry}
    {dynamicGroupBytes kernargAddress : ℕ}
    (h : b.dispatch kernel geometry dynamicGroupBytes kernargAddress = .ok b') :
    ∃ image userSgprs, Gfx10KernelImage.fromHsa kernel = .ok image ∧
      hsaUserSgprs image.kernelCodeProperties kernargAddress = .ok userSgprs ∧
      b.dispatchImage image geometry dynamicGroupBytes userSgprs = .ok b' := by
  obtain ⟨image, himage, h⟩ := bind_ok h
  obtain ⟨userSgprs, hsgprs, h⟩ := bind_ok h
  exact ⟨image, userSgprs, himage, hsgprs, h⟩

end Gfx10Pm4CommandBuffer
end Hipscope.Pm4
