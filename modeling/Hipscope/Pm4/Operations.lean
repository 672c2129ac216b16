import Hipscope.Pm4.Gfx10
import Hipscope.Pm4.Timestamps

/-! The operations of the two command builders, in place: a builder keeps what
was written before an operation fails. -/
namespace Hipscope.Pm4
open Redline

/-- Edits of a builder that may stop with an error. -/
abbrev Edit (β ε : Type) := ExceptT ε (StateM β)

namespace Edit
variable {β ε α : Type}

def check (refused : Prop) [Decidable refused] (error : ε) : Edit β ε Unit :=
  if refused then throw error else pure ()

def okOr (x : Option α) (error : ε) : Except ε α :=
  match x with
  | some a => .ok a
  | none => .error error

/-- The outcome of an edit and the builder it leaves. -/
def apply (edit : Edit β ε Unit) (b : β) : Except ε Unit × β := edit.run b

theorem check_bind (refused : Prop) [Decidable refused] (error : ε) (k : Edit β ε Unit) (b : β) :
    apply (check refused error >>= fun _ => k) b = if refused then (.error error, b) else apply k b := by
  unfold check
  split <;> rfl

theorem lift_bind (x : Except ε α) (k : α → Edit β ε Unit) (b : β) :
    apply ((liftM x : Edit β ε α) >>= k) b = match x with
      | .ok a => apply (k a) b
      | .error e => (.error e, b) := by
  cases x <;> rfl

/-- The edit that computes a new builder before it writes anything. -/
def commit (x : Except ε β) (b : β) : Except ε Unit × β :=
  match x with
  | .ok b' => (.ok (), b')
  | .error e => (.error e, b)

theorem commit_error {x : Except ε β} {b : β} {e : ε} (h : (commit x b).1 = .error e) :
    (commit x b).2 = b := by
  cases x with
  | ok b' => cases h
  | error e' => rfl

theorem commit_snd (x : Except ε β) (b : β) : (commit x b).2 = b ∨ x = .ok (commit x b).2 := by
  cases x with
  | ok b' => exact .inr rfl
  | error e => exact .inl rfl

end Edit

namespace Gfx10Pm4CommandBuffer

def dependencyRmwSameAgent (b : Gfx10Pm4CommandBuffer) : Gfx10Pm4CommandBuffer :=
  b.waitComputeIdle.acquireInterNodeSameAgent

def dependencyRmwVmem (b : Gfx10Pm4CommandBuffer) : Gfx10Pm4CommandBuffer :=
  b.waitComputeIdle.acquireInterNodeVmem

def dependencyRmwGlobal (b : Gfx10Pm4CommandBuffer) : Gfx10Pm4CommandBuffer :=
  b.waitComputeIdle.push [.acquireMem 0x00ffffff 10 0x0c380]

/-- A dispatch in place, statement by statement. -/
def dispatchImageEdit (image : Gfx10KernelImage) (geometry : LaunchGeometry) (dynamicGroupBytes : ℕ)
    (userSgprs : List UInt32) : Edit Gfx10Pm4CommandBuffer Gfx10Pm4BuildError Unit := do
  Edit.check (image.privateSegmentSize ≠ 0 ∨ image.dynamicCallstack)
    (.scratchUnsupported image.privateSegmentSize image.dynamicCallstack)
  let totalGroupBytes := image.groupSegmentSize + dynamicGroupBytes
  Edit.check (totalGroupBytes ≥ 2 ^ 32) .groupSegmentOverflow
  Edit.check (ldsBlocks totalGroupBytes > ldsBlockLimit) (.groupSegmentTooLarge totalGroupBytes)
  Edit.check (image.codeEntry = 0 ∨ image.codeEntry &&& 0xff ≠ 0) (.invalidCodeEntry image.codeEntry)
  Edit.check (userSgprs.length > 16) (.tooManyUserSgprs userSgprs.length)
  let counts ← liftM (workgroups geometry)
  modify fun b => b.programRegisters (imageRegisters b.resourceLimitsPolicy image geometry.workgroup
    totalGroupBytes (if userSgprs = [] then [] else [(0x240, userSgprs)]))
  modify fun b => b.push [.dispatchDirect (UInt32.ofNat counts.x) (UInt32.ofNat counts.y)
    (UInt32.ofNat counts.z) (b.dispatchInitiatorPolicy.bits image.wave32)]

def dispatchEdit (kernel : Kernel) (geometry : LaunchGeometry)
    (dynamicGroupBytes kernargAddress : ℕ) : Edit Gfx10Pm4CommandBuffer Gfx10Pm4BuildError Unit := do
  let image ← liftM (Gfx10KernelImage.fromHsa kernel)
  let userSgprs ← liftM (hsaUserSgprs image.kernelCodeProperties kernargAddress)
  dispatchImageEdit image geometry dynamicGroupBytes userSgprs

theorem dispatchImageEdit_apply (b : Gfx10Pm4CommandBuffer) (image : Gfx10KernelImage)
    (geometry : LaunchGeometry) (dynamicGroupBytes : ℕ) (userSgprs : List UInt32) :
    (dispatchImageEdit image geometry dynamicGroupBytes userSgprs).apply b =
      Edit.commit (b.dispatchImage image geometry dynamicGroupBytes userSgprs) b := by
  unfold dispatchImageEdit dispatchImage
  simp only [Edit.check_bind, Edit.lift_bind]
  split
  · rfl
  split
  · rfl
  split
  · rfl
  split
  · rfl
  split
  · rfl
  cases workgroups geometry <;> rfl

theorem dispatchEdit_apply (b : Gfx10Pm4CommandBuffer) (kernel : Kernel) (geometry : LaunchGeometry)
    (dynamicGroupBytes kernargAddress : ℕ) :
    (dispatchEdit kernel geometry dynamicGroupBytes kernargAddress).apply b =
      Edit.commit (b.dispatch kernel geometry dynamicGroupBytes kernargAddress) b := by
  unfold dispatchEdit dispatch
  rw [Edit.lift_bind]
  cases Gfx10KernelImage.fromHsa kernel with
  | error e => rfl
  | ok image =>
    change Edit.apply _ b = Edit.commit (hsaUserSgprs image.kernelCodeProperties kernargAddress >>=
      fun userSgprs => b.dispatchImage image geometry dynamicGroupBytes userSgprs) b
    rw [Edit.lift_bind]
    cases hsaUserSgprs image.kernelCodeProperties kernargAddress with
    | error e => rfl
    | ok userSgprs => exact dispatchImageEdit_apply b image geometry dynamicGroupBytes userSgprs

end Gfx10Pm4CommandBuffer

/-- The public operations of the GFX10/GFX11 builder. -/
inductive Gfx10Operation where
  | withDispatchInitiatorPolicy (policy : Gfx10DispatchInitiatorPolicy)
  | withResourceLimitsPolicy (policy : Gfx11ComputeResourceLimitsPolicy)
  | withDispatchInterleave (interleave : Option Gfx11DispatchInterleave)
  | acquireSystem
  | dependencyRmwSameAgent
  | acquireInterNodeSameAgent
  | dependencyRmwVmem
  | acquireInterNodeVmem
  | dependencyRmwGlobal
  | withGpuTimestamps (start stop : ℕ)
  | appendStream (commands : Gfx10Pm4CommandBuffer)
  | releaseMemoryValue (address : ℕ) (value : UInt32)
  | writeMemoryValueAfterIdle (address : ℕ) (value : UInt32)
  | waitMemoryValue (address : ℕ) (value : UInt32)
  | dependencyFence (address : ℕ) (value : UInt32)
  | dispatch (kernel : Kernel) (geometry : LaunchGeometry) (dynamicGroupBytes kernargAddress : ℕ)
  | dispatchImage (image : Gfx10KernelImage) (geometry : LaunchGeometry) (dynamicGroupBytes : ℕ)
      (userSgprs : List UInt32)
  | waitComputeIdle

def Gfx10Operation.apply (b : Gfx10Pm4CommandBuffer) :
    Gfx10Operation → Except Gfx10Pm4BuildError Unit × Gfx10Pm4CommandBuffer
  | withDispatchInitiatorPolicy policy => (.ok (), b.withDispatchInitiatorPolicy policy)
  | withResourceLimitsPolicy policy => (.ok (), b.withResourceLimitsPolicy policy)
  | withDispatchInterleave interleave => (.ok (), b.withDispatchInterleave interleave)
  | acquireSystem => (.ok (), b.acquireSystem)
  | dependencyRmwSameAgent => (.ok (), b.dependencyRmwSameAgent)
  | acquireInterNodeSameAgent => (.ok (), b.acquireInterNodeSameAgent)
  | dependencyRmwVmem => (.ok (), b.dependencyRmwVmem)
  | acquireInterNodeVmem => (.ok (), b.acquireInterNodeVmem)
  | dependencyRmwGlobal => (.ok (), b.dependencyRmwGlobal)
  | withGpuTimestamps start stop => (.ok (), b.withGpuTimestamps start stop)
  | appendStream commands => (.ok (), b.appendStream commands)
  | releaseMemoryValue address value => (.ok (), b.releaseMemoryValue address value)
  | writeMemoryValueAfterIdle address value => (.ok (), b.writeMemoryValueAfterIdle address value)
  | waitMemoryValue address value => (.ok (), b.waitMemoryValue address value)
  | dependencyFence address value => (.ok (), b.dependencyFence address value)
  | dispatch kernel geometry dynamicGroupBytes kernargAddress =>
    (Gfx10Pm4CommandBuffer.dispatchEdit kernel geometry dynamicGroupBytes kernargAddress).apply b
  | dispatchImage image geometry dynamicGroupBytes userSgprs =>
    (Gfx10Pm4CommandBuffer.dispatchImageEdit image geometry dynamicGroupBytes userSgprs).apply b
  | waitComputeIdle => (.ok (), b.waitComputeIdle)

/-- A caller that goes on after an error keeps the builder it has. -/
def Gfx10Operation.run (b : Gfx10Pm4CommandBuffer) (operations : List Gfx10Operation) :
    Gfx10Pm4CommandBuffer :=
  operations.foldl (fun b operation => (operation.apply b).2) b

/-- Builders reached by operations; an appended stream was built the same way. -/
inductive Gfx10Built : Gfx10Pm4CommandBuffer → Prop
  | new : Gfx10Built .new
  | newStateful : Gfx10Built .newStateful
  | apply {b : Gfx10Pm4CommandBuffer} (operation : Gfx10Operation) (h : Gfx10Built b)
      (happended : ∀ commands, operation = .appendStream commands → Gfx10Built commands) :
      Gfx10Built (operation.apply b).2

theorem Gfx10Operation.apply_error {b : Gfx10Pm4CommandBuffer} {operation : Gfx10Operation}
    {e : Gfx10Pm4BuildError} (h : (operation.apply b).1 = .error e) : (operation.apply b).2 = b := by
  cases operation with
  | dispatch kernel geometry dynamicGroupBytes kernargAddress =>
    simp only [apply, Gfx10Pm4CommandBuffer.dispatchEdit_apply] at h ⊢
    exact Edit.commit_error h
  | dispatchImage image geometry dynamicGroupBytes userSgprs =>
    simp only [apply, Gfx10Pm4CommandBuffer.dispatchImageEdit_apply] at h ⊢
    exact Edit.commit_error h
  | _ => cases h

namespace Gfx12Pm4CommandBuffer

/-- A dispatch in place, statement by statement. -/
def dispatchEdit (kernel : Kernel) (geometry : LaunchGeometry)
    (dynamicGroupBytes kernargAddress : ℕ) : Edit Gfx12Pm4CommandBuffer Pm4BuildError Unit := do
  Edit.check (kernel.metadata.privateSegmentSize ≠ 0 ∨ kernel.metadata.dynamicCallstack)
    (.scratchUnsupported kernel.metadata.privateSegmentSize kernel.metadata.dynamicCallstack)
  let pm4 ← liftM (Edit.okOr kernel.pm4Metadata Pm4BuildError.missingKernelDescriptor)
  let unsupported := pm4.kernelCodeProperties &&& ~~~gfx12SupportedKernelProperties
  Edit.check (unsupported ≠ 0) (.unsupportedKernelProperties unsupported)
  let wave32 := pm4.kernelCodeProperties &&& enableWavefrontSize32 ≠ 0
  let needsKernarg := pm4.kernelCodeProperties &&& enableSgprKernargSegmentPtr ≠ 0
  Edit.check (needsKernarg ∧ kernargAddress = 0) .nullKernarg
  let totalGroupBytes := kernel.metadata.groupSegmentSize + dynamicGroupBytes
  Edit.check (totalGroupBytes ≥ 2 ^ 32) .groupSegmentOverflow
  Edit.check (ldsBlocks totalGroupBytes > ldsBlockLimit) (.groupSegmentTooLarge totalGroupBytes)
  modify fun b => b.programRegisters (kernelRegisters pm4 geometry.workgroup totalGroupBytes
    (if needsKernarg then [(0x240, [lowDword kernargAddress, highDword kernargAddress])] else []))
  modify fun b => b.push [.dispatchDirect (UInt32.ofNat geometry.gridWorkitems.x)
    (UInt32.ofNat geometry.gridWorkitems.y) (UInt32.ofNat geometry.gridWorkitems.z)
    (dispatchInitiator wave32)]

theorem dispatchEdit_apply (b : Gfx12Pm4CommandBuffer) (kernel : Kernel) (geometry : LaunchGeometry)
    (dynamicGroupBytes kernargAddress : ℕ) :
    (dispatchEdit kernel geometry dynamicGroupBytes kernargAddress).apply b =
      Edit.commit (b.dispatch kernel geometry dynamicGroupBytes kernargAddress) b := by
  unfold dispatchEdit dispatch
  simp only [Edit.check_bind, Edit.lift_bind]
  split
  · rfl
  cases kernel.pm4Metadata with
  | none => rfl
  | some pm4 =>
    dsimp only [Edit.okOr]
    split
    · rfl
    split
    · rfl
    split
    · rfl
    split <;> rfl

end Gfx12Pm4CommandBuffer

/-- The public operations of the GFX12 builder. -/
inductive Gfx12Operation where
  | acquireSystem
  | acquireSystemGfx12
  | acquireInterNodeGfx12
  | withGpuTimestamps (start stop : ℕ)
  | withPerDispatchTimestamps (baseAddress : ℕ)
  | dispatch (kernel : Kernel) (geometry : LaunchGeometry) (dynamicGroupBytes kernargAddress : ℕ)
  | waitComputeIdle

def Gfx12Operation.apply (b : Gfx12Pm4CommandBuffer) :
    Gfx12Operation → Except Pm4BuildError Unit × Gfx12Pm4CommandBuffer
  | acquireSystem => (.ok (), b.acquireSystem)
  | acquireSystemGfx12 => (.ok (), b.acquireSystemGfx12)
  | acquireInterNodeGfx12 => (.ok (), b.acquireInterNodeGfx12)
  | withGpuTimestamps start stop => (.ok (), b.withGpuTimestamps start stop)
  | withPerDispatchTimestamps baseAddress => (.ok (), b.withPerDispatchTimestamps baseAddress)
  | dispatch kernel geometry dynamicGroupBytes kernargAddress =>
    (Gfx12Pm4CommandBuffer.dispatchEdit kernel geometry dynamicGroupBytes kernargAddress).apply b
  | waitComputeIdle => (.ok (), b.waitComputeIdle)

def Gfx12Operation.run (b : Gfx12Pm4CommandBuffer) (operations : List Gfx12Operation) :
    Gfx12Pm4CommandBuffer :=
  operations.foldl (fun b operation => (operation.apply b).2) b

/-- Builders reached by operations. -/
inductive Gfx12Built : Gfx12Pm4CommandBuffer → Prop
  | new : Gfx12Built .new
  | newStateful : Gfx12Built .newStateful
  | newStaticStateful : Gfx12Built .newStaticStateful
  | apply {b : Gfx12Pm4CommandBuffer} (operation : Gfx12Operation) (h : Gfx12Built b) :
      Gfx12Built (operation.apply b).2

theorem Gfx12Operation.apply_error {b : Gfx12Pm4CommandBuffer} {operation : Gfx12Operation}
    {e : Pm4BuildError} (h : (operation.apply b).1 = .error e) : (operation.apply b).2 = b := by
  cases operation with
  | dispatch kernel geometry dynamicGroupBytes kernargAddress =>
    simp only [apply, Gfx12Pm4CommandBuffer.dispatchEdit_apply] at h ⊢
    exact Edit.commit_error h
  | _ => cases h

section WellFormed

theorem RegisterWrite.wellFormed {p : Packet} (h : RegisterWrite p) : p.WellFormed := by
  obtain ⟨first, values, rfl, -, hlen⟩ := h
  exact hlen

/-- Every packet of the stream has a body that fits its header. -/
def WellFormedStream (ps : List Packet) : Prop := ∀ p ∈ ps, p.WellFormed

theorem WellFormedStream.append {ps qs : List Packet} (hp : WellFormedStream ps)
    (hq : WellFormedStream qs) : WellFormedStream (ps ++ qs) :=
  fun p h => (List.mem_append.mp h).elim (hp p) (hq p)

theorem Prepares.wellFormed {before after : List Packet} (h : Prepares before after)
    (hb : WellFormedStream before) : WellFormedStream after := by
  obtain ⟨writes, rfl, hw⟩ := h
  exact hb.append fun p hp => (hw p hp).wellFormed

private theorem timed_wellFormed {ps : List Packet} (h : WellFormedStream ps) (start stop : ℕ) :
    WellFormedStream ([.copyTimestamp start] ++ ps ++ [.releaseTimestamp stop]) := by
  refine (WellFormedStream.append ?_ h).append ?_
  · intro p hp
    obtain rfl := List.mem_singleton.mp hp
    trivial
  · intro p hp
    obtain rfl := List.mem_singleton.mp hp
    trivial

theorem Gfx10Pm4CommandBuffer.dispatchImage_wellFormed {b b' : Gfx10Pm4CommandBuffer}
    {image : Gfx10KernelImage} {geometry : LaunchGeometry} {dynamicGroupBytes : ℕ}
    {userSgprs : List UInt32} (hb : WellFormedStream b.packets)
    (h : b.dispatchImage image geometry dynamicGroupBytes userSgprs = .ok b') :
    WellFormedStream b'.packets := by
  obtain ⟨counts, prepared, initiator, -, hprep, hpackets⟩ := dispatchImage_prepares h
  rw [hpackets]
  refine (hprep.wellFormed hb).append fun p hp => ?_
  obtain rfl := List.mem_singleton.mp hp
  trivial

theorem Gfx10Operation.apply_wellFormed {b : Gfx10Pm4CommandBuffer} {operation : Gfx10Operation}
    (hb : WellFormedStream b.packets)
    (happended : ∀ commands, operation = .appendStream commands → WellFormedStream commands.packets) :
    WellFormedStream (operation.apply b).2.packets := by
  have push (qs : List Packet) (hq : WellFormedStream qs) : WellFormedStream (b.packets ++ qs) :=
    hb.append hq
  cases operation with
  | withDispatchInitiatorPolicy policy => exact hb
  | withResourceLimitsPolicy policy => exact hb
  | withDispatchInterleave interleave =>
    cases interleave with
    | none => exact hb
    | some interleave => exact (b.setShRegs_prepares (0x22f, [interleave.threads]) (by simp)).wellFormed hb
  | withGpuTimestamps start stop => exact timed_wellFormed hb start stop
  | appendStream commands => exact hb.append (happended commands rfl)
  | dispatch kernel geometry dynamicGroupBytes kernargAddress =>
    rw [apply, Gfx10Pm4CommandBuffer.dispatchEdit_apply]
    rcases Edit.commit_snd (b.dispatch kernel geometry dynamicGroupBytes kernargAddress) b with h | h
    · rwa [h]
    · obtain ⟨image, -, h⟩ := bind_ok h
      obtain ⟨userSgprs, -, h⟩ := bind_ok h
      exact Gfx10Pm4CommandBuffer.dispatchImage_wellFormed hb h
  | dispatchImage image geometry dynamicGroupBytes userSgprs =>
    rw [apply, Gfx10Pm4CommandBuffer.dispatchImageEdit_apply]
    rcases Edit.commit_snd (b.dispatchImage image geometry dynamicGroupBytes userSgprs) b with h | h
    · rwa [h]
    · exact Gfx10Pm4CommandBuffer.dispatchImage_wellFormed hb h
  | _ =>
    simp only [apply, Gfx10Pm4CommandBuffer.acquireSystem,
      Gfx10Pm4CommandBuffer.dependencyRmwSameAgent, Gfx10Pm4CommandBuffer.acquireInterNodeSameAgent,
      Gfx10Pm4CommandBuffer.dependencyRmwVmem, Gfx10Pm4CommandBuffer.acquireInterNodeVmem,
      Gfx10Pm4CommandBuffer.dependencyRmwGlobal, Gfx10Pm4CommandBuffer.releaseMemoryValue,
      Gfx10Pm4CommandBuffer.writeMemoryValueAfterIdle, Gfx10Pm4CommandBuffer.waitMemoryValue,
      Gfx10Pm4CommandBuffer.dependencyFence, Gfx10Pm4CommandBuffer.waitComputeIdle,
      Gfx10Pm4CommandBuffer.push, List.append_assoc]
    exact push _ (by simp [WellFormedStream, Packet.WellFormed])

theorem Gfx10Built.wellFormed {b : Gfx10Pm4CommandBuffer} (h : Gfx10Built b) :
    WellFormedStream b.packets := by
  induction h with
  | new => simp [WellFormedStream, Gfx10Pm4CommandBuffer.new]
  | newStateful => simp [WellFormedStream, Gfx10Pm4CommandBuffer.newStateful]
  | apply operation _ _ ih iha => exact operation.apply_wellFormed ih iha

theorem Gfx12Operation.apply_wellFormed {b : Gfx12Pm4CommandBuffer} {operation : Gfx12Operation}
    (hb : WellFormedStream b.packets) : WellFormedStream (operation.apply b).2.packets := by
  cases operation with
  | withGpuTimestamps start stop => exact timed_wellFormed hb start stop
  | withPerDispatchTimestamps baseAddress => exact instrument_wellFormed baseAddress hb
  | dispatch kernel geometry dynamicGroupBytes kernargAddress =>
    rw [apply, Gfx12Pm4CommandBuffer.dispatchEdit_apply]
    rcases Edit.commit_snd (b.dispatch kernel geometry dynamicGroupBytes kernargAddress) b with h | h
    · rwa [h]
    · obtain ⟨prepared, initiator, hprep, hpackets⟩ := Gfx12Pm4CommandBuffer.dispatch_prepares h
      rw [hpackets]
      refine (hprep.wellFormed hb).append fun p hp => ?_
      obtain rfl := List.mem_singleton.mp hp
      trivial
  | _ => exact hb.append (by simp [WellFormedStream, Packet.WellFormed])

theorem Gfx12Built.wellFormed {b : Gfx12Pm4CommandBuffer} (h : Gfx12Built b) :
    WellFormedStream b.packets := by
  induction h with
  | new => simp [WellFormedStream, Gfx12Pm4CommandBuffer.new]
  | newStateful => simp [WellFormedStream, Gfx12Pm4CommandBuffer.newStateful]
  | newStaticStateful => simp [WellFormedStream, Gfx12Pm4CommandBuffer.newStaticStateful]
  | apply operation _ ih => exact operation.apply_wellFormed ih

end WellFormed
end Hipscope.Pm4
