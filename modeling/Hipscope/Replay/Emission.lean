import Hipscope.Replay.Commands
import Hipscope.Redline.Lowering

/-! Emitting a list of launches into one stream, with a compute-idle wait
wherever the frontier cannot show the next launch independent. -/
namespace Hipscope.Replay
open Redline Pm4 Queue

/-- A recorded launch with everything its dispatch needs. -/
structure TapeLaunch where
  index : ℕ
  launch : RecordedHipLaunch
  kernel : Kernel
  geometry : LaunchGeometry
  kernarg : Aql.KernargBuffer

/-- Why a preparation failed, with the data of its message. -/
inductive PrepareError where
  | noCapturedLaunches
  | countOutOfRange (count captured : ℕ)
  | noArtifact (kernel : String)
  | load (symbol detail : String)
  | allocate (symbol : String) (error : Aql.RuntimeError)
  | loaderBelowImplicit (loaderBytes captured : ℕ)
  | loaderExceedsCaptured (explicit captured : ℕ)
  | loaderDiscardsBytes (explicit captured : ℕ)
  | destinationMismatch (kernel : String) (destination loaderBytes : ℕ)
  | kernargWrite (offset stop : ℕ)
  | workgroupExceedsU16 (symbol : String) (dimension : ℕ)
  | geometry (symbol : String) (error : PacketError)
  | geometryLimit (symbol : String) (error : Aql.RuntimeError)
  | gdnKernargTooShort (symbol : String)
  | fence (error : Aql.RuntimeError)
  | fenceAddress (address : ℕ)
  | indexOutOfRange
  | command (error : Pm4CommandError)
  | dispatch (kernel : String) (error : Pm4CommandError)
  deriving DecidableEq

/-- Which boundaries stand between consecutive launches of a stream: those of
the wait policy, those of the resource frontier, or none. -/
inductive Boundaries where
  | waitPolicy
  | frontier
  | omitted
  deriving DecidableEq, Repr

def Boundaries.independent (boundaries : Boundaries) (settings : Pm4Settings)
    (previous current : RecordedHipLaunch) (resourcesIndependent : Bool) : Bool :=
  match boundaries, settings.waitPolicy with
  | .waitPolicy, .allowlist | .waitPolicy, .resourceAudit =>
    independentSibling previous.kernel current.kernel
  | _, _ => resourcesIndependent

def Boundaries.vmemOnly (boundaries : Boundaries) (settings : Pm4Settings)
    (current : RecordedHipLaunch) : Bool :=
  (boundaries ≠ .waitPolicy || settings.architecture ≠ .gfx12) && settings.gfx11VmemAcquire &&
    settings.vmemOnlyConsumer current

def waitUnless (independent : Bool) (commands : Pm4Commands) : Except Pm4CommandError Pm4Commands :=
  if independent then .ok commands else commands.waitComputeIdle

/-- The packets between two dispatches: a wait unless they are independent, and
an acquire where the wait or the policy asks for one. -/
def emitBoundary (settings : Pm4Settings) (independent vmemOnly : Bool)
    (previous current : RecordedHipLaunch) (commands : Pm4Commands) :
    Except Pm4CommandError Pm4Commands := do
  let waited ← waitUnless independent commands
  if (!independent && waited.requiresDependencyAcquire) ||
      settings.midAcquirePolicy.acquireBetween previous.kernel current.kernel then
    return waited.acquireInterNode settings vmemOnly
  else return waited

def liftCommand {α : Type} : Except Pm4CommandError α → Except PrepareError α
  | .ok a => .ok a
  | .error error => .error (.command error)

def liftDispatch {α : Type} (kernel : String) : Except Pm4CommandError α → Except PrepareError α
  | .ok a => .ok a
  | .error error => .error (.dispatch kernel error)

/-- The stream up to the dispatch of a launch, and whether the launch joins the
pending ones. The first launch of a stream has no boundary. -/
def emitBefore (settings : Pm4Settings) (boundaries : Boundaries)
    (previous : Option RecordedHipLaunch) (frontier : ResourceFrontier) (commands : Pm4Commands)
    (current : RecordedHipLaunch) : Except PrepareError (Bool × Pm4Commands) :=
  match previous, boundaries with
  | none, _ | _, .omitted => .ok (false, commands)
  | some previous, _ => do
    let resources := frontier.independent current
    let bounded ← liftCommand (emitBoundary settings
      (boundaries.independent settings previous current resources)
      (boundaries.vmemOnly settings current) previous current commands)
    return (resources, bounded)

def emitLaunches (settings : Pm4Settings) (boundaries : Boundaries) :
    Option RecordedHipLaunch → ResourceFrontier → Pm4Commands → List TapeLaunch →
      Except PrepareError Pm4Commands
  | _, _, commands, [] => .ok commands
  | previous, frontier, commands, item :: items => do
    let (resources, bounded) ← emitBefore settings boundaries previous frontier commands item.launch
    let dispatched ← liftDispatch item.launch.kernel
      (bounded.dispatch item.kernel item.geometry item.launch.sharedMem item.kernarg.address)
    emitLaunches settings boundaries (some item.launch) (frontier.advance item.launch resources)
      dispatched items

/-- The dimension dwords the dispatch encoder writes for a geometry: work-items
on GFX12, work-groups before. -/
def dimensions (gfx12 : Bool) (geometry : LaunchGeometry) :
    Except Gfx10Pm4BuildError (List UInt32) :=
  if gfx12 then .ok (geometry.gridWorkitems.axes.map UInt32.ofNat)
  else (Gfx10Pm4CommandBuffer.workgroups geometry).map fun counts => counts.axes.map UInt32.ofNat

/-- A compute-idle wait of a stream in the given mode. -/
def IdleBlock : LegacyDependencyMode → List Packet → Prop
  | .csPartialFlush, ps => ps = [.csPartialFlush]
  | .releaseWait address epoch, ps => ∃ e, epoch < e ∧ e < 2 ^ 32 ∧
      ps = [.releaseMem address (UInt32.ofNat e), .waitRegMem address (UInt32.ofNat e)]

/-- Packets that take the fence from one epoch to a later one, writing every
epoch between once and nothing else. -/
inductive Advances : LegacyDependencyMode → LegacyDependencyMode → List Packet → Prop
  | flush {ps : List Packet} (h : wordWrites ps = []) : Advances .csPartialFlush .csPartialFlush ps
  | release {address epoch epoch' : ℕ} {ps : List Packet} (hle : epoch ≤ epoch')
      (hbound : epoch < 2 ^ 32 → epoch' < 2 ^ 32)
      (h : wordWrites ps = (List.range' (epoch + 1) (epoch' - epoch)).map fun e =>
        (address, UInt32.ofNat e)) :
      Advances (.releaseWait address epoch) (.releaseWait address epoch') ps

theorem Advances.refl {ps : List Packet} (h : wordWrites ps = []) (mode : LegacyDependencyMode) :
    Advances mode mode ps := by
  cases mode with
  | csPartialFlush => exact .flush h
  | releaseWait address epoch => exact .release le_rfl id (by simpa using h)

theorem Advances.trans {mode mode' mode'' : LegacyDependencyMode} {ps qs : List Packet}
    (h : Advances mode mode' ps) (h' : Advances mode' mode'' qs) : Advances mode mode'' (ps ++ qs) := by
  cases h with
  | flush h =>
    cases h' with
    | flush h' => exact .flush (by simp [h, h'])
  | @release address epoch epoch' ps hle hbound h =>
    cases h' with
    | @release _ _ epoch'' _ hle' hbound' h' =>
      refine .release (hle.trans hle') (fun hb => hbound' (hbound hb)) ?_
      have hjoin : List.range' (epoch + 1) (epoch' - epoch) ++
          List.range' (epoch' + 1) (epoch'' - epoch') =
          List.range' (epoch + 1) (epoch'' - epoch) := by
        have hsplit := List.range'_append_1 (s := epoch + 1) (m := epoch' - epoch)
          (n := epoch'' - epoch')
        rwa [show epoch + 1 + (epoch' - epoch) = epoch' + 1 by omega,
          show epoch' - epoch + (epoch'' - epoch') = epoch'' - epoch by omega] at hsplit
      rw [wordWrites_append, h, h', ← List.map_append, hjoin]

theorem IdleBlock.of_advances {mode mode' : LegacyDependencyMode} {ps block : List Packet}
    (h : Advances mode mode' ps) (hb : IdleBlock mode' block) : IdleBlock mode block := by
  cases h with
  | flush => exact hb
  | release hle =>
    obtain ⟨e, he, hb⟩ := hb
    exact ⟨e, lt_of_le_of_lt hle he, hb⟩

theorem IdleBlock.dispatches {mode : LegacyDependencyMode} {block : List Packet}
    (h : IdleBlock mode block) : dispatches block = [] := by
  cases mode with
  | csPartialFlush =>
    obtain rfl : block = _ := h
    rfl
  | releaseWait =>
    obtain ⟨e, -, -, rfl⟩ := h
    rfl

namespace Pm4Commands

/-- How the stream waits for its dispatches. -/
def mode : Pm4Commands → LegacyDependencyMode
  | legacy _ _ mode => mode
  | gfx12 _ => .csPartialFlush

def isGfx12 : Pm4Commands → Bool
  | legacy _ _ _ => false
  | gfx12 _ => true

private theorem prepares_append {before prepared : List Packet} (h : Prepares before prepared)
    (p : Packet) : ∃ regs, (∀ r ∈ regs, RegisterWrite r) ∧ prepared ++ [p] = before ++ (regs ++ [p]) := by
  obtain ⟨regs, rfl, hregs⟩ := h
  exact ⟨regs, hregs, by simp⟩

theorem dispatch_ok {commands commands' : Pm4Commands} {kernel : Kernel} {geometry : LaunchGeometry}
    {dynamicGroupBytes kernargAddress : ℕ}
    (h : commands.dispatch kernel geometry dynamicGroupBytes kernargAddress = .ok commands') :
    commands'.mode = commands.mode ∧ commands'.isGfx12 = commands.isGfx12 ∧
      ∃ regs x y z initiator, (∀ p ∈ regs, RegisterWrite p) ∧
        commands'.packets = commands.packets ++ (regs ++ [.dispatchDirect x y z initiator]) ∧
        dimensions commands.isGfx12 geometry = .ok [x, y, z] := by
  cases commands with
  | legacy architecture buffer mode =>
    simp only [dispatch] at h
    split at h
    · cases h
    · rename_i hd
      cases h
      obtain ⟨image, userSgprs, -, -, himage⟩ := Gfx10Pm4CommandBuffer.dispatch_ok hd
      obtain ⟨counts, prepared, initiator, hcounts, hprep, hpackets⟩ :=
        Gfx10Pm4CommandBuffer.dispatchImage_prepares himage
      obtain ⟨regs, hregs, hjoin⟩ := prepares_append hprep (.dispatchDirect (UInt32.ofNat counts.x)
        (UInt32.ofNat counts.y) (UInt32.ofNat counts.z) initiator)
      exact ⟨rfl, rfl, regs, _, _, _, initiator, hregs, hpackets.trans hjoin,
        by simp [dimensions, isGfx12, hcounts, Except.map, Dim3.axes]⟩
  | gfx12 buffer =>
    simp only [dispatch] at h
    split at h
    · cases h
    · rename_i hd
      cases h
      obtain ⟨prepared, initiator, hprep, hpackets⟩ := Gfx12Pm4CommandBuffer.dispatch_prepares hd
      obtain ⟨regs, hregs, hjoin⟩ := prepares_append hprep
        (.dispatchDirect (UInt32.ofNat geometry.gridWorkitems.x)
          (UInt32.ofNat geometry.gridWorkitems.y) (UInt32.ofNat geometry.gridWorkitems.z) initiator)
      exact ⟨rfl, rfl, regs, _, _, _, initiator, hregs, hpackets.trans hjoin,
        by simp [dimensions, isGfx12, Dim3.axes]⟩

theorem waitComputeIdle_ok {commands commands' : Pm4Commands}
    (h : commands.waitComputeIdle = .ok commands') :
    commands'.isGfx12 = commands.isGfx12 ∧ ∃ block, commands'.packets = commands.packets ++ block ∧
      IdleBlock commands.mode block ∧ Advances commands.mode commands'.mode block := by
  cases commands with
  | legacy architecture buffer mode =>
    cases mode with
    | csPartialFlush =>
      cases h
      exact ⟨rfl, [.csPartialFlush], rfl, rfl, .flush rfl⟩
    | releaseWait address epoch =>
      simp only [waitComputeIdle] at h
      split at h
      · cases h
      · rename_i hb
        cases h
        refine ⟨rfl, [.releaseMem address (UInt32.ofNat (epoch + 1)),
          .waitRegMem address (UInt32.ofNat (epoch + 1))], ?_, ?_, ?_⟩
        · simp [packets, Gfx10Pm4CommandBuffer.dependencyFence,
            Gfx10Pm4CommandBuffer.releaseMemoryValue, Gfx10Pm4CommandBuffer.waitMemoryValue,
            Gfx10Pm4CommandBuffer.push]
        · exact ⟨epoch + 1, by omega, by omega, rfl⟩
        · exact .release (by omega) (by omega) (by simp [wordWrites, Packet.write?])
  | gfx12 buffer =>
    cases h
    exact ⟨rfl, [.csPartialFlush], rfl, rfl, .flush rfl⟩

theorem acquireInterNode_packets (settings : Pm4Settings) (vmemOnly : Bool) (commands : Pm4Commands) :
    (commands.acquireInterNode settings vmemOnly).mode = commands.mode ∧
      (commands.acquireInterNode settings vmemOnly).isGfx12 = commands.isGfx12 ∧
      ∃ quiet, (∀ p ∈ quiet, p.Quiet) ∧
        (commands.acquireInterNode settings vmemOnly).packets = commands.packets ++ quiet := by
  cases commands with
  | legacy architecture buffer mode =>
    refine ⟨rfl, rfl, ?_⟩
    cases vmemOnly
    · exact ⟨[.acquireMem 0x00ffffff 10 0x00380], by simp [Packet.Quiet], rfl⟩
    · exact ⟨[.acquireMem 0x00ffffff 10 0x00300], by simp [Packet.Quiet], rfl⟩
  | gfx12 buffer =>
    refine ⟨rfl, rfl, ?_⟩
    simp only [acquireInterNode]
    split
    · exact ⟨[.acquireMem 0xff 4 0x10180], by simp [Packet.Quiet], rfl⟩
    · exact ⟨[.acquireMem 0xff 4 0x1c3f1], by simp [Packet.Quiet], rfl⟩

end Pm4Commands
end Hipscope.Replay
