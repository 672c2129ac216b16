import Hipscope.Pm4.Loads
import Hipscope.Replay.Tape

/-! The streams of a retained replay are made by the public operations of the
builders, so every walker can read them, and every dispatch finds its own launch
in the registers. -/
namespace Hipscope.Replay
open Redline Pm4

def Pm4Commands.Built : Pm4Commands → Prop
  | legacy _ commands _ => Gfx10Built commands
  | gfx12 commands => Gfx12Built commands

namespace Pm4Commands

theorem Built.wellFormed {commands : Pm4Commands} (h : commands.Built) :
    WellFormedStream commands.packets := by
  cases commands with
  | legacy architecture buffer mode => exact Gfx10Built.wellFormed h
  | gfx12 buffer => exact Gfx12Built.wellFormed h

private theorem gfx10_apply {b : Gfx10Pm4CommandBuffer} (h : Gfx10Built b) (operation : Gfx10Operation)
    (hne : ∀ commands, operation ≠ .appendStream commands) : Gfx10Built (operation.apply b).2 :=
  .apply operation h fun commands hc => absurd hc (hne commands)

theorem newWithDependency_built (settings : Pm4Settings) (mode : LegacyDependencyMode) :
    (newWithDependency settings mode).Built ∧
      (newWithDependency settings mode).isGfx12 = decide (settings.architecture = .gfx12) := by
  have legacy {b : Gfx10Pm4CommandBuffer} (hb : Gfx10Built b) :
      Gfx10Built (((b.withDispatchInitiatorPolicy settings.dispatchInitiatorPolicy).withDispatchInterleave
        settings.dispatchInterleave).withResourceLimitsPolicy settings.resourceLimitsPolicy) := by
    have hinitiator := gfx10_apply hb (.withDispatchInitiatorPolicy settings.dispatchInitiatorPolicy)
      (by simp)
    have hinterleave := gfx10_apply hinitiator (.withDispatchInterleave settings.dispatchInterleave)
      (by simp)
    exact gfx10_apply hinterleave (.withResourceLimitsPolicy settings.resourceLimitsPolicy) (by simp)
  unfold newWithDependency
  cases ha : settings.architecture with
  | gfx12 =>
    refine ⟨?_, rfl⟩
    cases settings.registerPolicy with
    | legacy => exact Gfx12Built.new
    | static => exact Gfx12Built.newStaticStateful
    | stateful => exact Gfx12Built.newStateful
  | _ =>
    refine ⟨?_, rfl⟩
    cases settings.registerPolicy with
    | legacy => exact legacy .new
    | _ => exact legacy .newStateful

theorem Built.emitEntrySentinelReset {commands next : Pm4Commands} (h : commands.Built)
    (hn : commands.emitEntrySentinelReset = .ok next) :
    next.Built ∧ next.isGfx12 = commands.isGfx12 := by
  cases commands with
  | gfx12 buffer =>
    cases hn
    exact ⟨h, rfl⟩
  | legacy architecture buffer mode =>
    cases mode with
    | csPartialFlush =>
      cases hn
      exact ⟨h, rfl⟩
    | releaseWait address epoch =>
      simp only [Pm4Commands.emitEntrySentinelReset] at hn
      split at hn
      · cases hn
      · cases hn
        exact ⟨gfx10_apply h (.dependencyFence address 0) (by simp), rfl⟩

theorem Built.acquireEntry {commands : Pm4Commands} (h : commands.Built) (settings : Pm4Settings) :
    (commands.acquireEntry settings).Built := by
  cases commands with
  | legacy architecture buffer mode =>
    unfold Pm4Commands.acquireEntry
    cases settings.entryAcquirePolicy with
    | system => exact gfx10_apply h .acquireSystem (by simp)
    | agent => exact gfx10_apply h .acquireInterNodeSameAgent (by simp)
    | vmem => exact gfx10_apply h .acquireInterNodeVmem (by simp)
    | none => exact h
  | gfx12 buffer =>
    unfold Pm4Commands.acquireEntry
    cases settings.gfx12GcrTrim with
    | true => exact Gfx12Built.apply .acquireSystemGfx12 h
    | false => exact Gfx12Built.apply .acquireSystem h

theorem Built.acquireInterNode {commands : Pm4Commands} (h : commands.Built) (settings : Pm4Settings)
    (vmemOnly : Bool) : (commands.acquireInterNode settings vmemOnly).Built := by
  cases commands with
  | legacy architecture buffer mode =>
    unfold Pm4Commands.acquireInterNode
    cases vmemOnly with
    | true => exact gfx10_apply h .acquireInterNodeVmem (by simp)
    | false => exact gfx10_apply h .acquireInterNodeSameAgent (by simp)
  | gfx12 buffer =>
    unfold Pm4Commands.acquireInterNode
    cases settings.gfx12GcrTrim with
    | true => exact Gfx12Built.apply .acquireInterNodeGfx12 h
    | false => exact Gfx12Built.apply .acquireSystem h

theorem Built.waitComputeIdle {commands next : Pm4Commands} (h : commands.Built)
    (hn : commands.waitComputeIdle = .ok next) : next.Built := by
  cases commands with
  | gfx12 buffer =>
    cases hn
    exact Gfx12Built.apply .waitComputeIdle h
  | legacy architecture buffer mode =>
    cases mode with
    | csPartialFlush =>
      cases hn
      exact gfx10_apply h .waitComputeIdle (by simp)
    | releaseWait address epoch =>
      simp only [Pm4Commands.waitComputeIdle] at hn
      split at hn
      · cases hn
      · cases hn
        exact gfx10_apply h (.dependencyFence address (UInt32.ofNat (epoch + 1))) (by simp)

theorem Built.dispatch {commands next : Pm4Commands} {kernel : Kernel} {geometry : LaunchGeometry}
    {dynamicGroupBytes kernargAddress : ℕ} (h : commands.Built)
    (hn : commands.dispatch kernel geometry dynamicGroupBytes kernargAddress = .ok next) :
    next.Built := by
  cases commands with
  | legacy architecture buffer mode =>
    simp only [Pm4Commands.dispatch] at hn
    split at hn
    · cases hn
    · rename_i hd
      cases hn
      have happly := gfx10_apply h (.dispatch kernel geometry dynamicGroupBytes kernargAddress) (by simp)
      rwa [Gfx10Operation.apply, Gfx10Pm4CommandBuffer.dispatchEdit_apply, hd] at happly
  | gfx12 buffer =>
    simp only [Pm4Commands.dispatch] at hn
    split at hn
    · cases hn
    · rename_i hd
      cases hn
      have happly := Gfx12Built.apply (.dispatch kernel geometry dynamicGroupBytes kernargAddress) h
      rwa [Gfx12Operation.apply, Gfx12Pm4CommandBuffer.dispatchEdit_apply, hd] at happly

end Pm4Commands

theorem emitBoundary_built {settings : Pm4Settings} {independent vmemOnly : Bool}
    {previous current : RecordedHipLaunch} {commands next : Pm4Commands} (h : commands.Built)
    (hn : emitBoundary settings independent vmemOnly previous current commands = .ok next) :
    next.Built := by
  unfold emitBoundary at hn
  obtain ⟨waited, hwaited, hn⟩ := bind_ok hn
  have hbuilt : waited.Built := by
    cases independent with
    | true =>
      cases hwaited
      exact h
    | false => exact h.waitComputeIdle hwaited
  split at hn
  · cases hn
    exact hbuilt.acquireInterNode settings vmemOnly
  · cases hn
    exact hbuilt

theorem emitBefore_built {settings : Pm4Settings} {boundaries : Boundaries}
    {previous : Option RecordedHipLaunch} {frontier : ResourceFrontier} {commands bounded : Pm4Commands}
    {current : RecordedHipLaunch} {resources : Bool} (h : commands.Built)
    (hn : emitBefore settings boundaries previous frontier commands current = .ok (resources, bounded)) :
    bounded.Built := by
  unfold emitBefore at hn
  split at hn
  · cases hn
    exact h
  · cases hn
    exact h
  · obtain ⟨bounded', hb, hn⟩ := bind_ok hn
    cases hn
    exact emitBoundary_built h (liftCommand_ok hb)

theorem emitLaunches_built {settings : Pm4Settings} {boundaries : Boundaries}
    {previous : Option RecordedHipLaunch} {frontier : ResourceFrontier} {commands next : Pm4Commands}
    {items : List TapeLaunch} (h : commands.Built)
    (hn : emitLaunches settings boundaries previous frontier commands items = .ok next) :
    next.Built := by
  induction items generalizing previous frontier commands with
  | nil =>
    cases hn
    exact h
  | cons item items ih =>
    unfold emitLaunches at hn
    obtain ⟨⟨resources, bounded⟩, hb, hn⟩ := bind_ok hn
    obtain ⟨dispatched, hd, hn⟩ := bind_ok hn
    exact ih ((emitBefore_built h hb).dispatch (liftDispatch_ok hd)) hn

theorem singleIbCommands_built {settings : Pm4Settings} {mode : LegacyDependencyMode}
    {items : List TapeLaunch} {commands : Pm4Commands}
    (h : singleIbCommands settings mode items = .ok commands) :
    commands.Built ∧ commands.isGfx12 = decide (settings.architecture = .gfx12) := by
  obtain ⟨reset, hreset, h⟩ := bind_ok h
  obtain ⟨emitted, hemitted, h⟩ := bind_ok h
  obtain ⟨hnew, hgfx⟩ := Pm4Commands.newWithDependency_built settings mode
  obtain ⟨hresetBuilt, hresetGfx⟩ := hnew.emitEntrySentinelReset (liftCommand_ok hreset)
  have hbuilt := emitLaunches_built (hresetBuilt.acquireEntry settings) hemitted
  obtain ⟨suffix, hrun, -⟩ := emitLaunches_ok () (id : ℕ → ℕ) hemitted
  have hentry : (reset.acquireEntry settings).isGfx12 = reset.isGfx12 := by
    cases reset <;> rfl
  have hfinal := Pm4Commands.waitComputeIdle_ok (liftCommand_ok h)
  refine ⟨hbuilt.waitComputeIdle (liftCommand_ok h), ?_⟩
  rw [hfinal.1, hrun.gfx12, hentry, hresetGfx, hgfx]

section Loads

/-- The registers are those of the launch: its kernel, work-group size and kernargs. -/
def TapeLaunch.Loaded (item : TapeLaunch) (seen : RegisterFile) : Prop :=
  Loads item.kernel item.geometry.workgroup item.kernarg.address seen

theorem Pm4Commands.Built.dispatch_loads {commands next : Pm4Commands} {item : TapeLaunch}
    {dynamicGroupBytes : ℕ} (h : commands.Built)
    (hn : commands.dispatch item.kernel item.geometry dynamicGroupBytes item.kernarg.address = .ok next)
    (file : RegisterFile) :
    ∃ seen, shown file next.packets = shown file commands.packets ++ [seen] ∧ item.Loaded seen := by
  cases commands with
  | legacy architecture buffer mode =>
    simp only [Pm4Commands.dispatch] at hn
    split at hn
    · cases hn
    · rename_i hd
      cases hn
      exact Gfx10Built.dispatch_loads h hd file
  | gfx12 buffer =>
    simp only [Pm4Commands.dispatch] at hn
    split at hn
    · cases hn
    · rename_i hd
      cases hn
      exact Gfx12Built.dispatch_loads h hd file

/-- Packets that dispatch nothing show nothing more. -/
theorem Pm4Commands.Built.shown_append {commands next : Pm4Commands} {ps : List Packet} (h : next.Built)
    (hpackets : next.packets = commands.packets ++ ps) (hanon : dispatches ps = [])
    (file : RegisterFile) : shown file next.packets = shown file commands.packets := by
  have hps : WellFormedStream ps := fun p hp =>
    h.wellFormed p (hpackets ▸ List.mem_append_right commands.packets hp)
  rw [hpackets, Pm4.shown_append, shown_anonymous hps hanon, List.append_nil]

/-- By induction on the launches: one more dispatch for each, with its own registers. -/
theorem emitLaunches_loads {settings : Pm4Settings} {boundaries : Boundaries}
    {previous : Option RecordedHipLaunch} {frontier : ResourceFrontier} {commands next : Pm4Commands}
    {items : List TapeLaunch} (h : commands.Built)
    (hn : emitLaunches settings boundaries previous frontier commands items = .ok next)
    (file : RegisterFile) :
    ∃ seen, shown file next.packets = shown file commands.packets ++ seen ∧
      List.Forall₂ TapeLaunch.Loaded items seen := by
  induction items generalizing previous frontier commands with
  | nil =>
    cases hn
    exact ⟨[], (List.append_nil _).symm, .nil⟩
  | cons item items ih =>
    unfold emitLaunches at hn
    obtain ⟨⟨resources, bounded⟩, hb, hn⟩ := bind_ok hn
    obtain ⟨dispatched, hd, hn⟩ := bind_ok hn
    have hbounded := emitBefore_built h hb
    obtain ⟨-, block, quiet, hpackets, hquiet, -, hanon, -⟩ := emitBefore_ok hb
    obtain ⟨first, hfirst, hloaded⟩ := hbounded.dispatch_loads (liftDispatch_ok hd) file
    obtain ⟨rest, hrest, hall⟩ := ih (hbounded.dispatch (liftDispatch_ok hd)) hn
    have hbefore : dispatches (block ++ quiet) = [] := by
      rw [dispatches_append, hanon, dispatches_quiet hquiet]
      rfl
    refine ⟨first :: rest, ?_, .cons hloaded hall⟩
    rw [hrest, hfirst, hbounded.shown_append hpackets hbefore, List.append_assoc]
    rfl

end Loads
end Hipscope.Replay
