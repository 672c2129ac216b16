import Hipscope.Replay.BuiltCommands
import Hipscope.Queue.Fence

/-! The retained single-buffer tape keeps every recorded dependency: reordering
keeps conflicting launches in recorded order, and every conflicting pair has a
compute-idle wait between its dispatches. -/
namespace Hipscope.Replay
open Redline Pm4 Queue Hipscope.Lists

/-- What a launch of the tape is made of: the loaded kernel, the geometry and the kernargs of one
recorded launch. -/
structure LoweredFrom (env : Pm4Environment) (index : ℕ) (launch : RecordedHipLaunch)
    (item : TapeLaunch) : Prop where
  index_eq : item.index = index
  launch_eq : item.launch = launch
  kernel : ∃ artifact, launch.artifact = some artifact ∧
    env.load artifact (launch.kernel ++ ".kd") = .ok item.kernel
  geometry : LaunchGeometry.fromHipWorkgroups launch.grid launch.block = .ok item.geometry
  kernarg : ∃ buffer, env.pool.allocateFor index item.kernel.metadata = .ok buffer ∧
    populateKernarg buffer launch item.kernel.metadata.kernargSegmentSize = .ok item.kernarg ∧
    item.kernarg.address = buffer.address

theorem populateKernarg_address {destination kernarg : Aql.KernargBuffer} {launch : RecordedHipLaunch}
    {loaderBytes : ℕ} (h : populateKernarg destination launch loaderBytes = .ok kernarg) :
    kernarg.address = destination.address := by
  obtain ⟨⟨base, hasImplicit⟩, -, h⟩ := bind_ok h
  dsimp only at h
  split at h
  · cases h
  split at h
  · cases h
    rfl
  split at h
  · cases h
  · obtain ⟨bytes, -, h⟩ := bind_ok h
    cases h
    rfl

theorem lowerLaunch_ok {env : Pm4Environment} {index : ℕ} {launch : RecordedHipLaunch}
    {item : TapeLaunch} (h : lowerLaunch env index launch = .ok item) :
    LoweredFrom env index launch item := by
  unfold lowerLaunch at h
  dsimp only at h
  split at h
  · cases h
  rename_i artifact hartifact
  split at h
  · cases h
  rename_i kernel hload
  split at h
  · cases h
  rename_i buffer hbuffer
  obtain ⟨kernarg, hkernarg, h⟩ := bind_ok h
  split at h
  · cases h
  split at h
  · cases h
  rename_i hgeometry
  split at h
  · cases h
  split at h
  · cases h
  cases h
  exact ⟨rfl, rfl, ⟨artifact, hartifact, hload⟩, hgeometry,
    ⟨buffer, hbuffer, hkernarg, populateKernarg_address hkernarg⟩⟩

/-- The tape holds the recorded launches at their recorded indices. -/
theorem lowerTape_ok {env : Pm4Environment} {recorded : List RecordedHipLaunch}
    {tape : List TapeLaunch} (h : lowerTape env recorded = .ok tape) {index : ℕ} {item : TapeLaunch}
    (hi : tape[index]? = some item) :
    recorded[index]? = some item.launch ∧ LoweredFrom env index item.launch item := by
  obtain ⟨⟨launch, at_⟩, hat, hitem⟩ := mapM_getElem? h hi
  have hlowered := lowerLaunch_ok hitem
  rw [List.getElem?_zipIdx, Option.map_eq_some_iff] at hat
  obtain ⟨recorded', hrecorded, heq⟩ := hat
  obtain ⟨rfl, rfl⟩ := Prod.mk.inj heq
  obtain rfl := hlowered.launch_eq
  exact ⟨hrecorded, by simpa using hlowered⟩

theorem pick_ok {tape items : List TapeLaunch} {indices : List ℕ} (h : pick tape indices = .ok items) :
    List.Forall₂ (fun index item => tape[index]? = some item) indices items := by
  refine (mapM_forall₂ h).imp fun index item hi => ?_
  split at hi
  · cases hi
  · rename_i found hfound
    cases hi
    exact hfound

theorem pick_indices {env : Pm4Environment} {recorded : List RecordedHipLaunch}
    {tape items : List TapeLaunch} {indices : List ℕ} (htape : lowerTape env recorded = .ok tape)
    (h : pick tape indices = .ok items) : items.map TapeLaunch.index = indices := by
  have hall : List.Forall₂ (fun index item => index = TapeLaunch.index item) indices items :=
    (pick_ok h).imp fun index item hi => (lowerTape_ok htape hi).2.index_eq.symm
  rw [← List.forall₂_map_right_iff, List.forall₂_eq_eq_eq] at hall
  exact hall.symm

/-- A picked launch is the one of the tape at its index. -/
theorem pick_tape {env : Pm4Environment} {recorded : List RecordedHipLaunch}
    {tape items : List TapeLaunch} {indices : List ℕ} (htape : lowerTape env recorded = .ok tape)
    (h : pick tape indices = .ok items) {item : TapeLaunch} (hi : item ∈ items) :
    tape[item.index]? = some item := by
  obtain ⟨slot, hslot⟩ := List.mem_iff_getElem?.mp hi
  obtain ⟨index, -, hitem⟩ := mapM_getElem? h hslot
  split at hitem
  · cases hitem
  · rename_i found hfound
    cases hitem
    rw [(lowerTape_ok htape hfound).2.index_eq]
    exact hfound

/-- Conflicting launches stand in recorded order in any order that respects them. -/
theorem Respects.pair {recorded : List RecordedHipLaunch} {order : List ℕ}
    (h : Respects recorded order) (hperm : order.Perm (List.range recorded.length)) {i j : ℕ}
    (hij : i < j) {left right : RecordedHipLaunch} (hi : recorded[i]? = some left)
    (hj : recorded[j]? = some right) (hdep : launchesAreIndependent left right = false) :
    [i, j].Sublist order := by
  have mem {k : ℕ} {l : RecordedHipLaunch} (hk : recorded[k]? = some l) : k ∈ order :=
    hperm.mem_iff.mpr (List.mem_range.mpr (List.getElem?_eq_some_iff.mp hk).1)
  refine (pair_sublist (mem hi) (mem hj) hij.ne).resolve_right fun hji => ?_
  have hpair := h.sublist hji
  rw [List.pairwise_cons] at hpair
  have := hpair.1 i (by simp) hij
  rw [(dependentAt_iff hi hj).mpr hdep] at this
  cases this

theorem emissionOrder_spec (env : Pm4Environment) (recorded : List RecordedHipLaunch) :
    (emissionOrder env recorded).Perm (List.range recorded.length) ∧
      Respects recorded (emissionOrder env recorded) := by
  unfold emissionOrder
  split
  · exact ⟨.refl _, respects_range recorded _⟩
  · exact pm4WidthReorder_spec recorded _

/-- The stream before the first launch: nothing to wait for, or a reset of the
fence word. -/
inductive Opened (commands : Pm4Commands) : Prop
  | flush (hmode : commands.mode = .csPartialFlush) (hquiet : ∀ p ∈ commands.packets, p.Quiet)
  | release (address : ℕ) (hmode : commands.mode = .releaseWait address 0)
      (before after : List Packet) (hbefore : ∀ p ∈ before, p.Quiet) (hafter : ∀ p ∈ after, p.Quiet)
      (hpackets : commands.packets = before ++ ([.releaseMem address 0, .waitRegMem address 0] ++ after))

private theorem new_quiet (settings : Pm4Settings) (mode : LegacyDependencyMode) :
    ∀ p ∈ (Pm4Commands.newWithDependency settings mode).packets, p.Quiet := by
  have legacy (buffer : Gfx10Pm4CommandBuffer) (hb : buffer.packets = []) :
      ∀ p ∈ (buffer.withDispatchInterleave settings.dispatchInterleave).packets, p.Quiet := by
    intro p hp
    cases hi : settings.dispatchInterleave with
    | none => simp [Gfx10Pm4CommandBuffer.withDispatchInterleave, hi, hb] at hp
    | some interleave =>
      obtain ⟨regs, hregs, hwrite⟩ :=
        buffer.setShRegs_prepares (0x22f, [interleave.threads]) (by simp)
      simp only [Gfx10Pm4CommandBuffer.withDispatchInterleave, hi, hregs, hb,
        List.nil_append] at hp
      exact (hwrite p hp).quiet
  intro p hp
  unfold Pm4Commands.newWithDependency at hp
  cases hr : settings.registerPolicy <;> cases ha : settings.architecture <;>
    simp only [hr, ha] at hp
  all_goals first
    | exact legacy _ rfl p hp
    | simp [Pm4Commands.packets, Gfx12Pm4CommandBuffer.new, Gfx12Pm4CommandBuffer.newStateful,
        Gfx12Pm4CommandBuffer.newStaticStateful] at hp

theorem Pm4Commands.acquireEntry_packets (settings : Pm4Settings) (commands : Pm4Commands) :
    (commands.acquireEntry settings).mode = commands.mode ∧
      (commands.acquireEntry settings).isGfx12 = commands.isGfx12 ∧
      ∃ quiet, (∀ p ∈ quiet, p.Quiet) ∧
        (commands.acquireEntry settings).packets = commands.packets ++ quiet := by
  cases commands with
  | legacy architecture buffer mode =>
    refine ⟨rfl, rfl, ?_⟩
    simp only [acquireEntry]
    split
    · exact ⟨[.acquireMem 0xff 4 0x1c3f1], by simp [Packet.Quiet], rfl⟩
    · exact ⟨[.acquireMem 0x00ffffff 10 0x00380], by simp [Packet.Quiet], rfl⟩
    · exact ⟨[.acquireMem 0x00ffffff 10 0x00300], by simp [Packet.Quiet], rfl⟩
    · exact ⟨[], by simp, by simp [packets]⟩
  | gfx12 buffer =>
    refine ⟨rfl, rfl, ?_⟩
    simp only [acquireEntry]
    split
    · exact ⟨[.acquireMem 0xff 4 0x1c1d1], by simp [Packet.Quiet], rfl⟩
    · exact ⟨[.acquireMem 0xff 4 0x1c3f1], by simp [Packet.Quiet], rfl⟩

private theorem quiet_append {ps qs : List Packet} (hp : ∀ p ∈ ps, p.Quiet) (hq : ∀ p ∈ qs, p.Quiet) :
    ∀ p ∈ ps ++ qs, p.Quiet :=
  fun p h => (List.mem_append.mp h).elim (hp p) (hq p)

/-- Before the first launch the fence word is reset, if there is one. -/
theorem opened_entry {settings : Pm4Settings} {mode : LegacyDependencyMode} {reset : Pm4Commands}
    (h : (Pm4Commands.newWithDependency settings mode).emitEntrySentinelReset = .ok reset) :
    Opened (reset.acquireEntry settings) := by
  obtain ⟨hmode, -, quiet, hquiet, hpackets⟩ := reset.acquireEntry_packets settings
  have hnew := new_quiet settings mode
  generalize Pm4Commands.newWithDependency settings mode = commands at h hnew
  cases commands with
  | legacy architecture buffer mode =>
    cases mode with
    | csPartialFlush =>
      cases h
      refine .flush hmode ?_
      rw [hpackets]
      exact quiet_append hnew hquiet
    | releaseWait address epoch =>
      simp only [Pm4Commands.emitEntrySentinelReset] at h
      split at h
      · cases h
      · rename_i hepoch
        obtain rfl : epoch = 0 := by simpa using hepoch
        cases h
        refine .release address hmode _ _ hnew hquiet ?_
        rw [hpackets]
        simp [Pm4Commands.packets, Gfx10Pm4CommandBuffer.dependencyFence,
          Gfx10Pm4CommandBuffer.releaseMemoryValue, Gfx10Pm4CommandBuffer.waitMemoryValue,
          Gfx10Pm4CommandBuffer.push]
  | gfx12 buffer =>
    cases h
    refine .flush hmode ?_
    rw [hpackets]
    exact quiet_append hnew hquiet

theorem Opened.dispatches {commands : Pm4Commands} (h : Opened commands) :
    dispatches commands.packets = [] := by
  cases h with
  | flush _ hquiet => exact dispatches_quiet hquiet
  | release address _ before after hbefore hafter hpackets =>
    rw [hpackets, dispatches_append, dispatches_append, dispatches_quiet hbefore,
      dispatches_quiet hafter]
    rfl

section Order
variable {Q S : Type} {queue : Q} {word : ℕ → S}

/-- The parts of a single-buffer stream. -/
theorem singleIbCommands_ok (queue : Q) (word : ℕ → S) {settings : Pm4Settings}
    {mode : LegacyDependencyMode} {items : List TapeLaunch} {commands : Pm4Commands}
    (h : singleIbCommands settings mode items = .ok commands) :
    ∃ opened emitted suffix final, Opened opened ∧ EmittedRun opened emitted items suffix ∧
      commands.packets = opened.packets ++ (suffix ++ final) ∧ dispatches final = [] ∧
      commands.isGfx12 = opened.isGfx12 ∧ Advances opened.mode commands.mode (suffix ++ final) ∧
      (settings.waitPolicy = .resource → Blocked queue word opened.mode [] items
        (streamLog queue word (items.map TapeLaunch.index) suffix)) := by
  obtain ⟨reset, hreset, h⟩ := bind_ok h
  obtain ⟨emitted, hemitted, h⟩ := bind_ok h
  obtain ⟨suffix, hrun, hblocked⟩ := emitLaunches_ok queue word hemitted
  obtain ⟨hgfx, final, hfinal, hidle, hadv⟩ := Pm4Commands.waitComputeIdle_ok (liftCommand_ok h)
  refine ⟨_, emitted, suffix, final, opened_entry (liftCommand_ok hreset), hrun, ?_,
    hidle.dispatches, hgfx.trans hrun.gfx12, hrun.advances.trans hadv, fun hp => ?_⟩
  · rw [hfinal, hrun.packets, List.append_assoc]
  · exact hblocked (.inr ⟨rfl, hp⟩) [] (fun _ l hl => by simp at hl) fun _ => rfl

private theorem epochs_nodup (c : S) {n : ℕ} (hn : n < 2 ^ 32) :
    ((c, (0 : UInt32)) :: (List.range' 1 n).map fun e => (c, UInt32.ofNat e)).Nodup := by
  have hinj : ∀ a ∈ List.range (n + 1), ∀ b ∈ List.range (n + 1),
      (c, UInt32.ofNat a) = (c, UInt32.ofNat b) → a = b := by
    intro a ha b hb hab
    have hab := congrArg UInt32.toNat (Prod.mk.inj hab).2
    rw [List.mem_range] at ha hb
    simpa [Nat.mod_eq_of_lt (show a < 4294967296 by omega),
      Nat.mod_eq_of_lt (show b < 4294967296 by omega)] using hab
  have hnodup := List.nodup_range.map_on hinj
  rwa [List.range_eq_range', List.range'_succ, List.map_cons] at hnodup

private theorem ofNat_ne_zero {e : ℕ} (h0 : 0 < e) (h : e < 2 ^ 32) : UInt32.ofNat e ≠ 0 := by
  intro he
  have hnat := congrArg UInt32.toNat he
  have hmod : e % 2 ^ 32 = 0 := by simpa using hnat
  rw [Nat.mod_eq_of_lt h] at hmod
  omega

variable [DecidableEq Q] [DecidableEq S]

/-- In every execution of the stream, dependent launches finish in list order. -/
theorem singleIb_finishesBefore {settings : Pm4Settings} {mode : LegacyDependencyMode}
    {items : List TapeLaunch} {commands : Pm4Commands}
    (h : singleIbCommands settings mode items = .ok commands)
    (hpolicy : settings.waitPolicy = .resource) (hnodup : (items.map TapeLaunch.index).Nodup)
    {a b : TapeLaunch} (hab : [a, b].Sublist items)
    (hdep : launchesAreIndependent a.launch b.launch = false) (mem : S → UInt32) :
    FinishesBefore (streamLog queue word (items.map TapeLaunch.index) commands.packets) mem
      (some a.index) (some b.index) := by
  obtain ⟨opened, emitted, suffix, final, hopened, hrun, hpackets, hfinal, -, hadv, hblocked⟩ :=
    singleIbCommands_ok queue word h
  obtain ⟨block, hblock, hsub⟩ := (hblocked hpolicy).between a b hab hdep
  have hcount : (dispatches commands.packets).length = (items.map TapeLaunch.index).length := by
    rw [hpackets, dispatches_append, dispatches_append, hopened.dispatches, hfinal]
    simpa using hrun.names_length
  have honce (n : ℕ) : Once (streamLog queue word (items.map TapeLaunch.index) commands.packets)
      (some n) :=
    once_of_tags (by rwa [streamLog_tags hcount]) n
  have hlog : streamLog queue word (items.map TapeLaunch.index) commands.packets =
      plainLog queue word opened.packets ++
        (streamLog queue word (items.map TapeLaunch.index) suffix ++ plainLog queue word final) := by
    have hfront : streamLog queue word ([] ++ items.map TapeLaunch.index)
        (opened.packets ++ (suffix ++ final)) = _ := streamLog_append (by simp [hopened.dispatches])
    have hback : streamLog queue word (items.map TapeLaunch.index ++ []) (suffix ++ final) = _ :=
      streamLog_append hrun.names_length
    rw [List.append_nil] at hback
    rw [List.nil_append] at hfront
    rw [hpackets, hfront, hback, streamLog_anonymous hopened.dispatches, streamLog_anonymous hfinal]
    rfl
  have hmid : (jobEntry queue a.index :: (plainLog queue word block ++ [jobEntry queue b.index])).Sublist
      (streamLog queue word (items.map TapeLaunch.index) suffix ++ plainLog queue word final) :=
    hsub.trans (List.sublist_append_left _ _)
  cases hopened with
  | flush hmode hquiet =>
    rw [hmode] at hblock
    obtain rfl : block = _ := hblock
    refine finishesBefore_of_drain (honce _) (honce _) ?_ rfl rfl rfl rfl rfl
      (d := ⟨queue, none, .drain⟩) (a := jobEntry queue a.index) (b := jobEntry queue b.index)
    rw [hlog]
    exact hmid.trans (List.sublist_append_right _ _)
  | release address hmode before after hbefore hafter hopen =>
    rw [hmode] at hblock hadv
    obtain ⟨e, he, hbound, rfl⟩ := hblock
    obtain ⟨hle, hn, hwrites⟩ : ∃ n, n < 2 ^ 32 ∧ wordWrites (suffix ++ final) =
        (List.range' 1 n).map fun e => (address, UInt32.ofNat e) := by
      generalize commands.mode = mode' at hadv
      cases hadv with
      | release _ hbound hw => exact ⟨_, hbound (by omega), hw⟩
    refine finishesBefore_of_fence ?_ (honce _) (honce _) ?_ rfl rfl (q := queue) ?_ rfl rfl rfl
      (ofNat_ne_zero he hbound) (z := ⟨queue, none, .await (word address) 0⟩)
      (a := jobEntry queue a.index) (b := jobEntry queue b.index)
      (r := ⟨queue, none, .release (word address) (UInt32.ofNat e)⟩)
      (w := ⟨queue, none, .await (word address) (UInt32.ofNat e)⟩) (c := word address)
    · rw [streamLog_writes, hpackets, wordWrites_append, hwrites, hopen, wordWrites_append,
        wordWrites_append, wordWrites_quiet hbefore, wordWrites_quiet hafter]
      have hreset : wordWrites [.releaseMem address 0, .waitRegMem address 0] = [(address, 0)] := rfl
      simpa [hreset, Function.comp_def] using epochs_nodup (word address) hn
    · rw [hlog]
      rw [← List.singleton_append]
      refine List.Sublist.append ?_ hmid
      refine List.singleton_sublist.mpr (List.mem_map.mpr ⟨.waitRegMem address 0, ?_, rfl⟩)
      simp [hopen]
    · simp [jobEntry]

end Order

/-- The stream dispatches the picked launches in order, with their own dimensions. -/
theorem singleIbCommands_dispatches {settings : Pm4Settings} {mode : LegacyDependencyMode}
    {items : List TapeLaunch} {commands : Pm4Commands}
    (h : singleIbCommands settings mode items = .ok commands) :
    List.Forall₂ (fun item dims => dimensions commands.isGfx12 item.geometry = .ok dims) items
      (dispatches commands.packets) := by
  obtain ⟨opened, emitted, suffix, final, hopened, hrun, hpackets, hfinal, hgfx, -⟩ :=
    singleIbCommands_ok () (id : ℕ → ℕ) h
  rw [hpackets, dispatches_append, dispatches_append, hopened.dispatches, hfinal, hgfx]
  simpa using hrun.dims

/-- The dispatches of the stream find the picked launches in the registers, in order. -/
theorem singleIbCommands_loads {settings : Pm4Settings} {mode : LegacyDependencyMode}
    {items : List TapeLaunch} {commands : Pm4Commands}
    (h : singleIbCommands settings mode items = .ok commands) (file : RegisterFile) :
    ∃ seen, execute file (encodeStream commands.packets) = .ok seen ∧
      List.Forall₂ TapeLaunch.Loaded items seen := by
  have hbuilt := (singleIbCommands_built h).1
  obtain ⟨reset, hreset, h⟩ := bind_ok h
  obtain ⟨emitted, hemitted, h⟩ := bind_ok h
  have hreset := liftCommand_ok hreset
  have hentry : (reset.acquireEntry settings).Built :=
    ((Pm4Commands.newWithDependency_built settings mode).1.emitEntrySentinelReset hreset).1.acquireEntry
      settings
  obtain ⟨-, final, hfinal, hidle, -⟩ := Pm4Commands.waitComputeIdle_ok (liftCommand_ok h)
  obtain ⟨seen, hseen, hall⟩ := emitLaunches_loads hentry hemitted file
  have hopened := shown_anonymous hentry.wellFormed (opened_entry hreset).dispatches file
  refine ⟨seen, ?_, hall⟩
  rw [execute_encodeStream hbuilt.wellFormed, hbuilt.shown_append hfinal hidle.dispatches, hseen,
    hopened, List.nil_append]

/-- The commands of the retained stream, its dispatches named by recorded index. -/
def SingleIb.log (ib : SingleIb) : List (Entry Unit (Option ℕ) ℕ UInt32) :=
  streamLog () id ib.order ib.commands.packets

/-- What preparation builds. -/
structure Prepared (env : Pm4Environment) (recorded : List RecordedHipLaunch) (ib : SingleIb)
    (items : List TapeLaunch) : Prop where
  tape : lowerTape env recorded = .ok ib.tape
  order : ib.order = emissionOrder env recorded
  picked : pick ib.tape ib.order = .ok items
  commands : ∃ mode, singleIbCommands env.settings mode items = .ok ib.commands

theorem prepareSingleIb_ok {env : Pm4Environment} {recorded : List RecordedHipLaunch} {count : ℕ}
    {ib : SingleIb} (h : prepareSingleIb env recorded count = .ok ib) :
    count ≤ recorded.length ∧ ∃ items, Prepared env (recorded.take count) ib items := by
  unfold prepareSingleIb at h
  split at h
  · cases h
  split at h
  · cases h
  rename_i hcount
  obtain ⟨tape, htape, h⟩ := bind_ok h
  obtain ⟨mode, -, h⟩ := bind_ok h
  obtain ⟨items, hitems, h⟩ := bind_ok h
  obtain ⟨commands, hcommands, h⟩ := bind_ok h
  cases h
  refine ⟨by omega, items, htape, rfl, hitems, mode, hcommands⟩

/-- A recorded launch and the dimension dwords of its dispatch: those the
encoder writes for the recorded grid. -/
def DispatchOf (gfx12 : Bool) (recorded : List RecordedHipLaunch) (index : ℕ) (dims : List UInt32) :
    Prop :=
  ∃ launch geometry, recorded[index]? = some launch ∧
    LaunchGeometry.fromHipWorkgroups launch.grid launch.block = .ok geometry ∧
    dimensions gfx12 geometry = .ok dims

theorem Prepared.recorded {env : Pm4Environment} {recorded : List RecordedHipLaunch} {ib : SingleIb}
    {items : List TapeLaunch} (h : Prepared env recorded ib items) {item : TapeLaunch} (hi : item ∈ items) :
    recorded[item.index]? = some item.launch ∧ LoweredFrom env item.index item.launch item :=
  lowerTape_ok h.tape (pick_tape h.tape h.picked hi)

theorem Prepared.dispatched {env : Pm4Environment} {recorded : List RecordedHipLaunch} {ib : SingleIb}
    {items : List TapeLaunch} (h : Prepared env recorded ib items) :
    List.Forall₂ (DispatchOf ib.commands.isGfx12 recorded) ib.order
      (dispatches ib.commands.packets) := by
  obtain ⟨mode, hcommands⟩ := h.commands
  have hdims := singleIbCommands_dispatches hcommands
  rw [← pick_indices h.tape h.picked, List.forall₂_map_left_iff]
  refine ((List.forall₂_and_left items _).mpr ⟨fun item hi => h.recorded hi, hdims⟩).imp ?_
  rintro item dims ⟨⟨hlaunch, hlowered⟩, hdims⟩
  exact ⟨item.launch, item.geometry, hlaunch, hlowered.geometry, hdims⟩

/-- The registers are those of the launch at an index of the tape. -/
def SingleIb.Shows (ib : SingleIb) (index : ℕ) (seen : RegisterFile) : Prop :=
  ∃ item, ib.tape[index]? = some item ∧ item.Loaded seen

/-- Each dispatch finds the tape's launch at its index in the registers. -/
theorem Prepared.shows {env : Pm4Environment} {recorded : List RecordedHipLaunch} {ib : SingleIb}
    {items : List TapeLaunch} (h : Prepared env recorded ib items) (file : RegisterFile) :
    ∃ seen, execute file (encodeStream ib.commands.packets) = .ok seen ∧
      List.Forall₂ ib.Shows ib.order seen := by
  obtain ⟨mode, hcommands⟩ := h.commands
  obtain ⟨seen, hseen, hall⟩ := singleIbCommands_loads hcommands file
  refine ⟨seen, hseen, ?_⟩
  rw [← pick_indices h.tape h.picked, List.forall₂_map_left_iff]
  refine ((List.forall₂_and_left items _).mpr
    ⟨fun item hi => pick_tape h.tape h.picked hi, hall⟩).imp ?_
  rintro item seen ⟨htape, hloaded⟩
  exact ⟨item, htape, hloaded⟩

/-- The names of the dispatches are the emitted indices. -/
theorem Prepared.log_tags {env : Pm4Environment} {recorded : List RecordedHipLaunch} {ib : SingleIb}
    {items : List TapeLaunch} (h : Prepared env recorded ib items) :
    ib.log.filterMap (fun e => e.tag) = ib.order :=
  streamLog_tags h.dispatched.length_eq.symm

theorem Prepared.order_spec {env : Pm4Environment} {recorded : List RecordedHipLaunch} {ib : SingleIb}
    {items : List TapeLaunch} (h : Prepared env recorded ib items) :
    ib.order.Perm (List.range recorded.length) ∧ Respects recorded ib.order := by
  rw [h.order]
  exact emissionOrder_spec env recorded

/-- Dependent launches finish in recorded order. -/
theorem Prepared.finishesBefore {env : Pm4Environment} {recorded : List RecordedHipLaunch}
    {ib : SingleIb} {items : List TapeLaunch} (h : Prepared env recorded ib items)
    (hpolicy : env.settings.waitPolicy = .resource) {i j : ℕ} {left right : RecordedHipLaunch}
    (hij : i < j) (hi : recorded[i]? = some left) (hj : recorded[j]? = some right)
    (hdep : launchesAreIndependent left right = false) (mem : ℕ → UInt32) :
    FinishesBefore ib.log mem (some i) (some j) := by
  obtain ⟨mode, hcommands⟩ := h.commands
  obtain ⟨hperm, hrespects⟩ := h.order_spec
  have hindices := pick_indices h.tape h.picked
  have hpair := hrespects.pair hperm hij hi hj hdep
  rw [← hindices, List.sublist_map_iff] at hpair
  obtain ⟨picked, hpicked, heq⟩ := hpair
  obtain ⟨a, b, rfl⟩ : ∃ a b, picked = [a, b] :=
    List.length_eq_two.mp (by simpa using (congrArg List.length heq).symm)
  obtain ⟨rfl, rfl⟩ : i = a.index ∧ j = b.index := by simpa using heq
  have hleft := (h.recorded (hpicked.subset (by simp : a ∈ [a, b]))).1
  have hright := (h.recorded (hpicked.subset (by simp : b ∈ [a, b]))).1
  rw [hi, Option.some.injEq] at hleft
  rw [hj, Option.some.injEq] at hright
  rw [SingleIb.log, ← hindices]
  refine singleIb_finishesBefore hcommands hpolicy ?_ hpicked (by rwa [← hleft, ← hright]) mem
  rw [hindices]
  exact hperm.nodup_iff.mpr List.nodup_range

/-- The retained stream dispatches a permutation of the recorded prefix, each with the kernel, the kernargs
and the geometry of its own launch, keeps every recorded dependency in every execution, and the reordering
neither falls back nor moves a launch by a window. -/
theorem prepareSingleIb_ordered (env : Pm4Environment) (recorded : List RecordedHipLaunch)
    (count : ℕ) (hpolicy : env.settings.waitPolicy = .resource) (ib : SingleIb)
    (h : prepareSingleIb env recorded count = .ok ib) :
    ib.order.Perm (List.range count) ∧
      ib.log.filterMap (fun e => e.tag) = ib.order ∧
      List.Forall₂ (DispatchOf ib.commands.isGfx12 recorded) ib.order
        (dispatches ib.commands.packets) ∧
      (∀ file, ∃ seen, execute file (encodeStream ib.commands.packets) = .ok seen ∧
        List.Forall₂ ib.Shows ib.order seen) ∧
      (∀ index item, ib.tape[index]? = some item →
        recorded[index]? = some item.launch ∧ LoweredFrom env index item.launch item) ∧
      (∀ i j left right, i < j → j < count → recorded[i]? = some left → recorded[j]? = some right →
        Conflicting left right → ∀ mem, FinishesBefore ib.log mem (some i) (some j)) ∧
      ∀ (launches : List RecordedHipLaunch) (window : ℕ), 2 ≤ window →
        widthSchedule launches window = .ok (pm4WidthReorder launches window) ∧
          Near window 0 (pm4WidthReorder launches window) := by
  obtain ⟨hcount, items, hprepared⟩ := prepareSingleIb_ok h
  have hlen : (recorded.take count).length = count := by simpa using hcount
  have hfront {index : ℕ} {launch : RecordedHipLaunch}
      (hlaunch : (recorded.take count)[index]? = some launch) : recorded[index]? = some launch := by
    rw [List.getElem?_take] at hlaunch
    split at hlaunch
    · exact hlaunch
    · cases hlaunch
  obtain ⟨hperm, -⟩ := hprepared.order_spec
  rw [hlen] at hperm
  refine ⟨hperm, hprepared.log_tags, ?_, hprepared.shows, fun index item hitem => ?_, ?_,
    fun launches window => pm4WidthReorder_scheduled launches⟩
  · refine hprepared.dispatched.imp fun index dims hd => ?_
    obtain ⟨launch, geometry, hlaunch, hrest⟩ := hd
    exact ⟨launch, geometry, hfront hlaunch, hrest⟩
  · obtain ⟨hlaunch, hlowered⟩ := lowerTape_ok hprepared.tape hitem
    exact ⟨hfront hlaunch, hlowered⟩
  · intro i j left right hij hj hleft hright hconflict mem
    refine hprepared.finishesBefore hpolicy hij ?_ ?_ hconflict.dependent mem
    · rwa [List.getElem?_take_of_lt (by omega)]
    · rwa [List.getElem?_take_of_lt hj]

section Example

/-- A launch that touches one allocation. -/
def touchLaunch (base : ℕ) (mode : RecordedAccessMode) : RecordedHipLaunch :=
  ⟨"copy", some "copy.hsaco", ⟨2, 1, 1⟩, ⟨64, 1, 1⟩, 0, none, [1, 2, 3, 4, 5, 6, 7, 8],
    (RecordedResourceAccess.new base 64 mode).map ([·])⟩

/-- A producer, its consumer, and a launch independent of both. -/
def producerConsumer : List RecordedHipLaunch :=
  [touchLaunch 4096 .write, touchLaunch 4096 .read, touchLaunch 8192 .write]

def copyKernel : Kernel :=
  ⟨⟨"copy", 7, ⟨1, 8, 8, 0, 0, false⟩⟩, some ⟨4096, 0, 0, 0, 0x408⟩⟩

def gfx11Settings : Pm4Settings :=
  ⟨.gfx11, .stateful, .legacy, none, .legacy, .system, .entryOnly, .resource, false, false,
    fun _ => false⟩

def gfx11Environment : Pm4Environment :=
  ⟨Aql.smallDevice, ⟨7, 64, 64, fun request _ => .ok (4096 * (request + 1))⟩,
    fun _ _ => .ok copyKernel, gfx11Settings, false, some 3⟩

theorem producerConsumer_ordered : ∃ ib,
    prepareSingleIb gfx11Environment producerConsumer 3 = .ok ib ∧ ib.order = [0, 2, 1] ∧
      ∀ mem, FinishesBefore ib.log mem (some 0) (some 1) := by
  obtain ⟨-, -, -, -, -, hbefore, -⟩ :=
    prepareSingleIb_ordered gfx11Environment producerConsumer 3 rfl _ rfl
  refine ⟨_, rfl, rfl, hbefore 0 1 _ _ (by decide) (by decide) rfl rfl (.inr (.inr ?_))⟩
  exact ⟨_, _, rfl, rfl, _, List.mem_singleton_self _, _, List.mem_singleton_self _,
    ⟨4096, ⟨le_rfl, by decide⟩, ⟨le_rfl, by decide⟩⟩, .inl rfl⟩

end Example
end Hipscope.Replay
