import Hipscope.Replay.Emission

/-! What an emitted stream looks like: one dispatch per launch, and a
compute-idle wait between any two launches that are not independent. -/
namespace Hipscope.Replay
open Redline Pm4 Queue

/-- The boundaries follow the resource frontier. -/
def Boundaries.Waits (boundaries : Boundaries) (settings : Pm4Settings) : Prop :=
  boundaries = .frontier ∨ boundaries = .waitPolicy ∧ settings.waitPolicy = .resource

theorem Boundaries.Waits.independent {boundaries : Boundaries} {settings : Pm4Settings}
    (h : boundaries.Waits settings) (previous current : RecordedHipLaunch) (resources : Bool) :
    boundaries.independent settings previous current resources = resources := by
  rcases h with rfl | ⟨rfl, hp⟩
  · rfl
  · simp [Boundaries.independent, hp]

theorem liftCommand_ok {α : Type} {x : Except Pm4CommandError α} {a : α}
    (h : liftCommand x = .ok a) : x = .ok a := by
  cases x <;> simp_all [liftCommand]

theorem liftDispatch_ok {α : Type} {kernel : String} {x : Except Pm4CommandError α} {a : α}
    (h : liftDispatch kernel x = .ok a) : x = .ok a := by
  cases x <;> simp_all [liftDispatch]

/-- A boundary is a wait, unless the launches are independent, and acquires. -/
theorem emitBoundary_ok {settings : Pm4Settings} {independent vmemOnly : Bool}
    {previous current : RecordedHipLaunch} {commands commands' : Pm4Commands}
    (h : emitBoundary settings independent vmemOnly previous current commands = .ok commands') :
    commands'.isGfx12 = commands.isGfx12 ∧ ∃ block quiet,
      commands'.packets = commands.packets ++ (block ++ quiet) ∧ (∀ p ∈ quiet, p.Quiet) ∧
      Advances commands.mode commands'.mode block ∧
      (independent = true ∧ block = [] ∨ independent = false ∧ IdleBlock commands.mode block) := by
  unfold emitBoundary at h
  obtain ⟨waited, hwaited, h⟩ := bind_ok h
  have hwait : waited.isGfx12 = commands.isGfx12 ∧ ∃ block,
      waited.packets = commands.packets ++ block ∧ Advances commands.mode waited.mode block ∧
      (independent = true ∧ block = [] ∨ independent = false ∧ IdleBlock commands.mode block) := by
    cases independent with
    | true =>
      cases hwaited
      exact ⟨rfl, [], by simp, .refl rfl _, .inl ⟨rfl, rfl⟩⟩
    | false =>
      obtain ⟨hgfx, block, hpackets, hidle, hadv⟩ := Pm4Commands.waitComputeIdle_ok hwaited
      exact ⟨hgfx, block, hpackets, hadv, .inr ⟨rfl, hidle⟩⟩
  obtain ⟨hgfx, block, hpackets, hadv, hblock⟩ := hwait
  split at h
  · cases h
    obtain ⟨hmode, hgfx', quiet, hquiet, hacquired⟩ :=
      waited.acquireInterNode_packets settings vmemOnly
    refine ⟨hgfx'.trans hgfx, block, quiet, ?_, hquiet, ?_, hblock⟩
    · rw [hacquired, hpackets, List.append_assoc]
    · rwa [hmode]
  · cases h
    exact ⟨hgfx, block, [], by simpa using hpackets, by simp, hadv, hblock⟩

/-- The packets of one launch: what stands before its dispatch, and the dispatch. -/
structure EmittedLaunch (commands next : Pm4Commands) (item : TapeLaunch) (step : List Packet)
    (dims : List UInt32) : Prop where
  gfx12 : next.isGfx12 = commands.isGfx12
  packets : ∃ x y z initiator, dims = [x, y, z] ∧
    next.packets = commands.packets ++ (step ++ [.dispatchDirect x y z initiator])
  dims : dimensions commands.isGfx12 item.geometry = .ok dims
  advances : Advances commands.mode next.mode step
  anonymous : dispatches step = []

private theorem emitted_dispatch {commands bounded next : Pm4Commands} {item : TapeLaunch}
    {block quiet : List Packet} (hgfx : bounded.isGfx12 = commands.isGfx12)
    (hpackets : bounded.packets = commands.packets ++ (block ++ quiet))
    (hquiet : ∀ p ∈ quiet, p.Quiet) (hadv : Advances commands.mode bounded.mode block)
    (hblock : dispatches block = [])
    (h : bounded.dispatch item.kernel item.geometry item.launch.sharedMem item.kernarg.address =
      .ok next) :
    ∃ quiet' dims, EmittedLaunch commands next item (block ++ quiet') dims := by
  obtain ⟨hmode, hgfx', regs, x, y, z, initiator, hregs, hdispatched, hdims⟩ :=
    Pm4Commands.dispatch_ok h
  have hq : ∀ p ∈ quiet ++ regs, p.Quiet := fun p hp =>
    (List.mem_append.mp hp).elim (hquiet p) fun hp => (hregs p hp).quiet
  refine ⟨quiet ++ regs, [x, y, z], ⟨hgfx'.trans hgfx, ⟨x, y, z, initiator, rfl, ?_⟩, ?_, ?_, ?_⟩⟩
  · rw [hdispatched, hpackets]
    simp
  · rwa [hgfx] at hdims
  · rw [hmode]
    exact hadv.trans (.refl (wordWrites_quiet hq) _)
  · rw [dispatches_append, hblock, dispatches_quiet hq]
    rfl

/-- What stands before a dispatch. Under a frontier policy the launch was found
independent, or is the first one, or has a wait before it. -/
theorem emitBefore_ok {settings : Pm4Settings} {boundaries : Boundaries}
    {previous : Option RecordedHipLaunch} {frontier : ResourceFrontier}
    {commands bounded : Pm4Commands} {current : RecordedHipLaunch} {resources : Bool}
    (h : emitBefore settings boundaries previous frontier commands current =
      .ok (resources, bounded)) :
    bounded.isGfx12 = commands.isGfx12 ∧ ∃ block quiet,
      bounded.packets = commands.packets ++ (block ++ quiet) ∧ (∀ p ∈ quiet, p.Quiet) ∧
      Advances commands.mode bounded.mode block ∧ dispatches block = [] ∧
      (boundaries.Waits settings → resources = true ∧ frontier.independent current = true ∨
        resources = false ∧ (previous = none ∨ IdleBlock commands.mode block)) := by
  unfold emitBefore at h
  split at h
  · cases h
    exact ⟨rfl, [], [], by simp, by simp, .refl rfl _, rfl, fun _ => .inr ⟨rfl, .inl rfl⟩⟩
  · cases h
    refine ⟨rfl, [], [], by simp, by simp, .refl rfl _, rfl, fun hw => ?_⟩
    simp [Boundaries.Waits] at hw
  · obtain ⟨bounded', hb, h⟩ := bind_ok h
    cases h
    obtain ⟨hgfx, block, quiet, hpackets, hquiet, hadv, hblock⟩ := emitBoundary_ok (liftCommand_ok hb)
    have hanon : dispatches block = [] := by
      rcases hblock with ⟨-, rfl⟩ | ⟨-, hidle⟩
      · rfl
      · exact hidle.dispatches
    refine ⟨hgfx, block, quiet, hpackets, hquiet, hadv, hanon, fun hw => ?_⟩
    rw [hw.independent] at hblock
    rcases hblock with ⟨hr, -⟩ | ⟨hr, hidle⟩
    · exact .inl ⟨hr, hr⟩
    · exact .inr ⟨hr, .inr hidle⟩

/-- Everything one launch of the loop can do. -/
theorem emitLaunches_cons {settings : Pm4Settings} {boundaries : Boundaries}
    {previous : Option RecordedHipLaunch} {frontier : ResourceFrontier}
    {commands commands' : Pm4Commands} {item : TapeLaunch} {items : List TapeLaunch}
    (h : emitLaunches settings boundaries previous frontier commands (item :: items) =
      .ok commands') :
    ∃ resources next block quiet dims,
      EmittedLaunch commands next item (block ++ quiet) dims ∧
      emitLaunches settings boundaries (some item.launch) (frontier.advance item.launch resources)
        next items = .ok commands' ∧
      (boundaries.Waits settings → resources = true ∧ frontier.independent item.launch = true ∨
        resources = false ∧ (previous = none ∨ IdleBlock commands.mode block)) := by
  unfold emitLaunches at h
  obtain ⟨⟨resources, bounded⟩, hb, h⟩ := bind_ok h
  obtain ⟨next, hd, hrest⟩ := bind_ok h
  obtain ⟨hgfx, block, quiet, hpackets, hquiet, hadv, hanon, hwaits⟩ := emitBefore_ok hb
  obtain ⟨quiet', dims, hstep⟩ :=
    emitted_dispatch hgfx hpackets hquiet hadv hanon (liftDispatch_ok hd)
  exact ⟨resources, next, block, quiet', dims, hstep, hrest, hwaits⟩

/-- The packets of a whole list of launches: one dispatch each, in list order. -/
structure EmittedRun (commands commands' : Pm4Commands) (items : List TapeLaunch)
    (suffix : List Packet) : Prop where
  gfx12 : commands'.isGfx12 = commands.isGfx12
  packets : commands'.packets = commands.packets ++ suffix
  dims : List.Forall₂ (fun item dims => dimensions commands.isGfx12 item.geometry = .ok dims) items
    (dispatches suffix)
  advances : Advances commands.mode commands'.mode suffix

theorem EmittedRun.names_length {commands commands' : Pm4Commands} {items : List TapeLaunch}
    {suffix : List Packet} (h : EmittedRun commands commands' items suffix) :
    (dispatches suffix).length = (items.map TapeLaunch.index).length := by
  rw [List.length_map, h.dims.length_eq]

section
variable {Q S : Type}

/-- A wait stands between dependent launches of the list, and before every one
that depends on a pending launch. -/
structure Blocked (queue : Q) (word : ℕ → S) (mode : LegacyDependencyMode)
    (pending : List RecordedHipLaunch) (items : List TapeLaunch)
    (log : List (Entry Q (Option ℕ) S UInt32)) : Prop where
  after_pending : ∀ item ∈ items, ∀ launch ∈ pending,
    launchesAreIndependent launch item.launch = false → ∃ block, IdleBlock mode block ∧
      (plainLog queue word block ++ [jobEntry queue item.index]).Sublist log
  between : ∀ a b, [a, b].Sublist items → launchesAreIndependent a.launch b.launch = false →
    ∃ block, IdleBlock mode block ∧
      (jobEntry queue a.index :: (plainLog queue word block ++ [jobEntry queue b.index])).Sublist log

theorem EmittedRun.job_sublist {commands commands' : Pm4Commands} {items : List TapeLaunch}
    {suffix : List Packet} (h : EmittedRun commands commands' items suffix) (queue : Q)
    (word : ℕ → S) {item : TapeLaunch} (hi : item ∈ items) :
    [jobEntry queue item.index].Sublist
      (streamLog queue word (items.map TapeLaunch.index) suffix) := by
  refine List.Sublist.trans ?_ (jobs_sublist h.names_length)
  exact List.singleton_sublist.mpr (List.mem_map_of_mem (List.mem_map_of_mem hi))

/-- The whole list, by induction: a launch that joins the pending ones was shown
independent of them, any other one has a wait before it. -/
theorem emitLaunches_ok (queue : Q) (word : ℕ → S) {settings : Pm4Settings} {boundaries : Boundaries}
    {previous : Option RecordedHipLaunch} {frontier : ResourceFrontier}
    {commands commands' : Pm4Commands} {items : List TapeLaunch}
    (h : emitLaunches settings boundaries previous frontier commands items = .ok commands') :
    ∃ suffix, EmittedRun commands commands' items suffix ∧
      (boundaries.Waits settings → ∀ pending, frontier.Covers pending →
        (previous = none → pending = []) →
        Blocked queue word commands.mode pending items
          (streamLog queue word (items.map TapeLaunch.index) suffix)) := by
  induction items generalizing previous frontier commands with
  | nil =>
    cases h
    refine ⟨[], ⟨rfl, by simp, .nil, .refl rfl _⟩, fun _ pending _ _ => ⟨by simp, by simp⟩⟩
  | cons item items ih =>
    obtain ⟨resources, next, block, quiet, dims, hstep, hrest, hwaits⟩ := emitLaunches_cons h
    obtain ⟨rest, hrun, hblocked⟩ := ih hrest
    obtain ⟨x, y, z, initiator, rfl, hpackets⟩ := hstep.packets
    have hdispatch : dispatches ((block ++ quiet) ++ .dispatchDirect x y z initiator :: rest) =
        [x, y, z] :: dispatches rest := by
      rw [dispatches_append, hstep.anonymous]
      rfl
    have hadv : Advances commands.mode commands'.mode
        ((block ++ quiet) ++ .dispatchDirect x y z initiator :: rest) := by
      have hjob : Advances next.mode next.mode [.dispatchDirect x y z initiator] := .refl rfl _
      simpa using (hstep.advances.trans hjob).trans hrun.advances
    have hblock (b : List Packet) (hb : IdleBlock next.mode b) : IdleBlock commands.mode b :=
      hb.of_advances hstep.advances
    refine ⟨(block ++ quiet) ++ .dispatchDirect x y z initiator :: rest, ⟨?_, ?_, ?_, hadv⟩, ?_⟩
    · exact hrun.gfx12.trans hstep.gfx12
    · rw [hrun.packets, hpackets]
      simp
    · rw [hdispatch]
      refine .cons hstep.dims ?_
      simpa only [hstep.gfx12] using hrun.dims
    intro hw pending hcov hprev
    rw [List.map_cons, streamLog_dispatch hstep.anonymous]
    have hnext (pending' : List RecordedHipLaunch)
        (hcov' : (frontier.advance item.launch resources).Covers pending') :=
      hblocked hw pending' hcov' (by simp)
    have hsub {l : List (Entry Q (Option ℕ) S UInt32)}
        (hl : l.Sublist (streamLog queue word (items.map TapeLaunch.index) rest)) :
        (jobEntry queue item.index :: l).Sublist (plainLog queue word (block ++ quiet) ++
          jobEntry queue item.index :: streamLog queue word (items.map TapeLaunch.index) rest) :=
      (hl.cons_cons _).trans (List.sublist_append_right _ _)
    have hitem : item.launch ∈ item.launch :: if resources then pending else [] := List.mem_cons_self
    have hlater := hnext _ (hcov.advance item.launch resources)
    refine ⟨?_, ?_⟩
    · intro b hb launch hl hdep
      rcases hwaits hw with ⟨rfl, hind⟩ | ⟨rfl, rfl | hidle⟩
      · rcases List.mem_cons.mp hb with rfl | hb
        · rw [hcov.independent hind launch hl] at hdep
          cases hdep
        · obtain ⟨blk, hblk, hs⟩ := hlater.after_pending b hb launch (List.mem_cons_of_mem _ hl) hdep
          exact ⟨blk, hblock blk hblk, (List.sublist_cons_of_sublist _ hs).trans
            (List.sublist_append_right _ _)⟩
      · rw [hprev rfl] at hl
        simp at hl
      · refine ⟨block, hidle, ?_⟩
        have hfront : (plainLog queue word block).Sublist
            (plainLog (T := ℕ) queue word (block ++ quiet)) := by
          rw [plainLog, plainLog, List.map_append]
          exact List.sublist_append_left _ _
        refine hfront.append ?_
        rcases List.mem_cons.mp hb with rfl | hb
        · exact List.singleton_sublist.mpr List.mem_cons_self
        · exact List.sublist_cons_of_sublist _ (hrun.job_sublist queue word hb)
    · intro a b hab hdep
      rcases List.sublist_cons_iff.mp hab with hab | ⟨l, hl, hb⟩
      · obtain ⟨blk, hblk, hs⟩ := hlater.between a b hab hdep
        exact ⟨blk, hblock blk hblk, (List.sublist_cons_of_sublist _ hs).trans
          (List.sublist_append_right _ _)⟩
      · obtain ⟨rfl, rfl⟩ := List.cons.inj hl
        obtain ⟨blk, hblk, hs⟩ := hlater.after_pending b (List.singleton_sublist.mp hb) a.launch hitem
          hdep
        exact ⟨blk, hblock blk hblk, hsub hs⟩

end
end Hipscope.Replay
