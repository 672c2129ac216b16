import Mathlib.Data.List.Nodup
import Hipscope.Queue.Fence
import Hipscope.Replay.SingleIb

/-! The fence word of a stream that waits by release packets, over all replays of the stream. -/
namespace Hipscope.Replay
open Redline Pm4 Queue

/-- The boundaries of a single-buffer stream that wait. -/
def dependencyWaits (settings : Pm4Settings) : Option RecordedHipLaunch → ResourceFrontier → List TapeLaunch → ℕ
  | _, _, [] => 0
  | none, frontier, item :: items =>
    dependencyWaits settings (some item.launch) (frontier.advance item.launch false) items
  | some previous, frontier, item :: items =>
    let resources := frontier.independent item.launch
    (if Boundaries.waitPolicy.independent settings previous item.launch resources then 0 else 1) +
      dependencyWaits settings (some item.launch) (frontier.advance item.launch resources) items

/-- One epoch for each of them, and one for the terminal wait. -/
def epochsNeeded (settings : Pm4Settings) (items : List TapeLaunch) : ℕ := dependencyWaits settings none .default items + 1

/-- Packets with fences that count the epoch up by one. -/
inductive Paced (address : ℕ) : ℕ → ℕ → List Packet → Prop
  | nil (epoch : ℕ) : Paced address epoch epoch []
  | other {epoch epoch' : ℕ} {p : Packet} {ps : List Packet} (hp : p.Quiet ∨ p.dispatch?.isSome)
      (h : Paced address epoch epoch' ps) : Paced address epoch epoch' (p :: ps)
  | fence {epoch epoch' : ℕ} {ps : List Packet} (hbound : epoch + 1 < 2 ^ 32) (h : Paced address (epoch + 1) epoch' ps) :
      Paced address epoch epoch' (.releaseMem address (UInt32.ofNat (epoch + 1)) ::
        .waitRegMem address (UInt32.ofNat (epoch + 1)) :: ps)

section Stream
variable {settings : Pm4Settings} {commands next : Pm4Commands} {address epoch epoch' epoch'' : ℕ}
variable {ps qs : List Packet} {items : List TapeLaunch}

theorem Paced.append (h : Paced address epoch epoch' ps) (h' : Paced address epoch' epoch'' qs) :
    Paced address epoch epoch'' (ps ++ qs) := by
  induction h with
  | nil => exact h'
  | other hp _ ih => exact .other hp (ih h')
  | fence hbound _ ih => exact .fence hbound (ih h')

theorem Paced.of_quiet (epoch : ℕ) (h : ∀ p ∈ ps, p.Quiet) : Paced address epoch epoch ps := by
  induction ps with
  | nil => exact .nil epoch
  | cons p ps ih =>
    exact .other (.inl (h p (List.mem_cons_self ..))) (ih fun q hq => h q (List.mem_cons_of_mem _ hq))

/-- A stream that goes on with paced packets. -/
structure PacedStep (address epoch epoch' : ℕ) (commands next : Pm4Commands) : Prop where
  mode : next.mode = .releaseWait address epoch'
  packets : ∃ ps, next.packets = commands.packets ++ ps ∧ Paced address epoch epoch' ps

theorem PacedStep.trans {last : Pm4Commands} (h : PacedStep address epoch epoch' commands next)
    (h' : PacedStep address epoch' epoch'' next last) : PacedStep address epoch epoch'' commands last := by
  obtain ⟨ps, hps, hpaced⟩ := h.packets
  obtain ⟨qs, hqs, hpaced'⟩ := h'.packets
  refine ⟨h'.mode, ps ++ qs, ?_, hpaced.append hpaced'⟩
  rw [hqs, hps, List.append_assoc]

private theorem waitComputeIdle_paced (hmode : commands.mode = .releaseWait address epoch)
    (h : commands.waitComputeIdle = .ok next) : epoch + 1 < 2 ^ 32 ∧ PacedStep address epoch (epoch + 1) commands next := by
  cases commands with
  | gfx12 buffer => cases hmode
  | legacy architecture buffer mode =>
    obtain rfl : mode = .releaseWait address epoch := hmode
    rw [Pm4Commands.waitComputeIdle] at h
    split at h
    · cases h
    · next hbound =>
      cases h
      refine ⟨not_le.1 hbound, rfl, _, ?_, .fence (not_le.1 hbound) (.nil _)⟩
      rw [Pm4Commands.packets, Pm4Commands.packets, Gfx10Pm4CommandBuffer.dependencyFence,
        Gfx10Pm4CommandBuffer.waitMemoryValue, Gfx10Pm4CommandBuffer.releaseMemoryValue]
      exact List.append_assoc ..

private theorem acquireInterNode_paced (vmemOnly : Bool) (hmode : commands.mode = .releaseWait address epoch) :
    PacedStep address epoch epoch commands (commands.acquireInterNode settings vmemOnly) := by
  obtain ⟨hmode', -, quiet, hquiet, hpackets⟩ := commands.acquireInterNode_packets settings vmemOnly
  exact ⟨hmode'.trans hmode, quiet, hpackets, .of_quiet epoch hquiet⟩

private theorem dispatch_paced {item : TapeLaunch} (hmode : commands.mode = .releaseWait address epoch)
    (h : commands.dispatch item.kernel item.geometry item.launch.sharedMem item.kernarg.address = .ok next) :
    PacedStep address epoch epoch commands next := by
  obtain ⟨hmode', -, regs, x, y, z, initiator, hregs, hpackets, -⟩ := Pm4Commands.dispatch_ok h
  refine ⟨hmode'.trans hmode, _, hpackets, ?_⟩
  exact (Paced.of_quiet epoch fun p hp => (hregs p hp).quiet).append (.other (.inr rfl) (.nil epoch))

private theorem emitBoundary_paced {independent vmemOnly : Bool} {previous current : RecordedHipLaunch}
    (hmode : commands.mode = .releaseWait address epoch)
    (h : emitBoundary settings independent vmemOnly previous current commands = .ok next) :
    PacedStep address epoch (epoch + if independent then 0 else 1) commands next := by
  obtain ⟨waited, hwaited, h⟩ := bind_ok h
  have hwait : PacedStep address epoch (epoch + if independent then 0 else 1) commands waited := by
    cases independent with
    | true =>
      cases hwaited
      exact ⟨hmode, [], (List.append_nil _).symm, .nil epoch⟩
    | false => exact (waitComputeIdle_paced hmode hwaited).2
  split at h
  · cases h
    exact hwait.trans (acquireInterNode_paced vmemOnly hwait.mode)
  · cases h
    exact hwait

/-- The loop takes one epoch for each boundary that waits. -/
theorem emitLaunches_paced {previous : Option RecordedHipLaunch} {frontier : ResourceFrontier}
    (hmode : commands.mode = .releaseWait address epoch)
    (h : emitLaunches settings .waitPolicy previous frontier commands items = .ok next) :
    PacedStep address epoch (epoch + dependencyWaits settings previous frontier items) commands next := by
  induction items generalizing previous frontier commands epoch with
  | nil =>
    cases h
    exact ⟨hmode, [], (List.append_nil _).symm, .nil epoch⟩
  | cons item items ih =>
    unfold emitLaunches at h
    obtain ⟨⟨resources, bounded⟩, hbefore, hafter⟩ := bind_ok h
    obtain ⟨dispatched, hdispatch, hrest⟩ := bind_ok hafter
    clear h hafter
    cases previous with
    | none =>
      cases hbefore
      have hstep := dispatch_paced hmode (liftDispatch_ok hdispatch)
      exact hstep.trans (ih hstep.mode hrest)
    | some previous =>
      unfold emitBefore at hbefore
      obtain ⟨bounded', hbound, hbefore⟩ := bind_ok hbefore
      cases hbefore
      have hboundary := emitBoundary_paced hmode (liftCommand_ok hbound)
      have hstep := hboundary.trans (dispatch_paced hboundary.mode (liftDispatch_ok hdispatch))
      have hlater := ih hstep.mode hrest
      rw [Nat.add_assoc] at hlater
      exact hstep.trans hlater

/-- The stream: a reset, the launches with their fences, and one more fence. -/
structure PacedStream (address last : ℕ) (packets : List Packet) : Prop where
  bound : last < 2 ^ 32
  packets : ∃ before ps, (∀ p ∈ before, p.Quiet) ∧
    packets = before ++ ([.releaseMem address 0, .waitRegMem address 0] ++ ps) ∧ Paced address 0 last ps

theorem singleIbCommands_paced (harch : settings.architecture = .gfx10)
    (h : singleIbCommands settings (.releaseWait address 0) items = .ok commands) :
    PacedStream address (epochsNeeded settings items) commands.packets := by
  obtain ⟨reset, hreset, h⟩ := bind_ok h
  obtain ⟨emitted, hemitted, h⟩ := bind_ok h
  have hmode : (reset.acquireEntry settings).mode = .releaseWait address 0 := by
    rw [(reset.acquireEntry_packets settings).1]
    have hreset := liftCommand_ok hreset
    rw [Pm4Commands.newWithDependency, harch, Pm4Commands.emitEntrySentinelReset, if_neg (not_not.2 rfl)] at hreset
    cases hreset
    rfl
  cases opened_entry (liftCommand_ok hreset) with
  | flush hflush =>
    rw [hmode] at hflush
    cases hflush
  | release address' hmode' before after hbefore hafter hopened =>
    obtain ⟨rfl, -⟩ := LegacyDependencyMode.releaseWait.inj (hmode.symm.trans hmode')
    have hloop := emitLaunches_paced hmode hemitted
    obtain ⟨hbound, hlast⟩ := waitComputeIdle_paced hloop.mode (liftCommand_ok h)
    rw [Nat.zero_add] at hloop hbound hlast
    obtain ⟨ps, hps, hpaced⟩ := (hloop.trans hlast).packets
    refine ⟨hbound, before, after ++ ps, hbefore, ?_, (Paced.of_quiet 0 hafter).append hpaced⟩
    rw [hps, hopened]
    simp only [List.append_assoc]

/-- The epochs of the fences behind the reset. -/
theorem Paced.writes (h : Paced address epoch epoch' ps) : epoch ≤ epoch' ∧
    wordWrites ps = (List.range' (epoch + 1) (epoch' - epoch)).map fun e => (address, UInt32.ofNat e) := by
  induction h with
  | nil epoch => exact ⟨le_rfl, by rw [Nat.sub_self]; rfl⟩
  | @other epoch epoch' p ps hp _ ih =>
    have hnone : p.write? = none := by
      cases p with
      | releaseMem | writeData => rcases hp with hp | hp <;> cases hp
      | _ => rfl
    refine ⟨ih.1, ?_⟩
    rw [wordWrites, List.filterMap_cons_none hnone]
    exact ih.2
  | @fence epoch epoch' ps _ _ ih =>
    obtain ⟨hle, hwrites⟩ := ih
    refine ⟨Nat.le_of_succ_le hle, ?_⟩
    obtain ⟨rest, rfl⟩ := Nat.exists_eq_add_of_le hle
    rw [Nat.add_sub_cancel_left] at hwrites
    rw [show epoch + 1 + rest - epoch = rest + 1 by omega, List.range'_succ, List.map_cons, ← hwrites]
    rfl

private theorem ofNat_ne {a b : ℕ} (ha : a < 2 ^ 32) (hb : b < 2 ^ 32) (hne : a ≠ b) : UInt32.ofNat a ≠ UInt32.ofNat b := by
  intro heq
  have hnat := congrArg UInt32.toNat heq
  rw [UInt32.toNat_ofNat', UInt32.toNat_ofNat', Nat.mod_eq_of_lt ha, Nat.mod_eq_of_lt hb] at hnat
  exact hne hnat

private theorem refenced_cons {names : List ℕ} {p : Packet} {c : ℕ} {first last : Option UInt32}
    (hp : p.Quiet ∨ p.dispatch?.isSome)
    (h : ∀ names : List ℕ, Refenced c first last (streamLog () id names ps)) :
    Refenced c first last (streamLog () id names (p :: ps)) := by
  have hcmd : (∀ v, (p.cmd id).write ≠ some (c, v)) ∧ ∀ v, p.cmd id ≠ .await c v := by
    cases p with
    | releaseMem | writeData | waitRegMem | csPartialFlush => rcases hp with hp | hp <;> cases hp
    | _ => exact ⟨fun v hv => (by cases hv), fun v hv => (by cases hv)⟩
  rw [streamLog]
  split
  · exact .other hcmd.1 hcmd.2 (h _)
  · exact .other hcmd.1 hcmd.2 (h _)

/-- The commands of paced packets are fences with different neighbours. -/
theorem Paced.refenced (h : Paced address epoch epoch' ps) (names : List ℕ) :
    Refenced address (some (UInt32.ofNat epoch)) (some (UInt32.ofNat epoch')) (streamLog () id names ps) := by
  induction h generalizing names with
  | nil => exact .nil _
  | other hp _ ih => exact refenced_cons hp ih
  | fence hbound _ ih =>
    refine .fence rfl rfl (fun heq => ?_) (ih names)
    exact ofNat_ne (Nat.lt_of_succ_lt hbound) hbound (Nat.ne_of_lt (Nat.lt_succ_self _)) (Option.some.inj heq)

theorem PacedStream.refenced {last : ℕ} {first : Option UInt32} {packets : List Packet}
    (h : PacedStream address last packets) (hfirst : first ≠ some 0) (names : List ℕ) :
    Refenced address first (some (UInt32.ofNat last)) (streamLog () id names packets) := by
  obtain ⟨before, ps, hbefore, rfl, hpaced⟩ := h.packets
  induction before generalizing names with
  | nil => exact .fence rfl rfl hfirst (hpaced.refenced names)
  | cons p before ih =>
    refine refenced_cons (.inl (hbefore p (List.mem_cons_self ..))) fun names => ?_
    have hbefore' : ∀ q ∈ before, q.Quiet := fun q hq => hbefore q (List.mem_cons_of_mem _ hq)
    exact ih names hbefore' ⟨h.bound, _, ps, hbefore', rfl, hpaced⟩

end Stream

/-- The commands of consecutive replays. -/
def SingleIb.replays (ib : SingleIb) (n : ℕ) : List (Entry Unit (Option ℕ) ℕ UInt32) :=
  (List.replicate n ib.log).flatten

/-- Every wait behind the first one of the first replay passes on the release directly before it,
and no launch behind a wait starts before the launches before it have finished. -/
structure FreshFences (ib : SingleIb) (n : ℕ) : Prop where
  writer : ∀ r < n, ∀ (i a : ℕ) (v : UInt32), ib.commands.packets[i]? = some (.waitRegMem a v) →
    (r = 0 → ∃ j < i, ∃ a' v', ib.commands.packets[j]? = some (.waitRegMem a' v')) →
    ∃ i', i = i' + 1 ∧ ib.commands.packets[i']? = some (.releaseMem a v) ∧ ∀ mem as s s',
      execAll (ib.replays n) (.init mem) as = some s →
      exec (ib.replays n) s (.issue (r * ib.commands.packets.length + i)) = some s' →
      lastWriter (ib.replays n) a as = some (r * ib.commands.packets.length + i')
  ordered : ∀ mem s, Reachable (ib.replays n) mem s → ∀ i k j a v d e, i < k → k < j → AwaitAt (ib.replays n) a v k →
    (ib.replays n)[i]? = some d → d.cmd = .launch none → (ib.replays n)[j]? = some e → e.cmd = .launch none →
    s.issued j = true → s.fin i = true

section Replays
variable {ib : SingleIb} {address last n r i k a : ℕ} {v : UInt32}

private theorem getElem?_flatten_replicate {α : Type} (l : List α) (hr : r < n) (hi : i < l.length) :
    (List.replicate n l).flatten[r * l.length + i]? = l[i]? := by
  induction n generalizing r with
  | zero => exact absurd hr (Nat.not_lt_zero r)
  | succ n ih =>
    rw [List.replicate_succ, List.flatten_cons]
    cases r with
    | zero => rw [Nat.zero_mul, Nat.zero_add, List.getElem?_append_left hi]
    | succ r =>
      rw [Nat.succ_mul, Nat.add_right_comm, List.getElem?_append_right (Nat.le_add_left ..), Nat.add_sub_cancel]
      exact ih (Nat.lt_of_succ_lt_succ hr)

private theorem log_cmds (ib : SingleIb) : ib.log.map (fun e => e.cmd) = ib.commands.packets.map (Packet.cmd id) :=
  streamLog_cmds () id ib.order ib.commands.packets

private theorem log_length (ib : SingleIb) : ib.log.length = ib.commands.packets.length := by
  have h := congrArg List.length (log_cmds ib)
  rwa [List.length_map, List.length_map] at h

private theorem cmd_await {p : Packet} : p.cmd id = .await a v ↔ p = .waitRegMem a v := by
  cases p with
  | waitRegMem b w =>
    rw [Packet.cmd, Cmd.await.injEq, Packet.waitRegMem.injEq]
    rfl
  | _ => exact ⟨fun h => (by cases h), fun h => (by cases h)⟩

private theorem cmd_release {p : Packet} : p.cmd id = .release a v ↔ p = .releaseMem a v := by
  cases p with
  | releaseMem b w =>
    rw [Packet.cmd, Cmd.release.injEq, Packet.releaseMem.injEq]
    rfl
  | _ => exact ⟨fun h => (by cases h), fun h => (by cases h)⟩

private theorem log_at {c : Cmd ℕ UInt32} : (∃ e, ib.log[i]? = some e ∧ e.cmd = c) ↔
    ∃ p, ib.commands.packets[i]? = some p ∧ p.cmd id = c := by
  have h : (ib.log.map fun e => e.cmd)[i]? = (ib.commands.packets.map (Packet.cmd id))[i]? := by rw [log_cmds]
  rw [List.getElem?_map, List.getElem?_map] at h
  rw [← Option.map_eq_some_iff, h, Option.map_eq_some_iff]

private theorem awaitAt_log : AwaitAt ib.log a v i ↔ ib.commands.packets[i]? = some (.waitRegMem a v) := by
  rw [AwaitAt, log_at]
  constructor
  · rintro ⟨p, hp, hc⟩
    rwa [← cmd_await.1 hc]
  · exact fun h => ⟨_, h, rfl⟩

private theorem releaseAt_log : ReleaseAt ib.log a v i ↔ ib.commands.packets[i]? = some (.releaseMem a v) := by
  rw [ReleaseAt, log_at]
  constructor
  · rintro ⟨p, hp, hc⟩
    rwa [← cmd_release.1 hc]
  · exact fun h => ⟨_, h, rfl⟩

private theorem replays_getElem? (hr : r < n) (hi : i < ib.commands.packets.length) :
    (ib.replays n)[r * ib.commands.packets.length + i]? = ib.log[i]? := by
  rw [← log_length] at hi ⊢
  exact getElem?_flatten_replicate ib.log hr hi

private theorem awaitAt_replays (hr : r < n) (h : ib.commands.packets[i]? = some (.waitRegMem a v)) :
    AwaitAt (ib.replays n) a v (r * ib.commands.packets.length + i) := by
  rw [AwaitAt, replays_getElem? hr (List.getElem?_eq_some_iff.1 h).1]
  exact awaitAt_log.2 h

private theorem Paced.address_eq {epoch epoch' : ℕ} {ps : List Packet} (h : Paced address epoch epoch' ps)
    (hp : .waitRegMem a v ∈ ps) : a = address := by
  induction h with
  | nil => exact absurd hp List.not_mem_nil
  | other hother _ ih =>
    rcases List.mem_cons.1 hp with rfl | hp
    · rcases hother with hother | hother <;> cases hother
    · exact ih hp
  | fence _ _ ih =>
    rcases List.mem_cons.1 hp with heq | hp
    · cases heq
    rcases List.mem_cons.1 hp with heq | hp
    · cases heq
      rfl
    · exact ih hp

private theorem PacedStream.address_eq {packets : List Packet} (h : PacedStream address last packets)
    (hp : .waitRegMem a v ∈ packets) : a = address := by
  obtain ⟨before, ps, hbefore, rfl, hpaced⟩ := h.packets
  rcases List.mem_append.1 hp with hp | hp
  · exact absurd (hbefore _ hp) id
  rcases List.mem_append.1 hp with hp | hp
  · rcases List.mem_pair.1 hp with heq | heq
    · cases heq
    · cases heq
      rfl
  · exact hpaced.address_eq hp

/-- The wait of the reset stands before every dispatch. -/
private theorem PacedStream.sentinel (h : PacedStream address last ib.commands.packets) :
    ∃ k : ℕ, ib.commands.packets[k]? = some (.waitRegMem address 0) ∧
      ∀ i : ℕ, i ≤ k → ∀ e, ib.log[i]? = some e → e.cmd ≠ .launch none := by
  obtain ⟨before, ps, hbefore, hpackets, -⟩ := h.packets
  refine ⟨before.length + 1, ?_, fun i hi e he hc => ?_⟩
  · rw [hpackets, List.getElem?_append_right (Nat.le_succ _), Nat.succ_sub (Nat.le_refl _), Nat.sub_self]
    rfl
  · obtain ⟨p, hp, hcmd⟩ := log_at.1 ⟨e, he, hc⟩
    have hquiet : p.Quiet ∨ p = .releaseMem address 0 ∨ p = .waitRegMem address 0 := by
      rw [hpackets] at hp
      rcases Nat.lt_or_ge i before.length with hlt | hge
      · rw [List.getElem?_append_left hlt] at hp
        exact .inl (hbefore p (List.mem_of_getElem? hp))
      · rw [List.getElem?_append_right hge, List.getElem?_append_left (Nat.lt_succ_of_le (Nat.sub_le_iff_le_add'.2 hi))] at hp
        exact .inr (List.mem_pair.1 (List.mem_of_getElem? hp))
    rcases hquiet with hquiet | rfl | rfl
    · cases p with
      | dispatchDirect => exact hquiet
      | _ => cases hcmd
    · cases hcmd
    · cases hcmd

/-- The replays are one run of fences, the reset of each behind the last epoch of the one before. -/
private theorem PacedStream.replays_refenced (h : PacedStream address last ib.commands.packets) (hlast : 0 < last) (n : ℕ) :
    ∃ final, Refenced address none final (ib.replays n) := by
  cases n with
  | zero => exact ⟨none, .nil none⟩
  | succ n =>
    rw [SingleIb.replays, List.replicate_succ, List.flatten_cons]
    have hne : some (UInt32.ofNat last) ≠ some 0 := fun heq =>
      ofNat_ne h.bound (by decide : 0 < 2 ^ 32) (Nat.ne_of_gt hlast) (Option.some.inj heq)
    have hfirst : Refenced address none (some (UInt32.ofNat last)) ib.log := h.refenced (fun heq => (by cases heq)) ib.order
    have hnext : Refenced address (some (UInt32.ofNat last)) (some (UInt32.ofNat last)) ib.log := h.refenced hne ib.order
    exact ⟨_, hfirst.append (hnext.flatten_replicate n)⟩

theorem PacedStream.freshFences (h : PacedStream address last ib.commands.packets) (hlast : 0 < last) (n : ℕ) :
    FreshFences ib n := by
  obtain ⟨final, hfences⟩ := h.replays_refenced hlast n
  have hqueue : ∀ e ∈ ib.replays n, e.queue = () := fun _ _ => rfl
  obtain ⟨k₀, hk₀, hnone⟩ := h.sentinel
  have hlen := (List.getElem?_eq_some_iff.1 hk₀).1
  constructor
  · intro r hr i a v hi hearlier
    obtain rfl := h.address_eq (List.mem_of_getElem? hi)
    have hlog : Refenced a none (some (UInt32.ofNat last)) ib.log := h.refenced (fun heq => (by cases heq)) ib.order
    obtain ⟨i', rfl, hrelease⟩ := hlog.releaseAt (awaitAt_log.2 hi)
    refine ⟨i', rfl, releaseAt_log.1 hrelease, fun mem as s s' has hs => ?_⟩
    have hawaited : Awaited (ib.replays n) a (r * ib.commands.packets.length + i' + 1) := by
      rcases Nat.eq_zero_or_pos r with rfl | hpos
      · obtain ⟨j, hj, a', v', hat⟩ := hearlier rfl
        obtain rfl := h.address_eq (List.mem_of_getElem? hat)
        exact ⟨_, Nat.add_lt_add_left hj _, v', awaitAt_replays hr hat⟩
      · refine ⟨_, ?_, 0, awaitAt_replays (Nat.zero_lt_of_lt hr) hk₀⟩
        have := Nat.mul_le_mul_right ib.commands.packets.length hpos
        omega
    exact (refence_writer hfences hqueue has hs (awaitAt_replays hr hi) hawaited).2
  · intro mem s hs i k j a v d e hik hkj hk hd hdc he hec hj
    obtain rfl : a = address := by
      obtain ⟨w, hw, hwc⟩ := hk
      have hmem := List.mem_of_getElem? hw
      rw [SingleIb.replays, List.mem_flatten] at hmem
      obtain ⟨log, hlog, hw⟩ := hmem
      rw [List.eq_of_mem_replicate hlog] at hw
      obtain ⟨m, hm⟩ := List.mem_iff_getElem?.1 hw
      exact h.address_eq (List.mem_of_getElem? (awaitAt_log.1 ⟨w, hm, hwc⟩))
    have hn : 0 < n := by
      rcases Nat.eq_zero_or_pos n with rfl | hpos
      · cases hd
      · exact hpos
    have hfront : k₀ < i := by
      by_contra hle
      have hat : (ib.replays n)[0 * ib.commands.packets.length + i]? = ib.log[i]? := replays_getElem? hn (by omega)
      rw [Nat.zero_mul, Nat.zero_add, hd] at hat
      exact hnone i (not_lt.1 hle) d hat.symm hdc
    have hfirst := awaitAt_replays hn hk₀
    rw [Nat.zero_mul, Nat.zero_add] at hfirst
    have hsettled := hs.refence_settled hfences hqueue hk ⟨k₀, by omega, 0, hfirst⟩ hik hkj hd he hj
    rwa [settled, hdc] at hsettled

end Replays

private theorem dependencyMode_releaseWait {env : Pm4Environment} {request : ℕ} {mode : LegacyDependencyMode}
    (hmode : env.releaseWait = true) (h : dependencyMode env request = .ok mode) :
    ∃ address, mode = .releaseWait address 0 := by
  rw [dependencyMode, if_pos hmode] at h
  split at h
  · cases h
  · split at h
    · cases h
    · cases h
      exact ⟨_, rfl⟩

private theorem epochs_spec {last : ℕ} (hbound : last < 2 ^ 32) :
    ((List.range' 1 last).map UInt32.ofNat).Nodup ∧ 0 ∉ (List.range' 1 last).map UInt32.ofNat := by
  have hrange {e : ℕ} (he : e ∈ List.range' 1 last) : 0 < e ∧ e < 2 ^ 32 := by
    rw [List.mem_range'_1] at he
    omega
  constructor
  · refine List.Nodup.map_on (fun a ha b hb heq => ?_) List.nodup_range'
    by_contra hne
    exact ofNat_ne (hrange ha).2 (hrange hb).2 hne heq
  · intro hmem
    obtain ⟨e, he, heq⟩ := List.mem_map.1 hmem
    exact ofNat_ne (hrange he).2 (by decide : 0 < 2 ^ 32) (Nat.ne_of_gt (hrange he).1) heq

/-- Tapes with release waits: the fences of all replays are fresh, the epochs of a tape are distinct
and not zero, and a tape for which there are not enough of them is rejected. -/
theorem prepareSingleIb_epochs (env : Pm4Environment) (recorded : List RecordedHipLaunch) (count : ℕ)
    (hmode : env.releaseWait = true) (harch : env.settings.architecture = .gfx10) :
    (∀ ib, prepareSingleIb env recorded count = .ok ib → (∀ n, FreshFences ib n) ∧
      ∃ (address : ℕ) (epochs : List UInt32) (items : List TapeLaunch),
        wordWrites ib.commands.packets = (address, 0) :: epochs.map (fun e => (address, e)) ∧
        epochs.Nodup ∧ 0 ∉ epochs ∧ Prepared env (recorded.take count) ib items ∧
        epochs.length = epochsNeeded env.settings items) ∧
    ∀ tape items, lowerTape env (recorded.take count) = .ok tape →
      pick tape (emissionOrder env (recorded.take count)) = .ok items → 2 ^ 32 - 1 < epochsNeeded env.settings items →
      ∀ ib, prepareSingleIb env recorded count ≠ .ok ib := by
  have hpaced : ∀ ib, prepareSingleIb env recorded count = .ok ib → ∃ address items,
      Prepared env (recorded.take count) ib items ∧ PacedStream address (epochsNeeded env.settings items) ib.commands.packets := by
    intro ib h
    obtain ⟨-, items, hprepared⟩ := prepareSingleIb_ok h
    rw [prepareSingleIb] at h
    split at h
    · cases h
    split at h
    · cases h
    obtain ⟨tape, htape, h⟩ := bind_ok h
    obtain ⟨mode, hdependency, h⟩ := bind_ok h
    obtain ⟨items', hitems, h⟩ := bind_ok h
    obtain ⟨commands, hcommands, h⟩ := bind_ok h
    cases h
    obtain ⟨address, rfl⟩ := dependencyMode_releaseWait hmode hdependency
    have hpicked := hprepared.picked
    rw [hprepared.order] at hpicked
    obtain rfl := Except.ok.inj (hpicked.symm.trans hitems)
    exact ⟨address, items, hprepared, singleIbCommands_paced harch hcommands⟩
  constructor
  · intro ib h
    obtain ⟨address, items, hprepared, hstream⟩ := hpaced ib h
    refine ⟨hstream.freshFences (Nat.succ_pos _), address, _, items, ?_, (epochs_spec hstream.bound).1,
      (epochs_spec hstream.bound).2, hprepared, ?_⟩
    · obtain ⟨before, ps, hbefore, hpackets, hps⟩ := hstream.packets
      rw [hpackets, wordWrites_append, wordWrites_append, wordWrites_quiet hbefore, hps.writes.2, Nat.sub_zero,
        List.map_map]
      rfl
    · rw [List.length_map, List.length_range']
  · intro tape items htape hitems hmany ib h
    obtain ⟨address, items', hprepared, hstream⟩ := hpaced ib h
    have hpicked := hprepared.picked
    obtain rfl := Except.ok.inj (htape.symm.trans hprepared.tape)
    rw [hprepared.order, hitems] at hpicked
    obtain rfl := Except.ok.inj hpicked
    have := hstream.bound
    omega

def gfx10Environment : Pm4Environment :=
  { gfx11Environment with settings := { gfx11Settings with architecture := .gfx10 }, releaseWait := true }

theorem prepareSingleIb_epochs_pair : ∃ ib, prepareSingleIb gfx10Environment producerConsumer 3 = .ok ib ∧
    ∀ n, FreshFences ib n :=
  ⟨_, rfl, ((prepareSingleIb_epochs gfx10Environment producerConsumer 3 rfl rfl).1 _ rfl).1⟩

end Hipscope.Replay
