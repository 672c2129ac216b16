import Hipscope.Client.Decision
import Hipscope.Client.Dispatch
import Hipscope.Machine.Runs

/-! Whatever the daemon writes and however calls interleave, a call's callback sees its own
key's events only, in the order of the wire. -/
namespace Hipscope.Client

section Trace
variable {key : Key} {phase : Phase} {trace : List Effect}

/-- The events a call has read. -/
def received (trace : List Effect) : List Value :=
  trace.filterMap fun
    | .received value => some value
    | _ => none

/-- The events passed to the callback, with its answers. -/
def callbacks (trace : List Effect) : List (Value × Except ClientError Unit) :=
  trace.filterMap fun
    | .called value answer => some (value, answer)
    | _ => none

/-- A callback that ends the stream: of a terminal event or a staged commit, or one that failed. -/
def Stops (pair : Value × Except ClientError Unit) : Prop := ¬ pair.1.Ordinary ∨ pair.2 ≠ .ok ()

@[simp] theorem received_append (a b : List Effect) : received (a ++ b) = received a ++ received b :=
  List.filterMap_append

@[simp] theorem callbacks_append (a b : List Effect) : callbacks (a ++ b) = callbacks a ++ callbacks b :=
  List.filterMap_append

@[simp] theorem received_map (drained : List Value) : received (drained.map .received) = drained := by
  rw [received, List.filterMap_map]
  exact List.filterMap_some

@[simp] theorem callbacks_map (drained : List Value) : callbacks (drained.map .received) = [] := by
  rw [callbacks, List.filterMap_map]
  exact List.filterMap_eq_nil_iff.mpr fun _ _ => rfl

/-- What the callback has seen of what the call has read. -/
structure Passed (phase : Phase) (trace : List Effect) : Prop where
  all : ∃ silent, received trace = (callbacks trace).map Prod.fst ++ silent ∧
    (phase = .streaming → silent = []) ∧
      (silent ≠ [] → ∃ pair, (callbacks trace).getLast? = some pair ∧ Stops pair)
  ordinary : ∀ pair ∈ (callbacks trace).dropLast, ¬ Stops pair

private theorem calm_passed {calm : List Effect} (h : Phase.Calm calm) :
    received calm = (callbacks calm).map Prod.fst ∧ ∀ pair ∈ callbacks calm, ¬ Stops pair := by
  induction h with
  | nil => exact ⟨rfl, fun _ h => by cases h⟩
  | @snoc trace value _ hordinary ih =>
    refine ⟨?_, fun pair hmem => ?_⟩
    · rw [received_append, callbacks_append, List.map_append, ih.1]
      rfl
    · rw [callbacks_append, List.mem_append] at hmem
      rcases hmem with hold | hnew
      · exact ih.2 pair hold
      · rw [List.mem_singleton.mp hnew]
        rintro (h | h)
        · exact h hordinary
        · exact h rfl

/-- A calm stream, one more event that was passed on, and a rest that was not. -/
private theorem passed_after {calm tail : List Effect} {value : Value} {answer : Except ClientError Unit}
    {silent : List Value} (hcalm : Phase.Calm calm) (hphase : phase ≠ .streaming)
    (hreceived : received tail = value :: silent) (hcallbacks : callbacks tail = [(value, answer)])
    (hstops : silent ≠ [] → Stops (value, answer)) : Passed phase (calm ++ tail) := by
  obtain ⟨hsame, hordinary⟩ := calm_passed hcalm
  refine ⟨⟨silent, ?_, fun h => absurd h hphase, fun hne => ⟨(value, answer), ?_, hstops hne⟩⟩, fun pair hmem => ?_⟩
  · rw [received_append, callbacks_append, hsame, hreceived, hcallbacks, List.map_append, List.append_assoc]
    rfl
  · rw [callbacks_append, hcallbacks, List.getLast?_concat]
  · rw [callbacks_append, hcallbacks, List.dropLast_concat] at hmem
    exact hordinary pair hmem

private theorem passed_calm {calm : List Effect} (hcalm : Phase.Calm calm) : Passed phase calm := by
  obtain ⟨hsame, hordinary⟩ := calm_passed hcalm
  refine ⟨⟨[], by rw [hsame, List.append_nil], fun _ => rfl, fun h => absurd rfl h⟩, fun pair hmem => ?_⟩
  exact hordinary pair (List.dropLast_subset _ hmem)

private theorem stops_ready {value : Value} {answer : Except ClientError Unit} (h : value.type = some "commit_ready") :
    Stops (value, answer) := .inl fun hordinary => hordinary.2 h

private theorem refused_passed {calm refused drained : List Effect} (hcalm : Phase.Calm calm)
    (hrefused : Phase.Refused refused) (hphase : phase ≠ .streaming) (hcallbacks : callbacks drained = []) :
    Passed phase (calm ++ refused ++ drained) := by
  rw [List.append_assoc]
  cases hrefused with
  | @callback value err _ =>
    have hstops : Stops (value, .error err) := .inr (by simp)
    have hreceived : received ([.received value, .called value (.error err)] ++ drained) = value :: received drained := by
      rw [received_append]
      rfl
    refine passed_after hcalm hphase hreceived ?_ fun _ => hstops
    rw [callbacks_append, hcallbacks]
    rfl
  | @commit value hready =>
    have hreceived : received ([.received value, .called value (.ok ()), .sendFailed .commit] ++ drained) =
        value :: received drained := by
      rw [received_append]
      rfl
    have hstops : Stops (value, .ok ()) := stops_ready hready
    refine passed_after hcalm hphase hreceived ?_ fun _ => hstops
    rw [callbacks_append, hcallbacks]
    rfl

private theorem callbacks_drained (drained : List Value) :
    callbacks ([.sent .abort] ++ drained.map .received) = [] := by
  rw [callbacks_append, callbacks_map]
  rfl

/-- A call that reads events of its key passes each on, up to one that ends the stream. -/
theorem passed_of_shape (h : Phase.Shape key phase trace)
    (hown : ∀ value ∈ received trace, rejectStaleLifecycleEvent value key = none) : Passed phase trace := by
  cases h with
  | streaming hcalm => exact passed_calm hcalm
  | closed hcalm => exact passed_calm hcalm
  | @stale calm value err hcalm hstale =>
    have := hown value (by rw [received_append]; exact List.mem_append_right _ List.mem_cons_self)
    rw [hstale] at this
    cases this
  | finished hcalm => exact passed_after hcalm (by simp) rfl rfl fun h => absurd rfl h
  | committing hcalm hready => exact passed_after hcalm (by simp) rfl rfl fun _ => stops_ready hready
  | commitClosed hcalm hready => exact passed_after hcalm (by simp) rfl rfl fun _ => stops_ready hready
  | committed hcalm hready =>
    rw [List.append_assoc]
    exact passed_after hcalm (by simp) rfl rfl fun _ => stops_ready hready
  | aborting hcalm hrefused =>
    rw [List.append_assoc _ [_] _]
    exact refused_passed hcalm hrefused (by simp) (callbacks_drained _)
  | aborted hcalm hrefused =>
    rw [List.append_assoc _ [_] _]
    exact refused_passed hcalm hrefused (by simp) (callbacks_drained _)
  | abortFailed hcalm hrefused => exact refused_passed hcalm hrefused (by simp) rfl

/-- A call that has not returned reads exactly the event it is given. -/
private theorem received_step {value : Value} {answers : Answers} (h : phase.isReturned = false) :
    received (phase.step key (.event value answers)).2 = [value] := by
  cases phase with
  | returned result => cases h
  | committing staged => rfl
  | aborting original saw => rfl
  | streaming =>
    have hrest : received (Phase.generateWithRx key value answers).2 = [] := by
      have habort : ∀ err, received (Phase.abortAndDrain answers err).2 = [] := by
        intro err
        rw [Phase.abortAndDrain]
        split <;> rfl
      rw [Phase.generateWithRx]
      split
      · rfl
      · rcases answers.callback with cbErr | ⟨⟩
        · dsimp only
          split_ifs
          · exact habort _
          · rfl
          · rfl
          · rfl
          · exact habort _
        · rcases answers.commitSend with err | ⟨⟩
          · dsimp only
            split_ifs
            · exact habort _
            · rfl
            · rfl
            · rfl
          · dsimp only
            split_ifs <;> rfl
    change value :: received (Phase.generateWithRx key value answers).2 = [value]
    rw [hrest]

private theorem received_closed {status : String} : received (phase.step key (.closed status)).2 = [] := by
  cases phase <;> rfl

/-- An event routed to a key is not stale for it. -/
theorem not_stale_of_route {value : Value} (h : route value = .pending key) :
    rejectStaleLifecycleEvent value key = none := by
  obtain ⟨⟨type, hlife, htype⟩, hid, hattempt⟩ := route_pending h
  rw [Value.id, Option.filter_eq_some_iff] at hid
  obtain ⟨hget, hne⟩ := hid
  rw [rejectStaleLifecycleEvent, htype]
  dsimp only
  rw [if_pos hlife, hget]
  dsimp only
  rw [if_neg (by simpa using hne), if_neg (by simp)]
  cases hraw : value.get "attempt_id" with
  | none =>
    rw [hraw] at hattempt
    cases hattempt
  | some raw =>
    rw [hraw] at hattempt
    dsimp only
    rw [hattempt]
    simp

/-- A round passes its event to the callback, and goes on streaming unless that stops the stream. -/
private theorem generateWithRx_stops {value : Value} (answers : Answers)
    (hfresh : rejectStaleLifecycleEvent value key = none) :
    callbacks (Phase.generateWithRx key value answers).2 = [(value, answers.callback)] ∧
      ((Phase.generateWithRx key value answers).1 ≠ .streaming → Stops (value, answers.callback)) := by
  have habort : ∀ err, callbacks (Phase.abortAndDrain answers err).2 = [] := by
    intro err
    rw [Phase.abortAndDrain]
    split <;> rfl
  have hcalled : ∀ answer effects, callbacks effects = [] →
      callbacks (.called value answer :: effects) = [(value, answer)] :=
    fun answer effects hnone => congrArg ((value, answer) :: ·) hnone
  rw [Phase.generateWithRx, hfresh]
  dsimp only
  by_cases hready : value.type = some "commit_ready"
  · rw [if_pos hready]
    refine ⟨?_, fun _ => stops_ready hready⟩
    rcases answers.callback with cbErr | ⟨⟩
    · exact hcalled _ _ (habort _)
    · rcases answers.commitSend with err | ⟨⟩
      · exact hcalled _ _ (habort _)
      · exact hcalled _ _ rfl
  · rw [if_neg hready]
    rcases answers.callback with cbErr | ⟨⟩
    · refine ⟨?_, fun _ => .inr (by simp)⟩
      dsimp only
      by_cases herror : value.type = some "error"
      · rw [if_pos herror]
        exact hcalled _ _ rfl
      · rw [if_neg herror]
        split_ifs
        · exact hcalled _ _ rfl
        · exact hcalled _ _ (habort _)
    · dsimp only
      split_ifs with hdone herror
      · exact ⟨hcalled _ _ rfl, fun _ => .inl fun hordinary => hordinary.1 (.inl hdone)⟩
      · exact ⟨hcalled _ _ rfl, fun _ => .inl fun hordinary => hordinary.1 (.inr herror)⟩
      · exact ⟨hcalled _ _ rfl, fun hstay => absurd rfl hstay⟩

/-- An event that ends the streaming of a call is the last one passed to its callback, and stops it. -/
private theorem stops_of_event {value : Value} {answers : Answers} (hfresh : rejectStaleLifecycleEvent value key = none)
    (hleft : (Phase.streaming.step key (.event value answers)).1 ≠ .streaming) :
    ∃ pair, (callbacks (trace ++ (Phase.streaming.step key (.event value answers)).2)).getLast? = some pair ∧ Stops pair := by
  obtain ⟨hcallbacks, hstops⟩ := generateWithRx_stops answers hfresh
  refine ⟨(value, answers.callback), ?_, hstops hleft⟩
  have hround : callbacks (Phase.streaming.step key (.event value answers)).2 = [(value, answers.callback)] := hcallbacks
  rw [callbacks_append, hround, List.getLast?_concat]

/-- A call that has stopped streaming passes nothing more to its callback. -/
private theorem callbacks_settled (key : Key) (h : phase ≠ .streaming) (input : Input) :
    callbacks (phase.step key input).2 = [] ∧ (phase.step key input).1 ≠ .streaming := by
  cases phase with
  | streaming => exact absurd rfl h
  | returned result => exact ⟨rfl, by simp [Phase.step]⟩
  | committing staged => cases input <;> exact ⟨rfl, by simp [Phase.step]⟩
  | aborting original saw =>
    cases input with
    | closed status => exact ⟨rfl, by simp [Phase.step]⟩
    | event value answers =>
      refine ⟨rfl, ?_⟩
      change Phase.drainAborted key original saw value ≠ .streaming
      rw [Phase.drainAborted]
      split_ifs <;> simp

end Trace

namespace Stage

/-- The call's key is in the map. -/
def Enrolled (stage : Stage) : Prop := stage = .registered ∨ stage = .announced ∨ stage = .running ∨ stage = .leaving

/-- The call has published its attempt and not yet returned. -/
def Published (stage : Stage) : Prop := stage = .announced ∨ stage = .running ∨ stage = .leaving ∨ stage = .clearing

end Stage

namespace Engine
variable {e : Engine} {c : ℕ} {call : Call}

/-- A line on its way to a call's channel. -/
def heldFor (e : Engine) (c : ℕ) : List Value :=
  match e.holding with
  | some (c', value) => if c' = c then [value] else []
  | none => []

/-- The lines of a call's key read since it registered. -/
def ownLines (e : Engine) (call : Call) : List Value :=
  (e.lines.drop call.since).filter fun value => route value = .pending call.key

/-- A call against the state it is in: it has read, or has waiting, all lines of its key up to
those that came when it was no longer in the map. -/
structure Followed (e : Engine) (c : ℕ) (call : Call) : Prop where
  shape : Phase.Shape call.key call.phase call.trace
  fresh : call.stage = .registered ∨ call.stage = .announced → call.phase = .streaming ∧ call.trace = []
  waiting : call.stage = .running → call.phase.isReturned = false
  since_le : call.since ≤ e.lines.length
  stream : ∃ missed, e.ownLines call = received call.trace ++ call.queue ++ e.heldFor c ++ missed ∧
    (e.pending call.key = some c ∨ call.stage.Enrolled → missed = [])
  enrolled : call.stage.Enrolled → e.ended = false → e.pending call.key = some c

structure Sound (e : Engine) : Prop where
  calls : ∀ c call, e.calls c = some call → Followed e c call
  pending : ∀ key c, e.pending key = some c → ∃ call, e.calls c = some call ∧ call.key = key
  holding : ∀ c value, e.holding = some (c, value) → (e.calls c).isSome
  active : ∀ attempt, e.activeAttemptId = some attempt →
    ∃ c call, e.calls c = some call ∧ call.key.2 = attempt ∧ call.stage.Published

/-- A call that stays in the map, or leaves it, keeps what it has read and what waits. -/
private theorem Followed.restream {stage : Stage} (h : Followed e c call) (henrolled : stage.Enrolled → call.stage.Enrolled) :
    ∃ missed, e.ownLines call = received call.trace ++ call.queue ++ e.heldFor c ++ missed ∧
      (e.pending call.key = some c ∨ stage.Enrolled → missed = []) := by
  obtain ⟨missed, hlines, hmissed⟩ := h.stream
  exact ⟨missed, hlines, fun hstay => hmissed (hstay.imp_right henrolled)⟩

/-- Only the map, the lines and the line held matter to a call. -/
private theorem Followed.congr {e' : Engine} (h : Followed e c call) (hlines : e'.lines = e.lines)
    (hpending : e'.pending = e.pending) (hholding : e'.holding = e.holding) (hended : e'.ended = e.ended) :
    Followed e' c call where
  shape := h.shape
  fresh := h.fresh
  waiting := h.waiting
  since_le := hlines ▸ h.since_le
  stream := by
    rw [ownLines, heldFor, hlines, hpending, hholding]
    exact h.stream
  enrolled := by
    rw [hended, hpending]
    exact h.enrolled

/-- A step of one call that leaves the map and the dispatch thread alone. -/
private theorem Sound.setCall {new : Call} {active : Option UInt64} (h : Sound e) (hcall : e.calls c = some call)
    (hkey : new.key = call.key) (hnew : Followed e c new)
    (hactive : ∀ attempt, active = some attempt → (attempt = call.key.2 ∧ new.stage.Published) ∨
      (e.activeAttemptId = some attempt ∧ (call.stage.Published → new.stage.Published))) :
    Sound { e.setCall c new with activeAttemptId := active } where
  calls c' call' hc' := by
    dsimp only [Engine.setCall] at hc'
    rw [Function.update_apply] at hc'
    split_ifs at hc' with heq
    · cases hc'
      subst heq
      exact hnew.congr rfl rfl rfl rfl
    · exact (h.calls c' call' hc').congr rfl rfl rfl rfl
  pending key c' hc' := by
    obtain ⟨call', hcall', hkey'⟩ := h.pending key c' hc'
    dsimp only [Engine.setCall]
    by_cases heq : c' = c
    · subst heq
      rw [hcall] at hcall'
      cases hcall'
      exact ⟨new, Function.update_self _ _ _, hkey.trans hkey'⟩
    · exact ⟨call', by rw [Function.update_of_ne heq]; exact hcall', hkey'⟩
  holding c' value hheld := by
    have := h.holding c' value hheld
    dsimp only [Engine.setCall]
    rw [Function.update_apply]
    split_ifs
    · rfl
    · exact this
  active attempt hattempt := by
    dsimp only [Engine.setCall]
    rcases hactive attempt hattempt with ⟨rfl, hpublished⟩ | ⟨hold, hkeeps⟩
    · exact ⟨c, new, Function.update_self _ _ _, by rw [hkey], hpublished⟩
    · obtain ⟨c', call', hcall', hattempt', hpublished'⟩ := h.active attempt hold
      by_cases heq : c' = c
      · subst heq
        rw [hcall] at hcall'
        cases hcall'
        exact ⟨c', new, Function.update_self _ _ _, by rw [hkey]; exact hattempt', hkeeps hpublished'⟩
      · exact ⟨c', call', by rw [Function.update_of_ne heq]; exact hcall', hattempt', hpublished'⟩

/-- The same step with the published attempt as it was. -/
private theorem Sound.setCall_same {new : Call} (h : Sound e) (hcall : e.calls c = some call)
    (hkey : new.key = call.key) (hnew : Followed e c new) (hstage : call.stage.Published → new.stage.Published) :
    Sound (e.setCall c new) :=
  h.setCall hcall hkey hnew fun _ hattempt => .inr ⟨hattempt, hstage⟩

private theorem Sound.announce {next : Engine} {out : List Output} (h : Sound e) (hcall : e.calls c = some call)
    (hstep : e.announce c call = some (next, out)) : Sound next := by
  rw [Engine.announce] at hstep
  split_ifs at hstep with hstage
  cases hstep
  have hf := h.calls c call hcall
  refine h.setCall hcall rfl ⟨hf.shape, fun _ => hf.fresh (.inl hstage), by simp, hf.since_le,
    hf.restream fun _ => .inl hstage, fun _ => hf.enrolled (.inl hstage)⟩
      fun attempt hattempt => .inl ⟨(Option.some.inj hattempt).symm, .inl rfl⟩

private theorem Sound.send {result : Except ClientError Unit} {next : Engine} {out : List Output} (h : Sound e)
    (hcall : e.calls c = some call) (hstep : e.send c call result = some (next, out)) : Sound next := by
  rw [Engine.send.eq_def] at hstep
  split_ifs at hstep with hstage
  have hf := h.calls c call hcall
  have henrolled := hf.enrolled (.inr (.inl hstage))
  obtain ⟨hphase, htrace⟩ := hf.fresh (.inr hstage)
  rcases result with err | ⟨⟩
  · cases hstep
    refine h.setCall_same hcall rfl ⟨?_, ?_, by simp, hf.since_le, hf.restream fun _ => .inr (.inl hstage),
      fun _ => henrolled⟩ fun _ => .inr (.inr (.inl rfl))
    · dsimp only
      rw [htrace]
      exact .closed .nil
    · rintro (hr | hr) <;> cases hr
  · cases hstep
    refine h.setCall_same hcall rfl ⟨hf.shape, ?_, fun _ => by rw [hphase]; rfl, hf.since_le,
      hf.restream fun _ => .inr (.inl hstage), fun _ => henrolled⟩ fun _ => .inr (.inl rfl)
    rintro (hr | hr) <;> cases hr

/-- A round of a running call on an input that accounts for the front of its channel. -/
private theorem Sound.round {input : Input} {queue : List Value} (h : Sound e) (hcall : e.calls c = some call)
    (hstage : call.stage = .running) (hread : received (call.phase.step call.key input).2 ++ queue = call.queue) :
    Sound (e.round c call input queue).1 := by
  have hf := h.calls c call hcall
  have henrolled := hf.enrolled (.inr (.inr (.inl hstage)))
  refine h.setCall_same hcall rfl ⟨hf.shape.step input, ?_, ?_, hf.since_le, ?_, fun _ => henrolled⟩ fun _ => ?_
  · dsimp only
    split_ifs <;> rintro (hr | hr) <;> cases hr
  · dsimp only
    split_ifs with hreturned
    · intro hr
      cases hr
    · exact fun _ => by simpa using hreturned
  · obtain ⟨missed, hown, hmissed⟩ := hf.stream
    refine ⟨missed, ?_, fun _ => hmissed (.inr (.inr (.inr (.inl hstage))))⟩
    rw [received_append, List.append_assoc (received call.trace), hread]
    exact hown
  · dsimp only
    split_ifs
    · exact .inr (.inr (.inl rfl))
    · exact .inr (.inl rfl)

private theorem Sound.receive {answers : Answers} {next : Engine} {out : List Output} (h : Sound e)
    (hcall : e.calls c = some call) (hstep : e.receive c call answers = some (next, out)) : Sound next := by
  rw [Engine.receive] at hstep
  split_ifs at hstep with hstage
  split at hstep
  · cases hstep
  · next value queue hqueue =>
    have hround : Sound (e.round c call (.event value answers) queue).1 := by
      refine h.round hcall hstage ?_
      rw [received_step ((h.calls c call hcall).waiting hstage), hqueue]
      rfl
    rw [Option.some.inj hstep] at hround
    exact hround

private theorem Sound.close {status : String} {next : Engine} {out : List Output} (h : Sound e)
    (hcall : e.calls c = some call) (hstep : e.close c call status = some (next, out)) : Sound next := by
  rw [Engine.close] at hstep
  split_ifs at hstep with hclosed
  have hround : Sound (e.round c call (.closed status) []).1 := by
    refine h.round hcall hclosed.1 ?_
    rw [received_closed, hclosed.2.1]
    rfl
  rw [Option.some.inj hstep] at hround
  exact hround

private theorem Sound.clear {next : Engine} {out : List Output} (h : Sound e) (hcall : e.calls c = some call)
    (hstep : e.clear c call = some (next, out)) : Sound next := by
  rw [Engine.clear] at hstep
  split_ifs at hstep with hstage
  cases hstep
  have hf := h.calls c call hcall
  have hout : ¬ Stage.Enrolled .finished := by rintro (hr | hr | hr | hr) <;> cases hr
  refine h.setCall hcall rfl ⟨hf.shape, ?_, by simp, hf.since_le, hf.restream fun hin => absurd hin hout,
    fun hin => absurd hin hout⟩ fun attempt hattempt => by cases hattempt
  rintro (hr | hr) <;> cases hr

/-- A call whose key the map gives up, or gives to another call, keeps what it has. -/
private theorem Followed.of_pending {pending : Key → Option ℕ} {active : Option UInt64}
    {calls : ℕ → Option Call} {ended : Bool} (h : Followed e c call)
    (henrolled : call.stage.Enrolled → ended = false → pending call.key = some c)
    (hmap : pending call.key = some c → e.pending call.key = some c) :
    Followed ⟨calls, pending, e.holding, active, e.lines, ended⟩ c call where
  shape := h.shape
  fresh := h.fresh
  waiting := h.waiting
  since_le := h.since_le
  stream := by
    obtain ⟨missed, hown, hmissed⟩ := h.stream
    exact ⟨missed, hown, fun hp => hmissed (hp.imp_left hmap)⟩
  enrolled := henrolled

/-- No line is on its way to a call that has not registered. -/
private theorem Sound.heldFor_fresh (h : Sound e) (hfresh : e.calls c = none) : e.heldFor c = [] := by
  rw [heldFor]
  split
  · next c' value hholding =>
    refine if_neg fun heq => ?_
    have := h.holding c' value hholding
    rw [heq, hfresh] at this
    cases this
  · rfl

private theorem Sound.register {request : Value} {next : Engine} {out : List Output} (h : Sound e)
    (hstep : e.register c request = some (next, out)) : Sound next := by
  rw [Engine.register] at hstep
  split at hstep
  · cases hstep
  · next hfresh =>
    split at hstep
    · cases hstep
      exact h
    · next key hkey =>
      split at hstep
      · cases hstep
        exact h
      · next hpending =>
        cases hstep
        have hheld := h.heldFor_fresh hfresh
        refine ⟨fun c' call' hc' => ?_, fun key' c' hc' => ?_, fun c' value hheld' => ?_, fun attempt hattempt => ?_⟩
        · dsimp only [Engine.setCall] at hc'
          rw [Function.update_apply] at hc'
          split_ifs at hc' with heq
          · cases hc'
            subst heq
            refine ⟨.streaming .nil, fun _ => ⟨rfl, rfl⟩, by simp, le_rfl, ⟨[], ?_, fun _ => rfl⟩,
              fun _ _ => Function.update_self _ _ _⟩
            change (e.lines.drop e.lines.length).filter _ = _
            rw [List.drop_length]
            exact (congrArg (fun held => [] ++ [] ++ held ++ []) hheld).symm
          · have hf := h.calls c' call' hc'
            refine hf.of_pending (fun hstage hended => ?_) fun hp => ?_
            · have hold := hf.enrolled hstage hended
              rw [Function.update_of_ne (fun heqk => by rw [heqk, hpending] at hold; cases hold)]
              exact hold
            · rw [Function.update_apply] at hp
              split_ifs at hp
              · exact absurd (Option.some.inj hp).symm heq
              · exact hp
        · dsimp only [Engine.setCall] at hc' ⊢
          rw [Function.update_apply] at hc'
          split_ifs at hc' with heqk
          · cases hc'
            exact ⟨_, Function.update_self _ _ _, heqk.symm⟩
          · obtain ⟨call', hcall', hkey'⟩ := h.pending key' c' hc'
            have hne : c' ≠ c := fun heq => by rw [heq, hfresh] at hcall'; cases hcall'
            exact ⟨call', by rw [Function.update_of_ne hne]; exact hcall', hkey'⟩
        · have := h.holding c' value hheld'
          dsimp only [Engine.setCall]
          rw [Function.update_apply]
          split_ifs
          · rfl
          · exact this
        · obtain ⟨c', call', hcall', hattempt', hpublished⟩ := h.active attempt hattempt
          have hne : c' ≠ c := fun heq => by rw [heq, hfresh] at hcall'; cases hcall'
          exact ⟨c', call', (Function.update_of_ne hne _ _).trans hcall', hattempt', hpublished⟩

private theorem Sound.remove {next : Engine} {out : List Output} (h : Sound e) (hcall : e.calls c = some call)
    (hstep : e.remove c call = some (next, out)) : Sound next := by
  rw [Engine.remove] at hstep
  split_ifs at hstep with hstage
  cases hstep
  have hf := h.calls c call hcall
  have hout : ¬ Stage.Enrolled .clearing := by rintro (hr | hr | hr | hr) <;> cases hr
  have hleft : Sound (e.setCall c { call with stage := .clearing }) := by
    refine h.setCall_same hcall rfl ⟨hf.shape, ?_, by simp, hf.since_le, hf.restream fun hin => absurd hin hout,
      fun hin => absurd hin hout⟩ fun _ => .inr (.inr (.inr rfl))
    rintro (hr | hr) <;> cases hr
  refine ⟨fun c' call' hc' => ?_, fun key' c' hc' => ?_, hleft.holding, hleft.active⟩
  · have hf' := hleft.calls c' call' hc'
    refine hf'.of_pending (fun hstage' hended => ?_) fun hp => ?_
    · -- an enrolled call of the same key would be this one, which has left
      have hold := hf'.enrolled hstage' hended
      have hself := hf.enrolled (.inr (.inr (.inr hstage))) hended
      rw [Function.update_of_ne fun heqk => ?_]
      · exact hold
      · have hold' : e.pending call'.key = some c' := hold
        rw [heqk, hself] at hold'
        cases hold'
        dsimp only [Engine.setCall] at hc'
        rw [Function.update_self] at hc'
        cases hc'
        rcases hstage' with hr | hr | hr | hr <;> cases hr
    · rw [Function.update_apply] at hp
      split_ifs at hp
      exact hp
  · dsimp only at hc'
    rw [Function.update_apply] at hc'
    split_ifs at hc'
    exact hleft.pending key' c' hc'

private theorem Sound.eof {next : Engine} {out : List Output} (h : Sound e) (hstep : e.eof = some (next, out)) :
    Sound next := by
  rw [Engine.eof] at hstep
  split_ifs at hstep
  cases hstep
  refine ⟨fun c call hcall => ?_, fun key c hc => ?_, h.holding, h.active⟩
  · exact (h.calls c call hcall).of_pending (fun _ hended => by cases hended) fun hp => by cases hp
  · cases hc

private theorem ownLines_snoc (value : Value) (hle : call.since ≤ e.lines.length) :
    { e with lines := e.lines ++ [value] }.ownLines call =
      e.ownLines call ++ if route value = .pending call.key then [value] else [] := by
  rw [ownLines, ownLines, List.drop_append_of_le_length hle, List.filter_append]
  congr 1
  by_cases hroute : route value = .pending call.key
  · simp [hroute]
  · simp [hroute]

/-- A line read while none is held: it is held for the call its key stands for. -/
private theorem Followed.read {value : Value} {holding : Option (ℕ × Value)} (h : Followed e c call)
    (hidle : e.holding = none) (hended : e.ended = false)
    (hown : route value = .pending call.key → e.pending call.key = some c →
      holding = some (c, value))
    (hother : ∀ value', holding = some (c, value') → route value = .pending call.key ∧ e.pending call.key = some c) :
    Followed { e with lines := e.lines ++ [value], holding := holding } c call where
  shape := h.shape
  fresh := h.fresh
  waiting := h.waiting
  since_le := by
    have := h.since_le
    simp only [List.length_append, List.length_singleton]
    omega
  stream := by
    obtain ⟨missed, hlines, hmissed⟩ := h.stream
    have hnone : e.heldFor c = [] := by rw [heldFor, hidle]
    rw [hnone, List.append_nil] at hlines
    have hread := ownLines_snoc value h.since_le
    change ∃ missed, { e with lines := e.lines ++ [value] }.ownLines call = _ ∧ _
    rw [hread, hlines]
    by_cases hmine : route value = .pending call.key ∧ e.pending call.key = some c
    · have hheld : { e with lines := e.lines ++ [value], holding := holding }.heldFor c = [value] := by
        rw [heldFor, hown hmine.1 hmine.2]
        exact if_pos rfl
      rw [hheld, hmissed (.inl hmine.2), if_pos hmine.1]
      exact ⟨[], by simp, fun _ => rfl⟩
    · have hheld : { e with lines := e.lines ++ [value], holding := holding }.heldFor c = [] := by
        rw [heldFor]
        split
        · next c' value' hholding =>
          refine if_neg fun heq => hmine (hother value' ?_)
          rw [← heq]
          exact hholding
        · rfl
      rw [hheld]
      refine ⟨missed ++ if route value = .pending call.key then [value] else [], by simp, fun hp => ?_⟩
      rw [hmissed hp, if_neg fun hroute => hmine ⟨hroute, hp.elim id fun hin => h.enrolled hin hended⟩]
      rfl
  enrolled := h.enrolled

private theorem Sound.readLine {value : Value} {next : Engine} {out : List Output} (h : Sound e)
    (hstep : e.readLine value = some (next, out)) : Sound next := by
  rw [Engine.readLine] at hstep
  split_ifs at hstep with hbusy
  simp only [Bool.or_eq_true, not_or, Bool.not_eq_true, Option.isSome_eq_false_iff, Option.isNone_iff_eq_none] at hbusy
  obtain ⟨hended, hidle⟩ := hbusy
  dsimp only at hstep
  split at hstep
  · next key hroute =>
    cases hstep
    refine ⟨fun c call hcall => ?_, h.pending, fun c value' hheld => ?_, h.active⟩
    · refine (h.calls c call hcall).read hidle hended (fun hown hp => ?_) fun value' hheld => ?_
      · rw [hroute] at hown
        cases hown
        rw [hp]
        rfl
      · obtain ⟨c', hp, heq⟩ := Option.map_eq_some_iff.mp hheld
        cases heq
        obtain ⟨call', hcall', hkey'⟩ := h.pending key c hp
        rw [hcall] at hcall'
        cases hcall'
        rw [hkey']
        exact ⟨hroute, hp⟩
    · obtain ⟨c', hp, heq⟩ := Option.map_eq_some_iff.mp hheld
      cases heq
      obtain ⟨call', hcall', -⟩ := h.pending key c hp
      rw [hcall']
      rfl
  · next hroute =>
    cases hstep
    refine ⟨fun c call hcall => ?_, h.pending, h.holding, h.active⟩
    refine (h.calls c call hcall).read hidle hended (fun hown => absurd hown (hroute call.key)) fun value' hheld => ?_
    rw [hidle] at hheld
    cases hheld

private theorem Sound.deliver {next : Engine} {out : List Output} (h : Sound e)
    (hstep : e.deliver = some (next, out)) : Sound next := by
  rw [Engine.deliver] at hstep
  split at hstep
  · cases hstep
  · next c value hholding =>
    split at hstep
    · next hnone =>
      have := h.holding c value hholding
      rw [hnone] at this
      cases this
    · next call hcall =>
      cases hstep
      have hother : ∀ {c' : ℕ} {call' : Call}, c' ≠ c → e.calls c' = some call' →
          Followed { e with holding := none } c' call' := by
        intro c' call' hne hcall'
        have hf := h.calls c' call' hcall'
        have hheld : e.heldFor c' = [] := by
          rw [heldFor, hholding]
          exact if_neg hne.symm
        obtain ⟨missed, hlines, hmissed⟩ := hf.stream
        rw [hheld] at hlines
        exact ⟨hf.shape, hf.fresh, hf.waiting, hf.since_le, ⟨missed, hlines, hmissed⟩, hf.enrolled⟩
      have hself : Followed { e with holding := none } c { call with queue := call.queue ++ [value] } := by
        have hf := h.calls c call hcall
        have hheld : e.heldFor c = [value] := by
          rw [heldFor, hholding]
          exact if_pos rfl
        obtain ⟨missed, hlines, hmissed⟩ := hf.stream
        rw [hheld] at hlines
        refine ⟨hf.shape, hf.fresh, hf.waiting, hf.since_le, ⟨missed, ?_, hmissed⟩, hf.enrolled⟩
        refine Eq.trans hlines ?_
        simp [heldFor]
      refine ⟨fun c' call' hc' => ?_, fun key c' hc' => ?_, fun c' value' hheld => ?_, fun attempt hattempt => ?_⟩
      · dsimp only [Engine.setCall] at hc'
        rw [Function.update_apply] at hc'
        split_ifs at hc' with heq
        · cases hc'
          subst heq
          exact hself.congr rfl rfl rfl rfl
        · exact (hother heq hc').congr rfl rfl rfl rfl
      · obtain ⟨call', hcall', hkey'⟩ := h.pending key c' hc'
        by_cases heq : c' = c
        · subst heq
          rw [hcall] at hcall'
          cases hcall'
          exact ⟨_, Function.update_self _ _ _, hkey'⟩
        · exact ⟨call', (Function.update_of_ne heq _ _).trans hcall', hkey'⟩
      · cases hheld
      · obtain ⟨c', call', hcall', hattempt', hpublished⟩ := h.active attempt hattempt
        by_cases heq : c' = c
        · subst heq
          rw [hcall] at hcall'
          cases hcall'
          exact ⟨c', _, Function.update_self _ _ _, hattempt', hpublished⟩
        · exact ⟨c', call', (Function.update_of_ne heq _ _).trans hcall', hattempt', hpublished⟩

theorem sound_spawn : Sound spawn where
  calls c call h := by cases h
  pending key c h := by cases h
  holding c value h := by cases h
  active attempt h := by cases h

/-- Every step keeps the bookkeeping. -/
theorem Sound.step {label : Label} {next : Engine} {out : List Output} (h : Sound e)
    (hstep : e.step label = some (next, out)) : Sound next := by
  cases label with
  | register c request => exact h.register hstep
  | line value => exact h.readLine hstep
  | deliver => exact h.deliver hstep
  | eof => exact h.eof hstep
  | announce c =>
    obtain ⟨call, hcall, hstep⟩ := Option.bind_eq_some_iff.mp hstep
    exact h.announce hcall hstep
  | send c result =>
    obtain ⟨call, hcall, hstep⟩ := Option.bind_eq_some_iff.mp hstep
    exact h.send hcall hstep
  | receive c answers =>
    obtain ⟨call, hcall, hstep⟩ := Option.bind_eq_some_iff.mp hstep
    exact h.receive hcall hstep
  | close c status =>
    obtain ⟨call, hcall, hstep⟩ := Option.bind_eq_some_iff.mp hstep
    exact h.close hcall hstep
  | remove c =>
    obtain ⟨call, hcall, hstep⟩ := Option.bind_eq_some_iff.mp hstep
    exact h.remove hcall hstep
  | clear c =>
    obtain ⟨call, hcall, hstep⟩ := Option.bind_eq_some_iff.mp hstep
    exact h.clear hcall hstep

/-- What a call's callback has been given, against the lines of the call's key. -/
structure CallbackStream (e : Engine) (c : ℕ) (call : Call) : Prop where
  own : ∀ pair ∈ callbacks call.trace, route pair.1 = .pending call.key
  wire : ∃ silent missed, e.ownLines call =
      (callbacks call.trace).map Prod.fst ++ silent ++ call.queue ++ e.heldFor c ++ missed ∧
    (call.phase = .streaming → silent = []) ∧
    (silent ≠ [] → ∃ pair, (callbacks call.trace).getLast? = some pair ∧ Stops pair) ∧
    (e.pending call.key = some c ∨ call.stage.Enrolled → missed = [])
  until_stop : ∀ pair ∈ (callbacks call.trace).dropLast, ¬ Stops pair

/-- The lines a call has read, and those that wait for it, are of its key. -/
private theorem Sound.own (h : Sound e) (hcall : e.calls c = some call) {value : Value}
    (hmem : value ∈ received call.trace ∨ value ∈ call.queue) : route value = .pending call.key := by
  obtain ⟨missed, hlines, -⟩ := (h.calls c call hcall).stream
  have hown : value ∈ e.ownLines call := by
    rw [hlines]
    rcases hmem with hmem | hmem <;> simp [hmem]
  simpa [ownLines] using (List.mem_filter.mp hown).2

private theorem Sound.passed (h : Sound e) (hcall : e.calls c = some call) : Passed call.phase call.trace :=
  passed_of_shape (h.calls c call hcall).shape fun _ hmem => not_stale_of_route (h.own hcall (.inl hmem))

private theorem Sound.callbackStream (h : Sound e) (hcall : e.calls c = some call) : CallbackStream e c call := by
  obtain ⟨missed, hlines, hmissed⟩ := (h.calls c call hcall).stream
  obtain ⟨⟨silent, hreceived, hstream, hlast⟩, hordinary⟩ := h.passed hcall
  refine ⟨fun pair hmem => h.own hcall (.inl ?_), ⟨silent, missed, ?_, hstream, hlast, hmissed⟩, hordinary⟩
  · rw [hreceived]
    exact List.mem_append_left _ (List.mem_map_of_mem hmem)
  · rw [hlines, hreceived]

/-- Where a call that streams no more stands: its last callback ended the stream, or its request was not sent, or the
daemon's output has ended and the callback has seen every line of its key. -/
def Concluded (outputs : List Output) (e : Engine) (c : ℕ) (call : Call) : Prop :=
  (∃ pair, (callbacks call.trace).getLast? = some pair ∧ Stops pair) ∨ Output.generate c call.key ∉ outputs ∨
    (e.ended = true ∧ e.ownLines call = (callbacks call.trace).map Prod.fst)

/-- The outputs of a run against the state after it. -/
structure Traced (outputs : List Output) (e : Engine) : Prop where
  unsent : ∀ c, (∀ call, e.calls c = some call → call.stage = .registered ∨ call.stage = .announced) →
    ∀ key, Output.generate c key ∉ outputs
  drained : e.ended = true → e.holding = none
  concluded : ∀ c call, e.calls c = some call → call.phase ≠ .streaming → Concluded outputs e c call

section Traced
variable {outputs out : List Output} {next : Engine}

private theorem traced_spawn : Traced [] spawn where
  unsent c _ key := List.not_mem_nil
  drained h := by cases h
  concluded c call h := by cases h

/-- Nothing that happens to others changes how a call concluded. -/
private theorem Concluded.mono (h : Concluded outputs e c call) (hout : ∀ key, Output.generate c key ∉ out)
    (hended : e.ended = true → next.ended = true ∧ next.lines = e.lines) : Concluded (outputs ++ out) next c call := by
  refine h.imp_right (Or.imp (fun hnot hin => ?_) fun ⟨hend, hlines⟩ => ⟨(hended hend).1, ?_⟩)
  · exact (List.mem_append.mp hin).elim hnot (hout call.key)
  · rw [ownLines, (hended hend).2]
    exact hlines

/-- A step that changes one call at most, and sends no request but its own. -/
private theorem Traced.update {new : Call} (h : Traced outputs e) (hcalls : next.calls = Function.update e.calls c (some new))
    (hout : ∀ c' key, Output.generate c' key ∈ out → c' = c)
    (hended : e.ended = true → next.ended = true ∧ next.lines = e.lines) (hdrained : next.ended = true → next.holding = none)
    (hunsent : new.stage = .registered ∨ new.stage = .announced → ∀ key, Output.generate c key ∉ outputs ++ out)
    (hnew : new.phase ≠ .streaming → Concluded (outputs ++ out) next c new) : Traced (outputs ++ out) next where
  unsent c' hstage key hin := by
    by_cases heq : c' = c
    · subst heq
      refine hunsent (hstage new ?_) key hin
      rw [hcalls, Function.update_self]
    · refine (List.mem_append.mp hin).elim (h.unsent c' (fun call hcall => hstage call ?_) key) fun hin => ?_
      · rw [hcalls, Function.update_of_ne heq]
        exact hcall
      · exact heq (hout c' key hin)
  drained := hdrained
  concluded c' call' hc' hphase := by
    rw [hcalls, Function.update_apply] at hc'
    split_ifs at hc' with heq
    · cases hc'
      subst heq
      exact hnew hphase
    · exact (h.concluded c' call' hc' hphase).mono (fun key hin => heq (hout c' key hin)) hended

/-- A step that changes no call and sends nothing. -/
private theorem Traced.keep (h : Traced outputs e) (hcalls : next.calls = e.calls)
    (hout : ∀ c key, Output.generate c key ∉ out) (hended : e.ended = true → next.ended = true ∧ next.lines = e.lines)
    (hdrained : next.ended = true → next.holding = none) : Traced (outputs ++ out) next where
  unsent c hstage key hin := by
    rw [hcalls] at hstage
    exact (List.mem_append.mp hin).elim (h.unsent c hstage key) (hout c key)
  drained := hdrained
  concluded c call hcall hphase := (h.concluded c call (hcalls ▸ hcall) hphase).mono (hout c) hended

private theorem Traced.register {request : Value} (h : Traced outputs e)
    (hstep : e.register c request = some (next, out)) : Traced (outputs ++ out) next := by
  rw [Engine.register] at hstep
  split at hstep
  · cases hstep
  · next hfresh =>
    split at hstep
    · cases hstep
      exact h.keep rfl (by simp) (fun hend => ⟨hend, rfl⟩) h.drained
    · split at hstep
      · cases hstep
        exact h.keep rfl (by simp) (fun hend => ⟨hend, rfl⟩) h.drained
      · cases hstep
        refine h.update rfl (by simp) (fun hend => ⟨hend, rfl⟩) h.drained (fun _ key => ?_) fun hne => absurd rfl hne
        rw [List.append_nil]
        exact h.unsent c (fun call hcall => by rw [hfresh] at hcall; cases hcall) key

/-- A call that stays where it is in its protocol. -/
private theorem Traced.same {new : Call} (h : Traced outputs e) (hcall : e.calls c = some call)
    (hcalls : next.calls = Function.update e.calls c (some new)) (hout : ∀ c key, Output.generate c key ∉ out)
    (hended : e.ended = true → next.ended = true ∧ next.lines = e.lines) (hdrained : next.ended = true → next.holding = none)
    (hstage : new.stage = .registered ∨ new.stage = .announced → call.stage = .registered ∨ call.stage = .announced)
    (hphase : new.phase = call.phase) (htrace : new.trace = call.trace) (hkey : new.key = call.key)
    (hsince : new.since = call.since) : Traced (outputs ++ out) next := by
  refine h.update hcalls (fun c' key hin => absurd hin (hout c' key)) hended hdrained (fun hnew key hin => ?_) fun hne => ?_
  · refine (List.mem_append.mp hin).elim (h.unsent c (fun call' hcall' => ?_) key) (hout c key)
    rw [hcall] at hcall'
    exact Option.some.inj hcall' ▸ hstage hnew
  · have hold := (h.concluded c call hcall (hphase ▸ hne)).mono (hout c) hended
    rw [Concluded, ownLines] at hold ⊢
    rwa [htrace, hkey, hsince]

private theorem Traced.announce (h : Traced outputs e) (hcall : e.calls c = some call)
    (hstep : e.announce c call = some (next, out)) : Traced (outputs ++ out) next := by
  rw [Engine.announce] at hstep
  split_ifs at hstep with hstage
  cases hstep
  exact h.same hcall rfl (by simp) (fun hend => ⟨hend, rfl⟩) h.drained (fun _ => .inl hstage) rfl rfl rfl rfl

private theorem Traced.send {result : Except ClientError Unit} (h : Traced outputs e) (hsound : Sound e)
    (hcall : e.calls c = some call) (hstep : e.send c call result = some (next, out)) : Traced (outputs ++ out) next := by
  rw [Engine.send.eq_def] at hstep
  split_ifs at hstep with hstage
  rcases result with err | ⟨⟩
  · cases hstep
    refine h.update rfl (by simp) (fun hend => ⟨hend, rfl⟩) h.drained (by simp) fun _ => .inr (.inl ?_)
    rw [List.append_nil]
    refine h.unsent c (fun call' hcall' => ?_) call.key
    rw [hcall] at hcall'
    exact Option.some.inj hcall' ▸ .inr hstage
  · cases hstep
    refine h.update rfl (by simp) (fun hend => ⟨hend, rfl⟩) h.drained (by simp) fun hne => absurd ?_ hne
    exact ((hsound.calls c call hcall).fresh (.inr hstage)).1

private theorem decisions_no_generate (c' : ℕ) (key key' : Key) (effects : List Effect) :
    Output.generate c' key' ∉ decisions c key effects := by
  intro hin
  obtain ⟨effect, -, heq⟩ := List.mem_filterMap.mp hin
  cases effect <;> cases heq

/-- A round of a running call, told how it concludes if it streams no more. -/
private theorem Traced.round {input : Input} {queue : List Value} (h : Traced outputs e)
    (hnew : (call.phase.step call.key input).1 ≠ .streaming →
      Concluded (outputs ++ (e.round c call input queue).2) (e.round c call input queue).1 c
        { call with queue := queue, phase := (call.phase.step call.key input).1,
                    trace := call.trace ++ (call.phase.step call.key input).2,
                    stage := if (call.phase.step call.key input).1.isReturned then .leaving else .running }) :
    Traced (outputs ++ (e.round c call input queue).2) (e.round c call input queue).1 := by
  refine h.update rfl (fun c' key hin => absurd hin (decisions_no_generate c' call.key key _)) (fun hend => ⟨hend, rfl⟩)
    h.drained ?_ hnew
  dsimp only
  split_ifs <;> rintro (hr | hr) <;> cases hr

/-- What a call concluded with before, it concludes with after a round that passes nothing on. -/
private theorem Concluded.settled {input : Input} {queue : List Value} {stage : Stage} (h : Concluded outputs e c call)
    (hphase : call.phase ≠ .streaming) :
    Concluded (outputs ++ (e.round c call input queue).2) (e.round c call input queue).1 c
      { call with queue := queue, phase := (call.phase.step call.key input).1,
                  trace := call.trace ++ (call.phase.step call.key input).2, stage := stage } := by
  have hsilent := (callbacks_settled call.key hphase input).1
  have hold : Concluded (outputs ++ (e.round c call input queue).2) (e.round c call input queue).1 c call :=
    h.mono (fun key => decisions_no_generate c call.key key _) fun hend => ⟨hend, rfl⟩
  rw [Concluded, ownLines] at hold ⊢
  rw [callbacks_append, hsilent, List.append_nil]
  exact hold

private theorem Traced.receive {answers : Answers} (h : Traced outputs e) (hsound : Sound e)
    (hcall : e.calls c = some call) (hstep : e.receive c call answers = some (next, out)) :
    Traced (outputs ++ out) next := by
  rw [Engine.receive] at hstep
  split_ifs at hstep with hstage
  split at hstep
  · cases hstep
  · next value queue hqueue =>
    have hround : Traced (outputs ++ (e.round c call (.event value answers) queue).2)
        (e.round c call (.event value answers) queue).1 := by
      refine h.round fun hleft => ?_
      by_cases hphase : call.phase = .streaming
      · refine .inl ?_
        rw [hphase] at hleft ⊢
        have hwaits : value ∈ call.queue := by
          rw [hqueue]
          exact List.mem_cons_self
        exact stops_of_event (not_stale_of_route (hsound.own hcall (.inr hwaits))) hleft
      · exact (h.concluded c call hcall hphase).settled hphase
    rw [Option.some.inj hstep] at hround
    exact hround

private theorem Traced.close {status : String} (h : Traced outputs e) (hsound : Sound e)
    (hcall : e.calls c = some call) (hstep : e.close c call status = some (next, out)) :
    Traced (outputs ++ out) next := by
  rw [Engine.close] at hstep
  split_ifs at hstep with hclosed
  have hround : Traced (outputs ++ (e.round c call (.closed status) []).2) (e.round c call (.closed status) []).1 := by
    refine h.round fun _ => ?_
    by_cases hphase : call.phase = .streaming
    · -- a running call is in the map until the output ends, so it has read all there is
      have hf := hsound.calls c call hcall
      have hrunning : call.stage.Enrolled := .inr (.inr (.inl hclosed.1))
      have hended : e.ended = true := by
        cases hend : e.ended with
        | true => rfl
        | false => exact absurd (hf.enrolled hrunning hend) hclosed.2.2.1
      obtain ⟨missed, hlines, hmissed⟩ := hf.stream
      have hheld : e.heldFor c = [] := by rw [heldFor, h.drained hended]
      obtain ⟨⟨silent, hreceived, hsilent, -⟩, -⟩ := hsound.passed hcall
      refine .inr (.inr ⟨hended, ?_⟩)
      have hown : e.ownLines call = (callbacks call.trace).map Prod.fst := by
        rw [hlines, hclosed.2.1, hheld, hmissed (.inr hrunning), hreceived, hsilent hphase]
        simp
      rw [hphase, callbacks_append]
      exact hown.trans (by rw [show callbacks (Phase.streaming.step call.key (.closed status)).2 = [] from rfl,
        List.append_nil])
    · exact (h.concluded c call hcall hphase).settled hphase
  rw [Option.some.inj hstep] at hround
  exact hround

private theorem Traced.remove (h : Traced outputs e) (hcall : e.calls c = some call)
    (hstep : e.remove c call = some (next, out)) : Traced (outputs ++ out) next := by
  rw [Engine.remove] at hstep
  split_ifs at hstep
  cases hstep
  exact h.same hcall rfl (by simp) (fun hend => ⟨hend, rfl⟩) h.drained (by simp) rfl rfl rfl rfl

private theorem Traced.clear (h : Traced outputs e) (hcall : e.calls c = some call)
    (hstep : e.clear c call = some (next, out)) : Traced (outputs ++ out) next := by
  rw [Engine.clear] at hstep
  split_ifs at hstep
  cases hstep
  exact h.same hcall rfl (by simp) (fun hend => ⟨hend, rfl⟩) h.drained (by simp) rfl rfl rfl rfl

private theorem Traced.readLine {value : Value} (h : Traced outputs e) (hstep : e.readLine value = some (next, out)) :
    Traced (outputs ++ out) next := by
  rw [Engine.readLine] at hstep
  split_ifs at hstep with hbusy
  simp only [Bool.or_eq_true, not_or, Bool.not_eq_true, Option.isSome_eq_false_iff, Option.isNone_iff_eq_none] at hbusy
  obtain ⟨hended, hidle⟩ := hbusy
  have hopen : ∀ {P : Prop}, e.ended = true → P := fun hend => by rw [hended] at hend; cases hend
  dsimp only at hstep
  split at hstep
  · cases hstep
    exact h.keep rfl (by simp) hopen hopen
  · cases hstep
    exact h.keep rfl (by simp) hopen hopen

private theorem Traced.deliver (h : Traced outputs e) (hstep : e.deliver = some (next, out)) :
    Traced (outputs ++ out) next := by
  rw [Engine.deliver] at hstep
  split at hstep
  · cases hstep
  · next c value hholding =>
    split at hstep
    · cases hstep
      exact h.keep rfl (by simp) (fun hend => ⟨hend, rfl⟩) fun _ => rfl
    · next call hcall =>
      cases hstep
      exact h.same hcall rfl (by simp) (fun hend => ⟨hend, rfl⟩) (fun _ => rfl) id rfl rfl rfl rfl

private theorem Traced.eof (h : Traced outputs e) (hstep : e.eof = some (next, out)) : Traced (outputs ++ out) next := by
  rw [Engine.eof] at hstep
  split_ifs at hstep with hbusy
  simp only [Bool.or_eq_true, not_or, Bool.not_eq_true, Option.isSome_eq_false_iff, Option.isNone_iff_eq_none] at hbusy
  cases hstep
  exact h.keep rfl (by simp) (fun _ => ⟨rfl, rfl⟩) fun _ => hbusy.2

private theorem Traced.step {label : Label} (h : Traced outputs e) (hsound : Sound e)
    (hstep : e.step label = some (next, out)) : Traced (outputs ++ out) next := by
  cases label with
  | register c request => exact h.register hstep
  | line value => exact h.readLine hstep
  | deliver => exact h.deliver hstep
  | eof => exact h.eof hstep
  | announce c =>
    obtain ⟨call, hcall, hstep⟩ := Option.bind_eq_some_iff.mp hstep
    exact h.announce hcall hstep
  | send c result =>
    obtain ⟨call, hcall, hstep⟩ := Option.bind_eq_some_iff.mp hstep
    exact h.send hsound hcall hstep
  | receive c answers =>
    obtain ⟨call, hcall, hstep⟩ := Option.bind_eq_some_iff.mp hstep
    exact h.receive hsound hcall hstep
  | close c status =>
    obtain ⟨call, hcall, hstep⟩ := Option.bind_eq_some_iff.mp hstep
    exact h.close hsound hcall hstep
  | remove c =>
    obtain ⟨call, hcall, hstep⟩ := Option.bind_eq_some_iff.mp hstep
    exact h.remove hcall hstep
  | clear c =>
    obtain ⟨call, hcall, hstep⟩ := Option.bind_eq_some_iff.mp hstep
    exact h.clear hcall hstep

end Traced

/-- A second call of a live key is refused before it does anything. -/
private theorem Sound.register_live {c' : ℕ} {request : Value} (h : Sound e) (hcall : e.calls c = some call)
    (hstage : call.stage.Enrolled) (hended : e.ended = false) (hfresh : e.calls c' = none)
    (hkey : requestKey request = .ok call.key) :
    e.step (.register c' request) = some (e, [.result c' (.error (duplicateLive call.key))]) := by
  have hlive := (h.calls c call hcall).enrolled hstage hended
  rw [Engine.step, Engine.register, hfresh]
  dsimp only
  rw [hkey]
  dsimp only
  rw [hlive]

/-- However calls and lines interleave: a callback gets the lines of its call's key since the call registered, in order,
up to one that ends the stream; a call returns only after such a line, or unsent, or with the daemon's output ended and all
of its lines passed on; a second call of a live key is refused and changes nothing; and a published attempt is in flight. -/
theorem streams_never_cross {labels : List Label} {outputs : List Output}
    (h : Machine.Runs step (fun _ _ => True) spawn labels outputs e) :
    (∀ c call, e.calls c = some call →
      CallbackStream e c call ∧ (call.phase.isReturned = true → Concluded outputs e c call)) ∧
    (∀ c c' call request, e.calls c = some call → call.stage.Enrolled → e.ended = false → e.calls c' = none →
      requestKey request = .ok call.key →
        e.step (.register c' request) = some (e, [.result c' (.error (duplicateLive call.key))])) ∧
    ∀ attempt, e.activeAttemptId = some attempt →
      ∃ c call, e.calls c = some call ∧ call.key.2 = attempt ∧ call.stage.Published := by
  have hinv : Sound e ∧ Traced outputs e :=
    h.invariant (P := fun outputs e => Sound e ∧ Traced outputs e) ⟨sound_spawn, traced_spawn⟩
      fun _ _ _ _ _ ⟨hsound, htraced⟩ _ hstep => ⟨hsound.step hstep, htraced.step hsound hstep⟩
  obtain ⟨hsound, htraced⟩ := hinv
  refine ⟨fun c call hcall => ⟨hsound.callbackStream hcall, fun hreturned => ?_⟩, ?_, hsound.active⟩
  · exact htraced.concluded c call hcall fun hphase => by rw [hphase] at hreturned; cases hreturned
  · intro c c' call request hcall hstage hended hfresh hkey
    exact hsound.register_live hcall hstage hended hfresh hkey

section Commit

def record (type : String) : Value :=
  .object [("attempt_id", .number (.posInt 1)), ("id", .string "a"), ("type", .string type)]

def accepts : Answers := ⟨.ok (), .ok (), .ok ()⟩

/-- One call that stages, commits and ends. -/
def commitLabels : List Label :=
  [.register 0 (record "generate"), .announce 0, .send 0 (.ok ()), .line (record "commit_ready"), .deliver,
    .receive 0 accepts, .line (record "done"), .deliver, .receive 0 accepts]

private theorem commit_run : ∃ outputs e call, Machine.Runs step (fun _ _ => True) spawn commitLabels outputs e ∧
    e.calls 0 = some call ∧ call.phase.isReturned = true ∧
      (callbacks call.trace).map Prod.fst = [record "commit_ready"] ∧
        e.ownLines call = [record "commit_ready", record "done"] := by
  have hfollow : ∃ result call, Machine.Runs.follow step spawn commitLabels = some result ∧
      result.2.calls 0 = some call ∧ call.phase.isReturned = true ∧
        (callbacks call.trace).map Prod.fst = [record "commit_ready"] ∧
          result.2.ownLines call = [record "commit_ready", record "done"] := ⟨_, _, rfl, rfl, rfl, rfl, rfl⟩
  obtain ⟨⟨outputs, e⟩, call, hfollow, hcall⟩ := hfollow
  have hallowed : Machine.Runs.Allowed step (fun _ _ => True) spawn commitLabels :=
    Machine.Runs.allowed_of_forall (fun _ _ _ => trivial) spawn
  have hrun := Machine.Runs.nil.append_follow hallowed hfollow
  exact ⟨outputs, e, call, by simpa using hrun, hcall⟩

theorem commit_followed : ∃ outputs e call, Machine.Runs step (fun _ _ => True) spawn commitLabels outputs e ∧
    e.calls 0 = some call ∧ CallbackStream e 0 call ∧ Concluded outputs e 0 call := by
  obtain ⟨outputs, e, call, hrun, hcall, hreturned, -, -⟩ := commit_run
  obtain ⟨hstream, hconcluded⟩ := (streams_never_cross hrun).1 0 call hcall
  exact ⟨outputs, e, call, hrun, hcall, hstream, hconcluded hreturned⟩

/-- The events up to and with the first terminal one. -/
def upToTerminal : List Value → List Value
  | [] => []
  | value :: rest =>
    if value.type = some "done" ∨ value.type = some "error" then [value] else value :: upToTerminal rest

/-- The `done` that answers a commit is the call's result and not passed to its callback. -/
theorem committed_done_not_passed : ¬ ∀ labels outputs e,
    Machine.Runs step (fun _ _ => True) spawn labels outputs e → ∀ c call, e.calls c = some call →
      call.phase.isReturned = true → (callbacks call.trace).map Prod.fst = upToTerminal (e.ownLines call) := by
  intro h
  obtain ⟨outputs, e, call, hrun, hcall, hreturned, hpassed, hown⟩ := commit_run
  have heq := h commitLabels outputs e hrun 0 call hcall hreturned
  rw [hpassed, hown] at heq
  revert heq
  decide

end Commit

end Engine
end Hipscope.Client
