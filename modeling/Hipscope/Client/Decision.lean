import Hipscope.Client.Dispatch

/-! Every run of a generate call has one of a few shapes; from them, that the attempt is
decided at most once. -/
namespace Hipscope.Client

/-- The daemon has closed the transaction. -/
def Value.Terminal (value : Value) : Prop := value.type = some "done" ∨ value.type = some "error"

/-- Neither terminal nor the start of a commit. -/
def Value.Ordinary (value : Value) : Prop := ¬ value.Terminal ∧ value.type ≠ some "commit_ready"

namespace Effect

/-- A message to the daemon that was delivered. -/
def delivers : Effect → Bool
  | .sent _ => true
  | _ => false

/-- A message to the daemon, delivered or not. -/
def Tells (effect : Effect) : Prop := ∃ decision, effect = .sent decision ∨ effect = .sendFailed decision

def EndsAttempt (effect : Effect) : Prop := ∃ value : Value, value.Terminal ∧ effect = .received value

end Effect

namespace Phase
variable {key : Key} {phase : Phase} {trace : List Effect}

/-- Events passed to a callback that accepted them. -/
inductive Calm : List Effect → Prop
  | nil : Calm []
  | snoc {trace : List Effect} {value : Value} : Calm trace → value.Ordinary →
    Calm (trace ++ [.received value, .called value (.ok ())])

/-- Why a call aborts: its callback failed before a terminal event, or its commit was not sent. -/
inductive Refused : List Effect → Prop
  | callback {value : Value} {err : ClientError} : ¬ value.Terminal →
    Refused [.received value, .called value (.error err)]
  | commit {value : Value} : value.type = some "commit_ready" →
    Refused [.received value, .called value (.ok ()), .sendFailed .commit]

/-- All a call can have done, and where it then is. -/
inductive Shape (key : Key) : Phase → List Effect → Prop
  | streaming {calm : List Effect} : Calm calm → Shape key .streaming calm
  | closed {calm : List Effect} {err : ClientError} : Calm calm → Shape key (.returned (.error err)) calm
  | stale {calm : List Effect} {value : Value} {err : ClientError} : Calm calm →
    rejectStaleLifecycleEvent value key = some err →
    Shape key (.returned (.error err)) (calm ++ [.received value])
  | finished {calm : List Effect} {value : Value} {answer : Except ClientError Unit}
    {result : Except ClientError Value} : Calm calm → value.Terminal →
    (∀ done, result = .ok done → done = value ∧ value.type = some "done" ∧ answer = .ok ()) →
    Shape key (.returned result) (calm ++ [.received value, .called value answer])
  | committing {calm : List Effect} {staged : Value} : Calm calm → staged.type = some "commit_ready" →
    Shape key (.committing staged) (calm ++ [.received staged, .called staged (.ok ()), .sent .commit])
  | commitClosed {calm : List Effect} {staged : Value} {err : ClientError} : Calm calm →
    staged.type = some "commit_ready" →
    Shape key (.returned (.error err)) (calm ++ [.received staged, .called staged (.ok ()), .sent .commit])
  | committed {calm : List Effect} {staged value : Value} {result : Except ClientError Value} : Calm calm →
    staged.type = some "commit_ready" →
    (∀ done, result = .ok done → done = value ∧ value.type = some "done" ∧
      staged.insert "type" (.string "done") = value.insert "type" (.string "done")) →
    Shape key (.returned result)
      (calm ++ [.received staged, .called staged (.ok ()), .sent .commit] ++ [.received value])
  | aborting {calm refused : List Effect} {drained : List Value} {original : ClientError} {sawAborted : Bool} :
    Calm calm → Refused refused →
    Shape key (.aborting original sawAborted) (calm ++ refused ++ [.sent .abort] ++ drained.map .received)
  | aborted {calm refused : List Effect} {drained : List Value} {err : ClientError} :
    Calm calm → Refused refused →
    Shape key (.returned (.error err)) (calm ++ refused ++ [.sent .abort] ++ drained.map .received)
  | abortFailed {calm refused : List Effect} {err : ClientError} : Calm calm → Refused refused →
    Shape key (.returned (.error err)) (calm ++ refused ++ [.sendFailed .abort])

private theorem shape_abort {calm refused : List Effect} (answers : Answers) (original : ClientError)
    (hcalm : Calm calm) (hrefused : Refused refused) :
    Shape key (abortAndDrain answers original).1 (calm ++ (refused ++ (abortAndDrain answers original).2)) := by
  rw [abortAndDrain]
  rcases answers.abortSend with err | ⟨⟩
  · have hshape : Shape key (.returned (.error err)) (calm ++ refused ++ [.sendFailed .abort]) :=
      .abortFailed hcalm hrefused
    rwa [List.append_assoc] at hshape
  · have hshape : Shape key (.aborting original false) (calm ++ refused ++ [.sent .abort] ++ [].map .received) :=
      .aborting hcalm hrefused
    rwa [List.map_nil, List.append_nil, List.append_assoc] at hshape

/-- A round of the stream. -/
private theorem shape_generateWithRx {calm : List Effect} (value : Value) (answers : Answers) (hcalm : Calm calm) :
    Shape key (generateWithRx key value answers).1 (calm ++ (.received value :: (generateWithRx key value answers).2)) := by
  rw [generateWithRx]
  cases hstale : rejectStaleLifecycleEvent value key with
  | some err => exact .stale hcalm hstale
  | none =>
    dsimp only
    by_cases hready : value.type = some "commit_ready"
    · rw [if_pos hready]
      have hnot : ¬ value.Terminal := by
        rintro (h | h) <;> rw [hready] at h <;> exact absurd h (by decide)
      rcases hcb : answers.callback with cbErr | ⟨⟩
      · exact shape_abort answers cbErr hcalm (.callback hnot)
      · rcases hcommit : answers.commitSend with err | ⟨⟩
        · exact shape_abort answers err hcalm (.commit hready)
        · exact .committing hcalm hready
    · rw [if_neg hready]
      rcases hcb : answers.callback with cbErr | ⟨⟩
      · dsimp only
        by_cases herror : value.type = some "error"
        · rw [if_pos herror]
          exact .finished hcalm (.inr herror) fun _ h => by cases h
        · rw [if_neg herror]
          by_cases hdone : value.type = some "done"
          · rw [if_pos hdone]
            exact .finished hcalm (.inl hdone) fun _ h => by cases h
          · rw [if_neg hdone]
            exact shape_abort answers cbErr hcalm (.callback (not_or.mpr ⟨hdone, herror⟩))
      · dsimp only
        by_cases hdone : value.type = some "done"
        · rw [if_pos hdone]
          exact .finished hcalm (.inl hdone) fun done h => ⟨(Except.ok.inj h).symm, hdone, rfl⟩
        · rw [if_neg hdone]
          by_cases herror : value.type = some "error"
          · rw [if_pos herror]
            exact .finished hcalm (.inr herror) fun _ h => by cases h
          · rw [if_neg herror]
            exact .streaming (hcalm.snoc ⟨not_or.mpr ⟨hdone, herror⟩, hready⟩)

private theorem drainCommittedDone_ok {staged value done : Value}
    (h : drainCommittedDone key staged value = .ok done) :
    done = value ∧ value.type = some "done" ∧
      staged.insert "type" (.string "done") = value.insert "type" (.string "done") := by
  rw [drainCommittedDone] at h
  split at h
  · cases h
  · split at h
    · next ty hty =>
      split_ifs at h with hdone haborted herror
      · rw [committedDonePayloadMismatch] at h
        split_ifs at h with hsame
        cases h
        exact ⟨rfl, hdone ▸ hty, hsame⟩
    · cases h

/-- A drain after an abort goes on or ends in an error. -/
private theorem drainAborted_cases (original : ClientError) (sawAborted : Bool) (value : Value) :
    (∃ saw, drainAborted key original sawAborted value = .aborting original saw) ∨
      ∃ err, drainAborted key original sawAborted value = .returned (.error err) := by
  rw [drainAborted]
  split_ifs
  · exact .inl ⟨_, rfl⟩
  · exact .inl ⟨_, rfl⟩
  · exact .inr ⟨_, rfl⟩
  · exact .inr ⟨_, rfl⟩
  · exact .inr ⟨_, rfl⟩
  · exact .inl ⟨_, rfl⟩

private theorem shape_returned {result : Except ClientError Value} (h : Shape key (.returned result) trace) (input : Input) :
    Shape key ((returned result).step key input).1 (trace ++ ((returned result).step key input).2) := by
  rw [step, List.append_nil]
  exact h

/-- A drained event after those before it. -/
private theorem map_received_snoc (front : List Effect) (drained : List Value) (value : Value) :
    front ++ drained.map Effect.received ++ [.received value] = front ++ (drained ++ [value]).map Effect.received := by
  rw [List.map_append, List.append_assoc]
  rfl

theorem Shape.step (h : Shape key phase trace) (input : Input) :
    Shape key (phase.step key input).1 (trace ++ (phase.step key input).2) := by
  cases h with
  | streaming hcalm =>
    cases input with
    | closed status => simpa [Phase.step] using Shape.closed hcalm
    | event value answers => exact shape_generateWithRx value answers hcalm
  | committing hcalm hready =>
    cases input with
    | closed status => simpa [Phase.step] using Shape.commitClosed hcalm hready
    | event value answers => exact .committed hcalm hready fun done h => drainCommittedDone_ok h
  | @aborting calm refused drained original sawAborted hcalm hrefused =>
    cases input with
    | closed status =>
      rw [Phase.step, List.append_nil]
      · exact .aborted hcalm hrefused
      · simp
    | event value answers =>
      rw [Phase.step, map_received_snoc]
      rcases drainAborted_cases original sawAborted value with ⟨saw, heq⟩ | ⟨err, heq⟩
      · rw [heq]
        exact .aborting hcalm hrefused
      · rw [heq]
        exact .aborted hcalm hrefused
  | closed hcalm => exact shape_returned (.closed hcalm) input
  | stale hcalm hstale => exact shape_returned (.stale hcalm hstale) input
  | finished hcalm hterminal hok => exact shape_returned (.finished hcalm hterminal hok) input
  | commitClosed hcalm hready => exact shape_returned (.commitClosed hcalm hready) input
  | committed hcalm hready hok => exact shape_returned (.committed hcalm hready hok) input
  | aborted hcalm hrefused => exact shape_returned (.aborted hcalm hrefused) input
  | abortFailed hcalm hrefused => exact shape_returned (.abortFailed hcalm hrefused) input

theorem run_snoc (inputs : List Input) (input : Input) :
    run key (inputs ++ [input]) = (((run key inputs).1.step key input).1,
      (run key inputs).2 ++ ((run key inputs).1.step key input).2) := by
  rw [run, List.foldl_append]
  rfl

/-- Whatever the daemon sends and the callback answers, the call has one of the shapes. -/
theorem shape_run (key : Key) (inputs : List Input) : Shape key (run key inputs).1 (run key inputs).2 := by
  induction inputs using List.reverseRecOn with
  | nil => exact .streaming .nil
  | append_singleton inputs input ih =>
    rw [run_snoc]
    exact ih.step input

section Consequences
variable {calm refused : List Effect} {effect : Effect}

private theorem Calm.mem (h : Calm calm) (hmem : effect ∈ calm) :
    ∃ value : Value, value.Ordinary ∧ (effect = .received value ∨ effect = .called value (.ok ())) := by
  induction h with
  | nil => cases hmem
  | @snoc trace value _ hordinary ih =>
    rcases List.mem_append.mp hmem with hold | hnew
    · exact ih hold
    · refine ⟨value, hordinary, ?_⟩
      simpa using hnew

private theorem Refused.mem (h : Refused refused) (hmem : effect ∈ refused) :
    ∃ value : Value, ¬ value.Terminal ∧ (effect = .received value ∨ (∃ answer, effect = .called value answer) ∨
      effect = .sendFailed .commit) := by
  cases h with
  | @callback value err hnot =>
    refine ⟨value, hnot, ?_⟩
    rcases List.mem_pair.mp hmem with rfl | rfl
    · exact .inl rfl
    · exact .inr (.inl ⟨_, rfl⟩)
  | @commit value hready =>
    have hnot : ¬ value.Terminal := by
      rintro (h | h) <;> rw [hready] at h <;> exact absurd h (by decide)
    refine ⟨value, hnot, ?_⟩
    simp only [List.mem_cons, List.not_mem_nil, or_false] at hmem
    rcases hmem with rfl | rfl | rfl
    · exact .inl rfl
    · exact .inr (.inl ⟨_, rfl⟩)
    · exact .inr (.inr rfl)

private theorem Calm.filter (h : Calm calm) : calm.filter Effect.delivers = [] := by
  rw [List.filter_eq_nil_iff]
  intro effect hmem
  obtain ⟨value, -, rfl | rfl⟩ := h.mem hmem <;> exact Bool.false_ne_true

private theorem Refused.filter (h : Refused refused) : refused.filter Effect.delivers = [] := by
  cases h <;> rfl

private theorem filter_drained (drained : List Value) :
    (drained.map Effect.received).filter Effect.delivers = [] := by
  rw [List.filter_eq_nil_iff]
  intro effect hmem
  obtain ⟨value, -, rfl⟩ := List.mem_map.mp hmem
  exact Bool.false_ne_true

/-- At most one of commit and abort is sent. -/
theorem Shape.once (h : Shape key phase trace) : (trace.filter Effect.delivers).length ≤ 1 := by
  cases h with
  | streaming hcalm => rw [hcalm.filter]; exact Nat.zero_le 1
  | closed hcalm => rw [hcalm.filter]; exact Nat.zero_le 1
  | stale hcalm => simp [List.filter_append, hcalm.filter, Effect.delivers]
  | finished hcalm => simp [List.filter_append, hcalm.filter, Effect.delivers]
  | committing hcalm => rw [List.filter_append, hcalm.filter]; exact le_rfl
  | commitClosed hcalm => rw [List.filter_append, hcalm.filter]; exact le_rfl
  | committed hcalm => rw [List.filter_append, List.filter_append, hcalm.filter]; exact le_rfl
  | aborting hcalm hrefused =>
    rw [List.filter_append, List.filter_append, List.filter_append, hcalm.filter, hrefused.filter, filter_drained]
    exact le_rfl
  | aborted hcalm hrefused =>
    rw [List.filter_append, List.filter_append, List.filter_append, hcalm.filter, hrefused.filter, filter_drained]
    exact le_rfl
  | abortFailed hcalm hrefused =>
    rw [List.filter_append, List.filter_append, hcalm.filter, hrefused.filter]
    exact Nat.zero_le 1

private theorem sent_notMem_calm (h : Calm calm) (decision : Decision) : .sent decision ∉ calm := by
  intro hmem
  obtain ⟨value, -, heq | heq⟩ := h.mem hmem <;> cases heq

private theorem sent_notMem_refused (h : Refused refused) (decision : Decision) : .sent decision ∉ refused := by
  intro hmem
  obtain ⟨value, -, heq | ⟨answer, heq⟩ | heq⟩ := h.mem hmem <;> cases heq

/-- A commit is sent after the callback has accepted a `commit_ready`. -/
theorem Shape.commit_accepted {before after : List Effect} (h : Shape key phase trace)
    (htrace : trace = before ++ .sent .commit :: after) :
    ∃ value : Value, value.type = some "commit_ready" ∧ .called value (.ok ()) ∈ before := by
  have hmem : .sent .commit ∈ trace := htrace ▸ List.mem_append_right _ List.mem_cons_self
  have hcommit : ∀ (rest : List Effect) {calm : List Effect} {staged : Value}, Calm calm → staged.type = some "commit_ready" →
      .sent .commit ∉ rest → trace = calm ++ [.received staged, .called staged (.ok ())] ++ .sent .commit :: rest →
      ∃ value : Value, value.type = some "commit_ready" ∧ .called value (.ok ()) ∈ before := by
    intro rest calm staged hcalm hready hrest heq
    have hfront : .sent .commit ∉ calm ++ [.received staged, .called staged (.ok ())] := by
      simp [sent_notMem_calm hcalm]
    obtain ⟨rfl, -, -⟩ := (List.append_cons_inj_of_notMem hfront hrest).mp (heq.symm.trans htrace)
    exact ⟨staged, hready, by simp⟩
  cases h with
  | streaming hcalm => exact absurd hmem (sent_notMem_calm hcalm _)
  | closed hcalm => exact absurd hmem (sent_notMem_calm hcalm _)
  | stale hcalm => simp [sent_notMem_calm hcalm] at hmem
  | finished hcalm => simp [sent_notMem_calm hcalm] at hmem
  | committing hcalm hready => exact hcommit [] hcalm hready (by simp) (by simp)
  | commitClosed hcalm hready => exact hcommit [] hcalm hready (by simp) (by simp)
  | @committed calm staged value result hcalm hready =>
    exact hcommit [.received value] hcalm hready (by simp) (by simp)
  | aborting hcalm hrefused =>
    simp [sent_notMem_calm hcalm, sent_notMem_refused hrefused] at hmem
  | aborted hcalm hrefused =>
    simp [sent_notMem_calm hcalm, sent_notMem_refused hrefused] at hmem
  | abortFailed hcalm hrefused => simp [sent_notMem_calm hcalm, sent_notMem_refused hrefused] at hmem

private theorem Calm.silent (h : Calm calm) (hmem : effect ∈ calm) : ¬ effect.Tells ∧ ¬ effect.EndsAttempt := by
  obtain ⟨value, hordinary, rfl | rfl⟩ := h.mem hmem
  · refine ⟨?_, ?_⟩
    · rintro ⟨decision, h | h⟩ <;> cases h
    · rintro ⟨value', hterminal, h⟩
      cases h
      exact hordinary.1 hterminal
  · refine ⟨?_, ?_⟩
    · rintro ⟨decision, h | h⟩ <;> cases h
    · rintro ⟨value', hterminal, h⟩
      cases h

private theorem Refused.open (h : Refused refused) (hmem : effect ∈ refused) : ¬ effect.EndsAttempt := by
  rintro ⟨value', hterminal, rfl⟩
  obtain ⟨value, hnot, heq | ⟨answer, heq⟩ | heq⟩ := h.mem hmem
  · cases heq
    exact hnot hterminal
  · cases heq
  · cases heq

private theorem pairwise_front {front : List Effect} (hfront : ∀ effect ∈ front, ¬ effect.EndsAttempt) :
    front.Pairwise fun earlier later => earlier.EndsAttempt → ¬ later.Tells :=
  List.pairwise_of_forall_mem_list fun earlier hearlier _ _ hends => absurd hends (hfront earlier hearlier)

/-- The attempt does not end in the front, and the tail tells nothing. -/
private theorem pairwise_tail {front tail : List Effect} (hfront : ∀ effect ∈ front, ¬ effect.EndsAttempt)
    (htail : ∀ effect ∈ tail, ¬ effect.Tells) :
    (front ++ tail).Pairwise fun earlier later => earlier.EndsAttempt → ¬ later.Tells := by
  rw [List.pairwise_append]
  refine ⟨pairwise_front hfront, ?_, fun earlier _ later hlater _ => htail later hlater⟩
  exact List.pairwise_of_forall_mem_list fun earlier _ later hlater _ => htail later hlater

private theorem received_tells (value : Value) : ¬ (Effect.received value).Tells := by
  rintro ⟨decision, h | h⟩ <;> cases h

private theorem drained_tells (drained : List Value) (hmem : effect ∈ drained.map Effect.received) : ¬ effect.Tells := by
  obtain ⟨value, -, rfl⟩ := List.mem_map.mp hmem
  exact received_tells value

/-- The front of a commit is not past a terminal event. -/
private theorem commit_front {staged : Value} (hcalm : Calm calm) (hready : staged.type = some "commit_ready") :
    ∀ effect ∈ calm ++ [.received staged, .called staged (.ok ()), .sent .commit], ¬ effect.EndsAttempt := by
  intro effect hmem
  rcases List.mem_append.mp hmem with hold | hnew
  · exact (hcalm.silent hold).2
  · rintro ⟨value, hterminal, rfl⟩
    simp only [List.mem_cons, List.not_mem_nil, or_false, Effect.received.injEq, reduceCtorEq] at hnew
    rw [hnew, Value.Terminal, hready] at hterminal
    exact absurd hterminal (by decide)

private theorem abort_front (hcalm : Calm calm) (hrefused : Refused refused) (hlast : ¬ effect.EndsAttempt) :
    ∀ earlier ∈ calm ++ refused ++ [effect], ¬ earlier.EndsAttempt := by
  intro earlier hmem
  rcases List.mem_append.mp hmem with hfront | hnew
  · rcases List.mem_append.mp hfront with hold | hmid
    · exact (hcalm.silent hold).2
    · exact hrefused.open hmid
  · exact List.mem_singleton.mp hnew ▸ hlast

private theorem sent_open (decision : Decision) : ¬ (Effect.sent decision).EndsAttempt := by
  rintro ⟨value, -, h⟩
  cases h

private theorem sendFailed_open (decision : Decision) : ¬ (Effect.sendFailed decision).EndsAttempt := by
  rintro ⟨value, -, h⟩
  cases h

/-- Nothing is told after a terminal event. -/
theorem Shape.silent (h : Shape key phase trace) :
    trace.Pairwise fun earlier later => earlier.EndsAttempt → ¬ later.Tells := by
  cases h with
  | streaming hcalm => exact pairwise_front fun effect hmem => (hcalm.silent hmem).2
  | closed hcalm => exact pairwise_front fun effect hmem => (hcalm.silent hmem).2
  | stale hcalm =>
    exact pairwise_tail (fun effect hmem => (hcalm.silent hmem).2) (by simpa using received_tells _)
  | finished hcalm =>
    refine pairwise_tail (fun effect hmem => (hcalm.silent hmem).2) fun effect hmem => ?_
    rcases List.mem_pair.mp hmem with rfl | rfl
    · exact received_tells _
    · rintro ⟨decision, h | h⟩ <;> cases h
  | committing hcalm hready => exact pairwise_front (commit_front hcalm hready)
  | commitClosed hcalm hready => exact pairwise_front (commit_front hcalm hready)
  | committed hcalm hready => exact pairwise_tail (commit_front hcalm hready) (by simpa using received_tells _)
  | aborting hcalm hrefused =>
    exact pairwise_tail (abort_front hcalm hrefused (sent_open _)) fun effect hmem => drained_tells _ hmem
  | aborted hcalm hrefused =>
    exact pairwise_tail (abort_front hcalm hrefused (sent_open _)) fun effect hmem => drained_tells _ hmem
  | abortFailed hcalm hrefused => exact pairwise_front (abort_front hcalm hrefused (sendFailed_open _))

private theorem Calm.called_ok {value : Value} {err : ClientError} (h : Calm calm) :
    .called value (.error err) ∉ calm := by
  intro hmem
  obtain ⟨value', -, heq | heq⟩ := h.mem hmem <;> cases heq

/-- A call that succeeds returns a `done`: accepted by the callback when no commit was staged, or
read after the commit and the staged record but for its type. -/
theorem Shape.ok_done {done : Value} (h : Shape key (.returned (.ok done)) trace) :
    done.type = some "done" ∧
      (((∀ value : Value, .received value ∈ trace → value.type ≠ some "commit_ready") ∧
          .called done (.ok ()) ∈ trace) ∨
        ∃ before staged, trace = before ++ [.received done] ∧ .sent .commit ∈ before ∧
          staged.type = some "commit_ready" ∧ .called staged (.ok ()) ∈ before ∧
            ∀ member ≠ "type", done.get member = staged.get member) := by
  cases h with
  | @finished calm value answer result hcalm hterminal hok =>
    obtain ⟨rfl, hdone, rfl⟩ := hok done rfl
    refine ⟨hdone, .inl ⟨fun value hmem hready => ?_, by simp⟩⟩
    rcases List.mem_append.mp hmem with hold | hnew
    · obtain ⟨value', hordinary, heq | heq⟩ := hcalm.mem hold
      · cases heq
        exact hordinary.2 hready
      · cases heq
    · simp only [List.mem_cons, Effect.received.injEq, reduceCtorEq, List.not_mem_nil, or_false] at hnew
      rw [hnew, hdone] at hready
      exact absurd hready (by decide)
  | @committed calm staged value result hcalm hready hok =>
    obtain ⟨rfl, hdone, hsame⟩ := hok done rfl
    refine ⟨hdone, .inr ⟨_, staged, rfl, by simp, hready, by simp, fun member hne => ?_⟩⟩
    calc done.get member = (done.insert "type" (.string "done")).get member := (Value.get_insert hne _ _).symm
      _ = (staged.insert "type" (.string "done")).get member := by rw [hsame]
      _ = staged.get member := Value.get_insert hne _ _

/-- A callback that fails before a terminal event has the attempt aborted and the call fail. -/
theorem Shape.failure_aborts {value : Value} {err : ClientError} (h : Shape key phase trace)
    (hmem : .called value (.error err) ∈ trace) (hopen : ¬ value.Terminal) :
    (.sent .abort ∈ trace ∨ .sendFailed .abort ∈ trace) ∧
      ∀ done, phase ≠ .returned (.ok done) := by
  cases h with
  | streaming hcalm => exact absurd hmem hcalm.called_ok
  | closed hcalm => exact absurd hmem hcalm.called_ok
  | stale hcalm => simp [hcalm.called_ok] at hmem
  | finished hcalm hterminal hok =>
    simp only [List.mem_append, hcalm.called_ok, List.mem_pair, reduceCtorEq, false_or, Effect.called.injEq] at hmem
    exact absurd (hmem.1 ▸ hterminal) hopen
  | committing hcalm => simp [hcalm.called_ok] at hmem
  | commitClosed hcalm => simp [hcalm.called_ok] at hmem
  | committed hcalm => simp [hcalm.called_ok] at hmem
  | aborting hcalm hrefused => exact ⟨.inl (by simp), fun done h => by cases h⟩
  | aborted hcalm hrefused => exact ⟨.inl (by simp), fun done h => by cases h⟩
  | abortFailed hcalm hrefused => exact ⟨.inr (by simp), fun done h => by cases h⟩

end Consequences

/-- How a call may have decided its attempt. -/
structure DecidedOnce (phase : Phase) (trace : List Effect) : Prop where
  once : (trace.filter Effect.delivers).length ≤ 1
  accepted : ∀ before after, trace = before ++ .sent .commit :: after →
    ∃ value : Value, value.type = some "commit_ready" ∧ .called value (.ok ()) ∈ before
  silent : trace.Pairwise fun earlier later => earlier.EndsAttempt → ¬ later.Tells
  done : ∀ done, phase = .returned (.ok done) → done.type = some "done" ∧
    (((∀ value : Value, .received value ∈ trace → value.type ≠ some "commit_ready") ∧
        .called done (.ok ()) ∈ trace) ∨
      ∃ before staged, trace = before ++ [.received done] ∧ .sent .commit ∈ before ∧
        staged.type = some "commit_ready" ∧ .called staged (.ok ()) ∈ before ∧
          ∀ member ≠ "type", done.get member = staged.get member)
  aborts : ∀ (value : Value) (err : ClientError), .called value (.error err) ∈ trace → ¬ value.Terminal →
    (.sent .abort ∈ trace ∨ .sendFailed .abort ∈ trace) ∧ ∀ done, phase ≠ .returned (.ok done)

/-- Whatever the daemon sends, the callback answers and the sends do, a call decides its attempt at
most once: it commits what its callback accepted, aborts what its callback refused, and says nothing
once the daemon has ended the attempt. -/
theorem run_decided_once (key : Key) (inputs : List Input) :
    DecidedOnce (run key inputs).1 (run key inputs).2 where
  once := (shape_run key inputs).once
  accepted _ _ := (shape_run key inputs).commit_accepted
  silent := (shape_run key inputs).silent
  done done h := by
    have hshape := shape_run key inputs
    rw [h] at hshape
    exact hshape.ok_done
  aborts _ _ := (shape_run key inputs).failure_aborts

end Phase
end Hipscope.Client
