import Hipscope.Client.Wire
import Mathlib.Logic.Function.Basic

/-! One generate call after its request is sent: it follows the daemon's events, asks its
callback about each, and ends the attempt with a commit or an abort. -/
namespace Hipscope.Client

/-- What a call may tell the daemon about its attempt. -/
inductive Decision where
  | commit
  | abort
  deriving DecidableEq

/-- Where a call is in the protocol. -/
inductive Phase where
  | streaming
  | committing (stagedCommitReady : Value)
  | aborting (original : ClientError) (sawAborted : Bool)
  | returned (result : Except ClientError Value)

/-- What a call does, in order. A send that fails delivers nothing. -/
inductive Effect where
  | received (value : Value)
  | called (value : Value) (answer : Except ClientError Unit)
  | sent (decision : Decision)
  | sendFailed (decision : Decision)

/-- How the callback and the sends of one round turn out. -/
structure Answers where
  callback : Except ClientError Unit
  commitSend : Except ClientError Unit
  abortSend : Except ClientError Unit

inductive Input where
  | event (value : Value) (answers : Answers)
  | closed (status : String)

namespace Phase

def abortAndDrain (answers : Answers) (original : ClientError) : Phase × List Effect :=
  match answers.abortSend with
  | .ok _ => (.aborting original false, [.sent .abort])
  | .error err => (.returned (.error err), [.sendFailed .abort])

/-- A round of `generate_with_rx`. -/
def generateWithRx (key : Key) (value : Value) (answers : Answers) : Phase × List Effect :=
  match rejectStaleLifecycleEvent value key with
  | some err => (.returned (.error err), [])
  | none =>
    let ty := value.type
    let called := Effect.called value answers.callback
    if ty = some "commit_ready" then
      match answers.callback with
      | .ok _ =>
        match answers.commitSend with
        | .ok _ => (.committing value, [called, .sent .commit])
        | .error err =>
          let out := abortAndDrain answers err
          (out.1, called :: .sendFailed .commit :: out.2)
      | .error cbErr =>
        let out := abortAndDrain answers cbErr
        (out.1, called :: out.2)
    else
      match answers.callback with
      | .error cbErr =>
        -- the daemon has closed a terminated transaction and answers no abort
        if ty = some "error" then
          (.returned (.error (if cbErr = .cancelled then cbErr else daemonErrorFromValue value)), [called])
        else if ty = some "done" then (.returned (.error cbErr), [called])
        else
          let out := abortAndDrain answers cbErr
          (out.1, called :: out.2)
      | .ok _ =>
        if ty = some "done" then (.returned (.ok value), [called])
        else if ty = some "error" then (.returned (.error (daemonErrorFromValue value)), [called])
        else (.streaming, [called])

/-- Every outcome of the one event read after a commit is terminal. -/
def drainCommittedDone (key : Key) (stagedCommitReady value : Value) : Except ClientError Value :=
  match rejectStaleLifecycleEvent value key with
  | some err => .error err
  | none =>
    match value.type with
    | some ty =>
      if ty = "done" then
        if value.finishReason = some "aborted" then
          .error (.protocol "committed drain rejected aborted done after commit")
        else
          match committedDonePayloadMismatch stagedCommitReady value with
          | some err => .error err
          | none => .ok value
      else if ty = "error" then .error (daemonErrorFromValue value)
      else .error (.protocol s!"committed drain unexpected event type={ty}")
    | none => .error (.protocol "committed drain event missing type")

def debugReason : Option String → String
  | some reason => "Some(\"" ++ reason ++ "\")"
  | none => "None"

/-- A round of the drain after an abort; other keys' events are skipped. -/
def drainAborted (key : Key) (original : ClientError) (sawAborted : Bool) (value : Value) : Phase :=
  if (value.get "id").bind Field.asStr ≠ some key.1 ||
      parseAttemptId (value.get "attempt_id") ≠ some key.2 then .aborting original sawAborted
  else if value.type = some "aborted" then .aborting original true
  else if value.type = some "done" then
    if value.finishReason = some "aborted" then .returned (.error original)
    else
      let finish := debugReason value.finishReason
      .returned (.error (.protocol
        s!"cancellation drain rejected non-aborted done (saw_aborted={sawAborted}, finish_reason={finish})"))
  else if value.type = some "error" then .returned (.error (daemonErrorFromValue value))
  else .aborting original sawAborted

def step (key : Key) (phase : Phase) (input : Input) : Phase × List Effect :=
  match phase, input with
  | .returned result, _ => (.returned result, [])
  | _, .closed status => (.returned (.error (.closed status)), [])
  | .streaming, .event value answers =>
    let out := generateWithRx key value answers
    (out.1, .received value :: out.2)
  | .committing staged, .event value _ =>
    (.returned (drainCommittedDone key staged value), [.received value])
  | .aborting original sawAborted, .event value _ =>
    (drainAborted key original sawAborted value, [.received value])

/-- The call on a sequence of inputs: where it is, and all it did. -/
def run (key : Key) (inputs : List Input) : Phase × List Effect :=
  inputs.foldl (fun state input =>
    let out := state.1.step key input
    (out.1, state.2 ++ out.2)) (.streaming, [])

end Phase
end Hipscope.Client

/-! Clones of one engine: calls that register, wait and leave in any order, and the thread
that routes the daemon's lines to them. Every step is one critical section. -/
namespace Hipscope.Client

/-- How far a generate call has come. -/
inductive Stage where
  | registered
  | announced
  | running
  | leaving
  | clearing
  | finished
  deriving DecidableEq

/-- A call: its channel's values and all it has done; `since` is the number of lines that had been
read when it registered. -/
structure Call where
  key : Key
  since : ℕ
  stage : Stage
  queue : List Value
  phase : Phase
  trace : List Effect

/-- What leaves the process: messages to the daemon, and results of calls. -/
inductive Output where
  | generate (call : ℕ) (key : Key)
  | decision (call : ℕ) (key : Key) (decision : Decision)
  | result (call : ℕ) (result : Except ClientError Value)

inductive Label where
  | register (call : ℕ) (request : Value)
  | announce (call : ℕ)
  | send (call : ℕ) (result : Except ClientError Unit)
  | receive (call : ℕ) (answers : Answers)
  | close (call : ℕ) (status : String)
  | remove (call : ℕ)
  | clear (call : ℕ)
  | line (value : Value)
  | deliver
  | eof

/-- `holding` is the line whose sender the dispatch thread has looked up, `lines` all it has read. -/
structure Engine where
  calls : ℕ → Option Call
  pending : Key → Option ℕ
  holding : Option (ℕ × Value)
  activeAttemptId : Option UInt64
  lines : List Value
  ended : Bool

/-- The key of a generate request. -/
def requestKey (request : Value) : Except ClientError Key :=
  match request.id with
  | none => .error (.protocol "generate request missing id")
  | some id =>
    match requireAttemptId (request.get "attempt_id") with
    | .ok attempt => .ok (id, attempt)
    | .error reason => .error (.protocol s!"generate request {reason}")

def duplicateLive (key : Key) : ClientError :=
  let requestId := key.1
  let attemptId := key.2
  .protocol s!"duplicate live generate id={requestId} attempt_id={attemptId}"

def Phase.isReturned : Phase → Bool
  | .returned _ => true
  | _ => false

def Phase.result? : Phase → Option (Except ClientError Value)
  | .returned result => some result
  | _ => none

namespace Engine

def spawn : Engine := ⟨fun _ => none, fun _ => none, none, none, [], false⟩

def setCall (e : Engine) (c : ℕ) (call : Call) : Engine :=
  { e with calls := Function.update e.calls c (some call) }

/-- Enter the map, unless the key is live. -/
def register (e : Engine) (c : ℕ) (request : Value) : Option (Engine × List Output) :=
  match e.calls c with
  | some _ => none
  | none =>
    match requestKey request with
    | .error err => some (e, [.result c (.error err)])
    | .ok key =>
      match e.pending key with
      | some _ => some (e, [.result c (.error (duplicateLive key))])
      | none =>
        some ({ e.setCall c ⟨key, e.lines.length, .registered, [], .streaming, []⟩ with
          pending := Function.update e.pending key (some c) }, [])

def announce (e : Engine) (c : ℕ) (call : Call) : Option (Engine × List Output) :=
  if call.stage = .registered then
    some ({ e.setCall c { call with stage := .announced } with activeAttemptId := some call.key.2 }, [])
  else none

def send (e : Engine) (c : ℕ) (call : Call) (result : Except ClientError Unit) : Option (Engine × List Output) :=
  if call.stage = .announced then
    match result with
    | .ok _ => some (e.setCall c { call with stage := .running }, [.generate c call.key])
    | .error err => some (e.setCall c { call with stage := .leaving, phase := .returned (.error err) }, [])
  else none

/-- The messages among a call's effects. -/
def decisions (c : ℕ) (key : Key) (effects : List Effect) : List Output :=
  effects.filterMap fun
    | .sent decision => some (.decision c key decision)
    | _ => none

/-- One round of a running call. -/
def round (e : Engine) (c : ℕ) (call : Call) (input : Input) (queue : List Value) : Engine × List Output :=
  let out := call.phase.step call.key input
  (e.setCall c { call with
      queue := queue
      phase := out.1
      trace := call.trace ++ out.2
      stage := if out.1.isReturned then .leaving else .running },
    decisions c call.key out.2)

def receive (e : Engine) (c : ℕ) (call : Call) (answers : Answers) : Option (Engine × List Output) :=
  if call.stage = .running then
    match call.queue with
    | [] => none
    | value :: queue => some (e.round c call (.event value answers) queue)
  else none

/-- The channel is empty and its last sender is gone. -/
def close (e : Engine) (c : ℕ) (call : Call) (status : String) : Option (Engine × List Output) :=
  if call.stage = .running ∧ call.queue = [] ∧ e.pending call.key ≠ some c ∧ e.holding.map Prod.fst ≠ some c then
    some (e.round c call (.closed status) [])
  else none

def remove (e : Engine) (c : ℕ) (call : Call) : Option (Engine × List Output) :=
  if call.stage = .leaving then
    some ({ e.setCall c { call with stage := .clearing } with
      pending := Function.update e.pending call.key none }, [])
  else none

def clear (e : Engine) (c : ℕ) (call : Call) : Option (Engine × List Output) :=
  if call.stage = .clearing then
    some ({ e.setCall c { call with stage := .finished } with activeAttemptId := none },
      call.phase.result?.toList.map (.result c))
  else none

/-- Look up the sender of a line's key; lines for the control plane or for nobody are passed over. -/
def readLine (e : Engine) (value : Value) : Option (Engine × List Output) :=
  if e.ended || e.holding.isSome then none
  else
    let read := { e with lines := e.lines ++ [value] }
    match route value with
    | .pending key => some ({ read with holding := (e.pending key).map fun c => (c, value) }, [])
    | _ => some (read, [])

def deliver (e : Engine) : Option (Engine × List Output) :=
  match e.holding with
  | none => none
  | some (c, value) =>
    let rest := { e with holding := none }
    match e.calls c with
    | none => some (rest, [])
    | some call => some (rest.setCall c { call with queue := call.queue ++ [value] }, [])

/-- The daemon's output has ended: every sender is dropped. -/
def eof (e : Engine) : Option (Engine × List Output) :=
  if e.ended || e.holding.isSome then none
  else some ({ e with pending := fun _ => none, ended := true }, [])

def step (e : Engine) : Label → Option (Engine × List Output)
  | .register c request => e.register c request
  | .announce c => (e.calls c).bind fun call => e.announce c call
  | .send c result => (e.calls c).bind fun call => e.send c call result
  | .receive c answers => (e.calls c).bind fun call => e.receive c call answers
  | .close c status => (e.calls c).bind fun call => e.close c call status
  | .remove c => (e.calls c).bind fun call => e.remove c call
  | .clear c => (e.calls c).bind fun call => e.clear c call
  | .line value => e.readLine value
  | .deliver => e.deliver
  | .eof => e.eof

end Engine
end Hipscope.Client
