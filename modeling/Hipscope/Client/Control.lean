import Hipscope.Client.Wire
import Mathlib.Logic.Function.Basic

/-! Control calls on clones of one engine: all of them share one waiter slot, and the dispatch
thread sends each control line to whoever is in it. -/
namespace Hipscope.Client

inductive Request where
  | ping
  | configure
  | load
  | reset (attemptId : UInt64)
  | unload
  deriving DecidableEq

/-- A line of the daemon, with the call whose message it answers. -/
structure Reply where
  asked : ℕ
  value : Value
  deriving DecidableEq

/-- How far a control call has come. A reset checks its answer after it has left the slot. -/
inductive ControlStage where
  | entered
  | waiting
  | leaving (outcome : Except ClientError Reply)
  | validating (response : Reply)
  | recording (response : Reply) (epoch : UInt64) (eligible : Bool)
  | finished

structure ControlCall where
  request : Request
  stage : ControlStage
  queue : List Reply

inductive ControlOutput where
  | delivered (waiter : ℕ) (reply : Reply)
  | dropped (reply : Reply)
  | accepted (epoch : UInt64)
  | returned (call : ℕ) (response : Option Reply) (result : Except ClientError Value)

inductive ControlLabel where
  | enter (call : ℕ) (request : Request)
  | send (call : ℕ) (result : Except ClientError Unit)
  | receive (call : ℕ)
  | close (call : ℕ) (status : String)
  | leave (call : ℕ)
  | validate (call : ℕ)
  | record (call : ℕ)
  | answer (values : List Value)
  | line
  | deliver
  | eof

structure ControlPlane where
  calls : ℕ → Option ControlCall
  control : Option ℕ
  stdin : List (ℕ × Request)
  stdout : List Reply
  holding : Option (ℕ × Reply)
  lastStateEpoch : Option UInt64
  lastRetryResetEligible : Option Bool
  ended : Bool

/-- The last line of a load's answer. -/
def isLoadFinal (value : Value) : Bool := value.type = some "loaded" || value.type = some "error"

/-- What the daemon says about the drafter of a loaded model. -/
def isDrafterNotice (value : Value) : Bool := value.type = some "pflash" || value.type = some "pflash_load_failed"

/-- Progress lines, then the final one; behind `loaded` the daemon still writes how the drafter fared. -/
def isLoadAnswer : List Value → Bool
  | [] => false
  | value :: rest =>
    if isLoadFinal value then rest.isEmpty || (value.type = some "loaded" && rest.all isDrafterNotice)
    else isLoadAnswer rest

/-- The lines a daemon answers a message with: all for the control plane, one to each message but a load. -/
def Request.isAnswer (request : Request) (values : List Value) : Bool :=
  values.all (fun value => route value = .control) &&
    match request with
    | .load => isLoadAnswer values
    | _ => values.length = 1

def expectType (response : Value) (expected : String) : Except ClientError Value :=
  match response.type with
  | some actual =>
    if actual = expected then .ok response
    else if actual = "error" then .error (daemonErrorFromValue response)
    else .error (.protocol s!"expected {expected}, received {actual}")
  | none => .error (.protocol s!"expected {expected}, received missing type")

def validateRetryResetEligibleField (value : Value) : Except ClientError Bool :=
  match (value.get "retry_reset_eligible").bind Field.asBool with
  | some eligible => .ok eligible
  | none => .error (.protocol "missing or non-bool retry_reset_eligible")

def debugCount : Option UInt64 → String
  | some n => s!"Some({n})"
  | none => "None"

def staleEpoch (prev epoch : UInt64) : ClientError :=
  .protocol s!"reset ack state_epoch not strictly increasing: prev={prev} got={epoch}"

/-- An acknowledgement that is not newer than the last accepted one. -/
def checkEpoch (last : Option UInt64) (epoch : UInt64) : Except ClientError Unit :=
  match last with
  | some prev => if epoch ≤ prev then .error (staleEpoch prev epoch) else .ok ()
  | none => .ok ()

/-- The fields of a reset acknowledgement, checked in the order of the source up to the point
where the epoch is recorded. -/
def validateResetAck (last : Option UInt64) (response : Value) (expectedAttempt : UInt64) :
    Except ClientError (UInt64 × Bool) :=
  if response.type = some "error" then .error (daemonErrorFromValue response)
  else if response.type ≠ some "reset" then
    let received := response.type.getD "missing type"
    .error (.protocol s!"expected reset, received {received}")
  else if (response.get "rolled_back").bind Field.asBool ≠ some true then
    .error (.protocol "reset ack missing rolled_back=true")
  else
    let seqPos := (response.get "seq_pos").bind Field.asU64
    let conversationLen := (response.get "conversation_len").bind Field.asU64
    if seqPos ≠ some 0 then
      let got := debugCount seqPos
      .error (.protocol s!"reset ack requires seq_pos=0, got {got}")
    else if conversationLen ≠ some 0 then
      let got := debugCount conversationLen
      .error (.protocol s!"reset ack requires conversation_len=0, got {got}")
    else
      match requireAttemptId (response.get "attempt_id") with
      | .error reason => .error (.protocol s!"reset ack {reason}")
      | .ok attemptId =>
        if attemptId ≠ expectedAttempt then
          .error (.protocol s!"reset ack attempt_id mismatch: expected {expectedAttempt}, got {attemptId}")
        else
          match (response.get "state_epoch").bind Field.asU64 with
          | none => .error (.protocol "reset ack missing state_epoch")
          | some epoch =>
            match checkEpoch last epoch with
            | .error err => .error err
            | .ok _ =>
              match (response.get "retry_reset_eligible").bind Field.asBool with
              | none => .error (.protocol "reset ack missing retry_reset_eligible")
              | some eligible => .ok (epoch, eligible)

/-- What a call other than a reset makes of its answer. -/
def Request.result (request : Request) (response : Value) : Except ClientError Value :=
  match request with
  | .ping => expectType response "pong"
  | .configure => expectType response "configured"
  | .unload => expectType response "unloaded"
  | .load =>
    if response.type = some "error" then .error (daemonErrorFromValue response)
    else
      match validateRetryResetEligibleField response with
      | .ok _ => .ok response
      | .error err => .error err
  | .reset _ => .ok response

namespace ControlStage

/-- The call is between its entry into the slot and its exit. -/
def inProgress : ControlStage → Bool
  | .entered | .waiting | .leaving _ => true
  | _ => false

end ControlStage

namespace ControlPlane

def spawn : ControlPlane := ⟨fun _ => none, none, [], [], none, none, none, false⟩

def setCall (p : ControlPlane) (c : ℕ) (call : ControlCall) : ControlPlane :=
  { p with calls := Function.update p.calls c (some call) }

/-- Take the slot, whoever is in it. -/
def enter (p : ControlPlane) (c : ℕ) (request : Request) : Option (ControlPlane × List ControlOutput) :=
  match p.calls c with
  | some _ => none
  | none =>
    some ({ p.setCall c ⟨request, .entered, []⟩ with
      control := some c
      lastRetryResetEligible := if request = .load then none else p.lastRetryResetEligible }, [])

def send (p : ControlPlane) (c : ℕ) (call : ControlCall) (result : Except ClientError Unit) :
    Option (ControlPlane × List ControlOutput) :=
  match call.stage, result with
  | .entered, .ok _ =>
    some ({ p.setCall c { call with stage := .waiting } with stdin := p.stdin ++ [(c, call.request)] }, [])
  | .entered, .error err => some (p.setCall c { call with stage := .leaving (.error err) }, [])
  | _, _ => none

/-- A load reads on until its final line. -/
def receive (p : ControlPlane) (c : ℕ) (call : ControlCall) : Option (ControlPlane × List ControlOutput) :=
  match call.stage, call.queue with
  | .waiting, reply :: queue =>
    if call.request = .load && !isLoadFinal reply.value then some (p.setCall c { call with queue := queue }, [])
    else some (p.setCall c { call with queue := queue, stage := .leaving (.ok reply) }, [])
  | _, _ => none

/-- The channel is empty and its last sender is gone. -/
def close (p : ControlPlane) (c : ℕ) (call : ControlCall) (status : String) :
    Option (ControlPlane × List ControlOutput) :=
  match call.stage with
  | .waiting =>
    if call.queue = [] ∧ p.control ≠ some c ∧ p.holding.map Prod.fst ≠ some c then
      some (p.setCall c { call with stage := .leaving (.error (.closed status)) }, [])
    else none
  | _ => none

/-- Empty the slot, whoever is in it; what is still in the channel goes with it. -/
def leave (p : ControlPlane) (c : ℕ) (call : ControlCall) : Option (ControlPlane × List ControlOutput) :=
  match call.stage with
  | .leaving outcome =>
    let p := { p with control := none }
    let dropped := call.queue.map .dropped
    match outcome with
    | .error err =>
      some (p.setCall c { call with stage := .finished, queue := [] }, dropped ++ [.returned c none (.error err)])
    | .ok reply =>
      match call.request with
      | .reset _ => some (p.setCall c { call with stage := .validating reply, queue := [] }, dropped)
      | _ =>
        let eligible :=
          if call.request = .load ∧ reply.value.type ≠ some "error" then
            (validateRetryResetEligibleField reply.value).toOption.orElse fun _ => p.lastRetryResetEligible
          else p.lastRetryResetEligible
        some ({ p.setCall c { call with stage := .finished, queue := [] } with lastRetryResetEligible := eligible },
          dropped ++ [.returned c (some reply) (call.request.result reply.value)])
  | _ => none

def validate (p : ControlPlane) (c : ℕ) (call : ControlCall) : Option (ControlPlane × List ControlOutput) :=
  match call.stage, call.request with
  | .validating reply, .reset attemptId =>
    match validateResetAck p.lastStateEpoch reply.value attemptId with
    | .ok (epoch, eligible) => some (p.setCall c { call with stage := .recording reply epoch eligible }, [])
    | .error err => some (p.setCall c { call with stage := .finished }, [.returned c (some reply) (.error err)])
  | _, _ => none

/-- The epoch is checked once more under its lock. -/
def record (p : ControlPlane) (c : ℕ) (call : ControlCall) : Option (ControlPlane × List ControlOutput) :=
  match call.stage with
  | .recording reply epoch eligible =>
    let done := p.setCall c { call with stage := .finished }
    match checkEpoch p.lastStateEpoch epoch with
    | .error err => some (done, [.returned c (some reply) (.error err)])
    | .ok _ =>
      some ({ done with lastStateEpoch := some epoch, lastRetryResetEligible := some eligible },
        [.accepted epoch, .returned c (some reply) (.ok reply.value)])
  | _ => none

/-- The daemon answers the oldest message it has not answered. -/
def answer (p : ControlPlane) (values : List Value) : Option (ControlPlane × List ControlOutput) :=
  match p.stdin with
  | [] => none
  | (c, request) :: rest =>
    if p.ended || !request.isAnswer values then none
    else some ({ p with stdin := rest, stdout := p.stdout ++ values.map fun value => ⟨c, value⟩ }, [])

/-- The dispatch thread reads a line and looks up the slot. -/
def readLine (p : ControlPlane) : Option (ControlPlane × List ControlOutput) :=
  match p.holding, p.stdout with
  | none, reply :: rest =>
    let read := { p with stdout := rest }
    match p.control with
    | some waiter => some ({ read with holding := some (waiter, reply) }, [])
    | none => some (read, [.dropped reply])
  | _, _ => none

def deliver (p : ControlPlane) : Option (ControlPlane × List ControlOutput) :=
  match p.holding with
  | none => none
  | some (waiter, reply) =>
    let rest := { p with holding := none }
    match p.calls waiter with
    | some call =>
      if call.stage.inProgress then
        some (rest.setCall waiter { call with queue := call.queue ++ [reply] }, [.delivered waiter reply])
      else some (rest, [.dropped reply])
    | none => some (rest, [.dropped reply])

/-- The daemon's output has ended and all of it is read. -/
def eof (p : ControlPlane) : Option (ControlPlane × List ControlOutput) :=
  if p.ended || p.holding.isSome || !p.stdout.isEmpty then none
  else some ({ p with control := none, ended := true }, [])

def step (p : ControlPlane) : ControlLabel → Option (ControlPlane × List ControlOutput)
  | .enter c request => p.enter c request
  | .send c result => (p.calls c).bind fun call => p.send c call result
  | .receive c => (p.calls c).bind fun call => p.receive c call
  | .close c status => (p.calls c).bind fun call => p.close c call status
  | .leave c => (p.calls c).bind fun call => p.leave c call
  | .validate c => (p.calls c).bind fun call => p.validate c call
  | .record c => (p.calls c).bind fun call => p.record c call
  | .answer values => p.answer values
  | .line => p.readLine
  | .deliver => p.deliver
  | .eof => p.eof

end ControlPlane
end Hipscope.Client
