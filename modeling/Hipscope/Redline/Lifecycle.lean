import Hipscope.Machine.Runs
import Hipscope.Redline.Batch

/-! Submitting, waiting for, cancelling and dropping a retained graph, whatever
the runtime answers. The trace records what reaches the hardware, and when the
in-flight mark is set and cleared. -/
namespace Hipscope.Redline.Aql.Lifecycle
open Machine
variable {σ κ : Type}

inductive Event (σ κ : Type) where
  | reset (signal : σ)
  | publish (lane : ℕ) (packets : List κ)
  | ring (lane packet : ℕ)
  | completed
  | inactivated (lane : ℕ)
  | mark
  | clear
  deriving DecidableEq

/-- The queues of a graph, with the doorbell value each waits to be rung with. -/
structure QueueSet where
  lanes : ℕ
  active : ℕ → Bool
  written : ℕ → ℕ
  prepared : ℕ → Option ℕ

/-- What the runtime answers during one submission. -/
structure SubmitIo where
  fault : Option ℕ
  laneFault : ℕ → Bool
  capacity : ℕ → Bool
  ringFault : Option ℕ
  inactivate : ℕ → Bool

namespace QueueSet

/-- Every lane is attempted, even after one has failed. -/
def inactivateAll (ok : ℕ → Bool) (q : QueueSet) :
    QueueSet × List (Event σ κ) × Except RuntimeError Unit :=
  let lanes := (List.range q.lanes).filter fun lane => q.active lane
  ({ q with
      active := fun lane => q.active lane && !(decide (lane < q.lanes) && ok lane)
      prepared := fun _ => none },
    (lanes.filter fun lane => ok lane).map .inactivated,
    if lanes.all ok then .ok () else .error (.hsa "hsa_queue_inactivate"))

def inactivateAfterError (ok : ℕ → Bool) (q : QueueSet) (operation : RuntimeError) :
    QueueSet × List (Event σ κ) × RuntimeError :=
  match q.inactivateAll ok with
  | (q, events, .ok ()) => (q, events, operation)
  | (q, events, .error teardown) => (q, events, .operationAndTeardown operation teardown)

/-- Publish one batch without ringing its doorbell. Capacity is checked before
anything is reserved. -/
def prepareBatch (io : SubmitIo) (q : QueueSet) (lane : ℕ) (packets : List κ) :
    Except RuntimeError (QueueSet × List (Event σ κ)) :=
  if !q.active lane then .error (.queueInactive lane)
  else if io.laneFault lane then .error (.queueFault lane)
  else if packets = [] then .ok ({ q with prepared := Function.update q.prepared lane none }, [])
  else if !io.capacity lane then .error (.queueCapacityTimeout lane packets.length)
  else
    .ok ({ q with
        written := Function.update q.written lane (q.written lane + packets.length)
        prepared := Function.update q.prepared lane (some (q.written lane + (packets.length - 1))) },
      [.publish lane packets])

def prepareLanes (io : SubmitIo) (batches : ℕ → List κ) :
    QueueSet → List ℕ → QueueSet × List (Event σ κ) × Except RuntimeError Unit
  | q, [] => (q, [], .ok ())
  | q, lane :: rest =>
    match q.prepareBatch io lane (batches lane) with
    | .error error => (q, [], .error error)
    | .ok (q, events) =>
      let others := prepareLanes io batches q rest
      (others.1, events ++ others.2.1, others.2.2)

/-- Prepare every queue without ringing any; a doorbell still waiting to be rung
fails an assertion. -/
def prepareBatches (io : SubmitIo) (batches : ℕ → List κ) (q : QueueSet) :
    Option (QueueSet × List (Event σ κ) × Except RuntimeError Unit) :=
  if (List.range q.lanes).any fun lane => (q.prepared lane).isSome then none
  else match io.fault with
    | some lane =>
      let stopped := q.inactivateAfterError io.inactivate (.queueFault lane)
      some (stopped.1, stopped.2.1, .error stopped.2.2)
    | none =>
      match q.prepareLanes io batches (List.range q.lanes) with
      | (q, events, .ok ()) => some (q, events, .ok ())
      | (q, events, .error error) =>
        let stopped := { q with prepared := fun _ => none }.inactivateAfterError io.inactivate error
        some (stopped.1, events ++ stopped.2.1, .error stopped.2.2)

/-- Ring each prepared queue once. -/
def ringPrepared (io : SubmitIo) (q : QueueSet) :
    QueueSet × List (Event σ κ) × Except RuntimeError Unit :=
  match io.ringFault with
  | some lane =>
    let stopped := { q with prepared := fun _ => none }.inactivateAfterError io.inactivate
      (.queueFault lane)
    (stopped.1, stopped.2.1, .error stopped.2.2)
  | none =>
    ({ q with prepared := fun _ => none },
      (List.range q.lanes).filterMap fun lane => (q.prepared lane).map fun packet => .ring lane packet,
      .ok ())

end QueueSet

/-- The completion signals of each kind of graph. -/
inductive Signals (σ : Type) where
  | recordedGraph (nodes : List σ) (final : σ)
  | twoQueuePhasedGraph (phaseTails : List (TwoLanes σ)) (final : σ)
  | twoQueueSerializedBatchGraph (tokenPhaseTails : List (List (TwoLanes σ))) (profiling : List σ)
      (final : σ)
  | singleQueueBatchGraph (first last final : σ) (profiling : Bool)

/-- The signals in the order a submission resets them. -/
def Signals.resets : Signals σ → List σ
  | .recordedGraph nodes final => nodes ++ [final]
  | .twoQueuePhasedGraph phaseTails final => phaseTails.flatMap (fun t => [t.zero, t.one]) ++ [final]
  | .twoQueueSerializedBatchGraph tokenPhaseTails profiling final =>
    tokenPhaseTails.flatten.flatMap (fun t => [t.zero, t.one]) ++ profiling ++ [final]
  | .singleQueueBatchGraph first last final _ => [first, last, final]

structure Graph (σ κ : Type) where
  queues : QueueSet
  signals : Signals σ
  batches : ℕ → List κ
  inFlight : Bool
  usable : Bool

/-- What the runtime answers during one wait. -/
structure WaitIo where
  signal : Option RuntimeError
  timing : Option RuntimeError
  inactivate : ℕ → Bool

inductive QuiescenceTransition where
  | completed
  | cancelled
  | failed
  deriving DecidableEq

namespace Graph

def create (lanes : ℕ) (signals : Signals σ) (batches : ℕ → List κ) : Graph σ κ :=
  ⟨⟨lanes, fun _ => true, fun _ => 0, fun _ => none⟩, signals, batches, false, true⟩

/-- A failed transition keeps the mark, so that dropping the graph tries again. -/
def applyQuiescenceTransition (g : Graph σ κ) : QuiescenceTransition → Graph σ κ × List (Event σ κ)
  | .completed => ({ g with inFlight := false }, [.clear])
  | .cancelled => ({ g with inFlight := false, usable := false }, [.clear])
  | .failed => ({ g with inFlight := true, usable := false }, [])

def submit (io : SubmitIo) (g : Graph σ κ) :
    Option (Graph σ κ × List (Event σ κ) × Except ReplayError Unit) :=
  if g.inFlight then some (g, [], .error .alreadyInFlight)
  else if !g.usable then some (g, [], .error .graphInactive)
  else
    let resets := g.signals.resets.map .reset
    match g.queues.prepareBatches io g.batches with
    | none => none
    | some (queues, events, .error error) =>
      some ({ g with queues, usable := false }, resets ++ events, .error (.runtime error))
    | some (queues, events, .ok ()) =>
      match queues.ringPrepared io with
      | (queues, rings, .error error) =>
        some ({ g with queues, inFlight := false, usable := false },
          resets ++ events ++ [.mark] ++ rings ++ [.clear], .error (.runtime error))
      | (queues, rings, .ok ()) =>
        some ({ g with queues, inFlight := true }, resets ++ events ++ [.mark] ++ rings, .ok ())

/-- Stop the queues after a failed operation. -/
def teardown (inactivate : ℕ → Bool) (g : Graph σ κ) :
    Graph σ κ × List (Event σ κ) × Except RuntimeError Unit :=
  let stopped := g.queues.inactivateAll inactivate
  let transition := match stopped.2.2 with
    | .ok () => QuiescenceTransition.cancelled
    | .error _ => .failed
  let g := { g with queues := stopped.1 }.applyQuiescenceTransition transition
  (g.1, stopped.2.1 ++ g.2, stopped.2.2)

/-- Waiting without a submission is an error for a single-queue batch only. -/
def waitIdle : Signals σ → Except ReplayError Unit
  | .singleQueueBatchGraph .. =>
    .error (.invalidBatchShape "single-queue batch has no active submission")
  | _ => .ok ()

/-- A single-queue batch reads its timestamps once it has completed. -/
def readTiming (io : WaitIo) (g : Graph σ κ) : Graph σ κ × Except ReplayError Unit :=
  match g.signals, io.timing with
  | .singleQueueBatchGraph _ _ _ true, some error => ({ g with usable := false }, .error (.runtime error))
  | _, _ => (g, .ok ())

def waitInternal (io : WaitIo) (g : Graph σ κ) : Graph σ κ × List (Event σ κ) × Except ReplayError Unit :=
  if !g.inFlight then (g, [], waitIdle g.signals)
  else match io.signal with
    | none =>
      let completed := g.applyQuiescenceTransition .completed
      let timed := completed.1.readTiming io
      (timed.1, .completed :: completed.2, timed.2)
    | some waitError =>
      match g.teardown io.inactivate with
      | (g, events, .ok ()) => (g, events, .error (.runtime waitError))
      | (g, events, .error error) =>
        (g, events, .error (.runtime (.operationAndTeardown waitError error)))

def cancelInternal (inactivate : ℕ → Bool) (g : Graph σ κ) :
    Graph σ κ × List (Event σ κ) × Except ReplayError Unit :=
  if !g.inFlight then (g, [], .ok ())
  else match g.teardown inactivate with
    | (g, events, .ok ()) => (g, events, .ok ())
    | (g, events, .error error) => (g, events, .error (.runtime error))

end Graph

/-- What the owner of a graph can do. A ticket that is dropped unused cancels;
dropping the graph cancels, and then every queue tries once more. -/
inductive Call where
  | submit (io : SubmitIo)
  | wait (io : WaitIo)
  | cancel (inactivate : ℕ → Bool)
  | dropTicket (inactivate : ℕ → Bool)
  | drop (inactivate last : ℕ → Bool)

/-- One call; nothing is left to call after a drop. -/
def call : Option (Graph σ κ) → Call → Option (Option (Graph σ κ) × List (Event σ κ))
  | none, _ => none
  | some g, .submit io => (g.submit io).map fun r => (some r.1, r.2.1)
  | some g, .wait io => some (some (g.waitInternal io).1, (g.waitInternal io).2.1)
  | some g, .cancel inactivate | some g, .dropTicket inactivate =>
    some (some (g.cancelInternal inactivate).1, (g.cancelInternal inactivate).2.1)
  | some g, .drop inactivate last =>
    let cancelled := g.cancelInternal inactivate
    some (none, cancelled.2.1 ++ (cancelled.1.queues.inactivateAll last).2.1)

end Hipscope.Redline.Aql.Lifecycle
