import Hipscope.Machine.Runs
import Hipscope.Serve.Swap

/-! The serve engine: one thread that admits requests, evicts and restores
sessions, and drives every occupied slot through one batched forward per step.
Outcomes of GPU calls, file operations and client channels are inputs. -/
namespace Hipscope.Serve
open Hipscope.Residency (r9700VramBytes)

/-- The forward pass at one position: from the KV before it, the recurrent
state and the token to the position's KV and the next recurrent state. -/
structure Model (Cell Rec : Type) where
  fresh : Rec
  feed : List Cell → Rec → Token → Cell × Rec
  isTerminator : Token → Bool

/-- The device: a KV arena, in which the slabs of the slots lie side by side, and
one DeltaNet state per slot. -/
structure DeviceMemory (Cell Rec : Type) where
  arena : ℕ → Cell
  dnStates : ℕ → Rec

/-- The live prefix of a slot with the tokens it was computed from. -/
structure SlotSnapshot (Cell Rec : Type) where
  seqLen : ℕ
  tokens : List Token
  kv : List Cell
  dn : Rec

section Device
variable {Cell Rec : Type}

/-- Where a position of a slot lies. Nothing checks it against the slab: position
`cap` of a slot is position 0 of the next. -/
def kvAddress (cap slot pos : ℕ) : ℕ := slot * cap + pos

def inSlab (cap slot address : ℕ) : Bool := slot * cap ≤ address && address < slot * cap + cap

namespace DeviceMemory

def kvBefore (m : DeviceMemory Cell Rec) (cap slot n : ℕ) : List Cell :=
  (List.range n).map fun pos => m.arena (kvAddress cap slot pos)

/-- Feed one token to a slot at a position. -/
def write (model : Model Cell Rec) (cap slot : ℕ) (m : DeviceMemory Cell Rec) (pos : ℕ) (token : Token) :
    DeviceMemory Cell Rec :=
  let fed := model.feed (m.kvBefore cap slot pos) (m.dnStates slot) token
  ⟨Function.update m.arena (kvAddress cap slot pos) fed.1, Function.update m.dnStates slot fed.2⟩

/-- Copy a snapshot into the arena, from the base of the slab on, and over the
recurrent state. -/
def load (cap slot : ℕ) (m : DeviceMemory Cell Rec) (snap : SlotSnapshot Cell Rec) : DeviceMemory Cell Rec where
  arena address :=
    if slot * cap ≤ address then snap.kv.getD (address - slot * cap) (m.arena address) else m.arena address
  dnStates := Function.update m.dnStates slot snap.dn

/-- What a failed GPU call leaves: anything where it was to write. -/
def spoil (m garbage : DeviceMemory Cell Rec) (addresses slots : ℕ → Bool) : DeviceMemory Cell Rec where
  arena address := if addresses address then garbage.arena address else m.arena address
  dnStates slot := if slots slot then garbage.dnStates slot else m.dnStates slot

/-- Overwrite the recurrent state of a slot. -/
def setDn (m : DeviceMemory Cell Rec) (slot : ℕ) (dn : Rec) : DeviceMemory Cell Rec :=
  { m with dnStates := Function.update m.dnStates slot dn }

end DeviceMemory

def captureSlot (pool : SlotPool) (memory : DeviceMemory Cell Rec) (slot : ℕ) (tokens : List Token) :
    SlotSnapshot Cell Rec :=
  ⟨pool.seqLen slot, tokens, memory.kvBefore pool.capTokens slot (pool.seqLen slot), memory.dnStates slot⟩

/-- A failed copy leaves anything in the slot, and wherever else the snapshot
would have gone. The length is checked after the copies. -/
def restoreSlot (pool : SlotPool) (memory : DeviceMemory Cell Rec) (slot : ℕ)
    (snap : SlotSnapshot Cell Rec) (copy : Option (DeviceMemory Cell Rec)) :
    SlotPool × DeviceMemory Cell Rec × Bool :=
  let base := slot * pool.capTokens
  match copy with
  | some garbage => (pool, memory.spoil garbage (fun address => base ≤ address &&
      address < base + max pool.capTokens snap.kv.length) (fun sl => sl = slot), false)
  | none =>
    let memory := memory.load pool.capTokens slot snap
    match pool.setSeqLen slot snap.seqLen with
    | some pool => (pool, memory, true)
    | none => (pool, memory, false)

end Device

structure EngineConfig (Cell Rec : Type) where
  model : Model Cell Rec
  nSlots : ℕ
  capTokens : ℕ
  hostBudgetBytes : ℕ
  footprint : ModelFootprint
  dnBytes : ℕ

namespace EngineConfig
variable {Cell Rec : Type} (cfg : EngineConfig Cell Rec)

def payloadLen (snap : SlotSnapshot Cell Rec) : ℕ :=
  cfg.footprint.kvBytesPerToken * snap.seqLen + cfg.dnBytes

/-- An 80-byte header, the tokens, the payload. -/
def encodedLen (snap : SlotSnapshot Cell Rec) : ℕ :=
  80 + 4 * snap.tokens.length + cfg.payloadLen snap

end EngineConfig

structure SubmitRequest where
  promptTokens : List Token
  convo : List ℕ
  continuation : List Token
  maxTokens : ℕ
  deriving DecidableEq

inductive DoneReason where
  | eos
  | maxTokens
  | clientGone
  deriving DecidableEq, Repr

inductive RejectReason where
  | evictionFailed
  | allSlotsBusy
  | admission (error : AdmitError)
  | holdsNoSlot
  | resetFailed
  | turn (error : TurnError)
  | forwardFailed
  deriving DecidableEq, Repr

/-- How a turn began: what the slot held, what was kept of it, and whether the
recurrent state had just been reset. -/
structure Turn where
  slot : ℕ
  prompt : List Token
  held : ℕ
  reused : ℕ
  reset : Bool
  deriving DecidableEq

/-- Events as they reach the client, with the turn an acceptance begins. -/
inductive Output where
  | accepted (session : ℕ) (turn : Turn)
  | rejected (reason : RejectReason)
  | token (session : ℕ) (id : Token)
  | done (session : ℕ) (reason : DoneReason)
  deriving DecidableEq

/-- One request occupying a slot. -/
structure InFlight where
  session : ℕ
  produced : ℕ
  maxTokens : ℕ
  deriving DecidableEq

structure PendingWork where
  remainingPrompt : List Token
  nextPos : ℕ
  decoding : Bool
  deriving DecidableEq

/-- Everything the engine thread owns. -/
structure Engine (Cell Rec : Type) where
  pool : SlotPool
  memory : DeviceMemory Cell Rec
  sessions : SessionTable
  adm : AdmissionController
  swap : SwapStore (SlotSnapshot Cell Rec)
  slots : ℕ → Option InFlight
  work : ℕ → PendingWork

structure EvictIo where
  capture : Bool
  file : FileIo

structure RestoreIo (Cell Rec : Type) where
  file : FileIo
  copy : Option (DeviceMemory Cell Rec)

/-- Outcomes within one admission; a failed reset leaves any recurrent state. -/
structure AdmitIo (Cell Rec : Type) where
  makeRoom : EvictIo
  restore : RestoreIo Cell Rec
  evict : EvictIo
  reset : Option Rec
  accepted : Bool

/-- Outcomes within one scheduling step. The forward only enqueues its kernels:
they can still fail when the device is synchronized. Either failure leaves
anything in the slots of the rows. -/
structure StepIo (Cell Rec : Type) where
  forward : Option (DeviceMemory Cell Rec × (ℕ → ℕ))
  synchronize : Option (DeviceMemory Cell Rec)
  sample : Bool
  copyBack : Bool
  ids : ℕ → Token
  delivered : ℕ → Bool

namespace Engine
variable {Cell Rec : Type} (cfg : EngineConfig Cell Rec)

def start (memory : DeviceMemory Cell Rec) : Engine Cell Rec where
  pool := .new cfg.nSlots cfg.capTokens
  memory
  sessions := .empty
  adm := .new cfg.footprint r9700VramBytes
  swap := .new cfg.hostBudgetBytes
  slots _ := none
  work _ := ⟨[], 0, false⟩

def close (e : Engine Cell Rec) (id : ℕ) : Engine Cell Rec :=
  let closed := e.sessions.close e.pool e.adm id
  { e with sessions := closed.1, pool := closed.2.1, adm := closed.2.2 }

def markCold (e : Engine Cell Rec) (id : ℕ) : Engine Cell Rec :=
  let cold := e.sessions.markCold e.pool id
  { e with sessions := cold.1, pool := cold.2 }

def markSwapped (e : Engine Cell Rec) (id : ℕ) : Engine Cell Rec :=
  let swapped := e.sessions.markSwapped e.pool id
  { e with sessions := swapped.1, pool := swapped.2 }

/-- Capture an idle session's state, park it and free its slot. -/
def evict (io : EvictIo) (e : Engine Cell Rec) (victim : ℕ) : Engine Cell Rec × Bool :=
  match e.sessions.get victim with
  | none => (e, false)
  | some session =>
    match session.slot with
    | none => (e, false)
    | some slot =>
      if io.capture then
        let snap := captureSlot e.pool e.memory slot session.tokens
        let parked := e.swap.park cfg.payloadLen cfg.encodedLen io.file victim snap
        let e := { e with swap := parked.1 }
        if parked.2 then (e.markSwapped victim, true) else (e.markCold victim, true)
      else (e.markCold victim, true)

/-- Restore a swapped session into a slot; any failure marks it cold. -/
def restore (io : RestoreIo Cell Rec) (e : Engine Cell Rec) (id slot : ℕ) : Engine Cell Rec × Bool :=
  match e.swap.unpark cfg.payloadLen io.file id with
  | (swap, none) => ({ e with swap }.markCold id, false)
  | (swap, some snap) =>
    match restoreSlot e.pool e.memory slot snap io.copy with
    | (pool, memory, true) =>
      ({ e with swap, pool, memory, sessions := e.sessions.markResident id slot snap.seqLen }, true)
    | (pool, memory, false) => ({ e with swap, pool, memory }.markCold id, false)

def busy (e : Engine Cell Rec) : List ℕ :=
  (List.range cfg.nSlots).filterMap fun slot => (e.slots slot).map InFlight.session

/-- A free slot for a restore, evicting another idle session if none is left. -/
def makeRoom (io : EvictIo) (e : Engine Cell Rec) (busy : List ℕ) (existing : ℕ) :
    Engine Cell Rec × Option ℕ :=
  match e.pool.acquire with
  | some (slot, pool) => ({ e with pool }, some slot)
  | none =>
    match (e.sessions.lruIdleVictim busy).filter fun victim => victim ≠ existing with
    | none => (e, none)
    | some victim =>
      let e := (evict cfg io e victim).1
      match e.pool.acquire with
      | some (slot, pool) => ({ e with pool }, some slot)
      | none => (e, none)

/-- The slot of a matched session, restoring it first if it was swapped. -/
def attach (io : AdmitIo Cell Rec) (e : Engine Cell Rec) (busy : List ℕ) (existing : ℕ) :
    Engine Cell Rec × Option ℕ :=
  match (e.sessions.get existing).bind Session.slot with
  | some slot => (e, some slot)
  | none =>
    match makeRoom cfg io.makeRoom e busy existing with
    | (e, none) => (e, none)
    | (e, some target) =>
      match restore cfg io.restore e existing target with
      | (e, true) => (e, some target)
      | (e, false) => ({ e with pool := e.pool.release target }, none)

/-- Put a request in flight on its session's slot. -/
def launch (e : Engine Cell Rec) (slot session maxTokens : ℕ) (prompt : List Token)
    (plan : TurnPlan) : Engine Cell Rec :=
  { e with
    work := Function.update e.work slot ⟨prompt.drop plan.reused, plan.reused, false⟩
    slots := Function.update e.slots slot (some ⟨session, 0, max maxTokens 1⟩) }

/-- Begin a turn of a session, unless its slot refuses the length. -/
def beginTurn (e : Engine Cell Rec) (id : ℕ) (prompt : List Token) (convo : List ℕ) :
    Except TurnError (Engine Cell Rec × TurnPlan) :=
  match e.sessions.beginTurn e.pool id prompt with
  | .error error => .error error
  | .ok (sessions, pool, plan) =>
    .ok ({ e with
      pool, sessions := sessions.modify id fun s => { s with tokens := prompt, convo } }, plan)

/-- Append the new turn to a session's own tokens. An empty answer sends the
request on to the cold path. -/
def continueTurn (io : AdmitIo Cell Rec) (e : Engine Cell Rec) (req : SubmitRequest) :
    Engine Cell Rec × Option (List Output) :=
  if req.continuation = [] then (e, none)
  else match e.sessions.findContinuation req.convo (e.busy cfg) with
    | none => (e, none)
    | some existing =>
      let base := ((e.sessions.get existing).map Session.tokens).getD []
      match attach cfg io e (e.busy cfg) existing with
      | (e, none) => (e, none)
      | (e, some slot) =>
        let extended := base ++ req.continuation
        let held := e.pool.seqLen slot
        match e.beginTurn existing extended req.convo with
        | .error _ => (e, none)
        | .ok (e, plan) =>
          if io.accepted then
            let e := e.launch slot existing req.maxTokens extended plan
            ({ e with sessions := e.sessions.touch existing },
              some [.accepted existing ⟨slot, extended, held, plan.reused, false⟩])
          else (e, some [])

def openSession (e : Engine Cell Rec) : Engine Cell Rec × Except AdmitError ℕ :=
  let opened := e.sessions.open e.pool e.adm cfg.capTokens
  ({ e with sessions := opened.1, pool := opened.2.1, adm := opened.2.2.1 }, opened.2.2.2)

/-- A fresh session, evicting the least recently used idle one if that is what
it takes. -/
def openOrEvict (io : EvictIo) (e : Engine Cell Rec) :
    Engine Cell Rec × Except RejectReason ℕ :=
  match e.openSession cfg with
  | (e, .ok id) => (e, .ok id)
  | (e, .error _) =>
    match e.sessions.lruIdleVictim (e.busy cfg) with
    | none => (e, .error .allSlotsBusy)
    | some victim =>
      match evict cfg io e victim with
      | (e, false) => (e, .error .evictionFailed)
      | (e, true) =>
        match e.openSession cfg with
        | (e, .ok id) => (e, .ok id)
        | (e, .error error) => (e, .error (.admission error))

/-- The first turn of a fresh session. The recurrent state lives outside the
KV slab, so it is reset before the slot is used again. -/
def freshTurn (io : AdmitIo Cell Rec) (e : Engine Cell Rec) (req : SubmitRequest) (id : ℕ) :
    Engine Cell Rec × List Output :=
  match (e.sessions.get id).bind Session.slot with
  | none => (e, [.rejected .holdsNoSlot])
  | some slot =>
    match io.reset with
    | some dn =>
      ({ e with memory := e.memory.setDn slot dn }.close id, [.rejected .resetFailed])
    | none =>
      let e := { e with memory := e.memory.setDn slot cfg.model.fresh }
      let held := e.pool.seqLen slot
      match e.beginTurn id req.promptTokens req.convo with
      | .error error => (e.close id, [.rejected (.turn error)])
      | .ok (e, plan) =>
        if io.accepted then
          (e.launch slot id req.maxTokens req.promptTokens plan,
            [.accepted id ⟨slot, req.promptTokens, held, plan.reused, true⟩])
        else (e.close id, [])

/-- Admit one request. -/
def admitRequest (io : AdmitIo Cell Rec) (e : Engine Cell Rec) (req : SubmitRequest) :
    Engine Cell Rec × List Output :=
  match continueTurn cfg io e req with
  | (e, some outputs) => (e, outputs)
  | (e, none) =>
    match openOrEvict cfg io.evict e with
    | (e, .error reason) => (e, [.rejected reason])
    | (e, .ok id) => freshTurn cfg io e req id

end Engine

section Scheduling

/-- One row of a forward batch. -/
structure Row where
  slot : ℕ
  token : Token
  position : ℕ
  deriving DecidableEq

structure SlotBatch where
  mPerSlot : List ℕ
  rows : List Row
  deriving DecidableEq

/-- How many pending tokens a slot contributes to the next step. -/
def PendingWork.taken (w : PendingWork) (chunkSize : ℕ) : ℕ :=
  if w.decoding then min w.remainingPrompt.length 1 else min w.remainingPrompt.length chunkSize

def PendingWork.advance (w : PendingWork) (chunkSize : ℕ) : PendingWork :=
  { w with
    remainingPrompt := w.remainingPrompt.drop (w.taken chunkSize)
    nextPos := w.nextPos + w.taken chunkSize }

def PendingWork.rows (w : PendingWork) (chunkSize slot : ℕ) : List Row :=
  (w.remainingPrompt.take (w.taken chunkSize)).zipIdx.map fun (token, i) =>
    ⟨slot, token, w.nextPos + i⟩

/-- Up to a chunk of pending tokens from every slot, in slot order. -/
def nextBatch (nSlots chunkSize : ℕ) (work : ℕ → PendingWork) : SlotBatch where
  mPerSlot := (List.range nSlots).map fun slot => (work slot).taken chunkSize
  rows := (List.range nSlots).flatMap fun slot => (work slot).rows chunkSize slot

end Scheduling

namespace Engine
variable {Cell Rec : Type} (cfg : EngineConfig Cell Rec)

def chunkSize : ℕ := max cfg.capTokens 1

/-- Feed one row of the batch. -/
def writeRow (cap : ℕ) (memory : DeviceMemory Cell Rec) (row : Row) : DeviceMemory Cell Rec :=
  memory.write cfg.model cap row.slot row.position row.token

/-- Advance the length of every slot with a row, stopping at the first that
would exceed its slab. -/
def advanceSlotSeqLens (rows : List Row) : SlotPool → List ℕ → SlotPool × Bool
  | pool, [] => (pool, true)
  | pool, slot :: rest =>
    match (rows.filter fun row => row.slot = slot).getLast? with
    | none => advanceSlotSeqLens rows pool rest
    | some last =>
      match pool.setSeqLen slot (last.position + 1) with
      | none => (pool, false)
      | some pool => advanceSlotSeqLens rows pool rest

/-- What failed kernels leave of the memory: anything in the slots of the rows
and where the rows were to be written. -/
def spoilRows (rows : List Row) (garbage : DeviceMemory Cell Rec) (e : Engine Cell Rec) :
    DeviceMemory Cell Rec :=
  let cap := e.pool.capTokens
  e.memory.spoil garbage
    (fun address => rows.any fun row =>
      inSlab cap row.slot address || kvAddress cap row.slot row.position = address)
    (fun slot => rows.any fun row => row.slot = slot)

/-- A failed forward may have advanced the slots of its rows or not. -/
def scramble (garbage : DeviceMemory Cell Rec × (ℕ → ℕ)) (rows : List Row) (e : Engine Cell Rec) :
    Engine Cell Rec :=
  { e with
    memory := e.spoilRows rows garbage.1
    pool := { e.pool with
      seqLen := fun slot =>
        if rows.any fun row => row.slot = slot then min (garbage.2 slot) e.pool.capTokens
        else e.pool.seqLen slot } }

/-- The batched forward. A batch beyond the scratch buffers fails an assertion
and takes the thread down. The lengths are checked once the rows are written. -/
def forward (io : StepIo Cell Rec) (e : Engine Cell Rec) (rows : List Row) :
    Option (Engine Cell Rec × Bool) :=
  if rows.length > max cfg.capTokens cfg.nSlots then none
  else match io.forward with
    | some garbage => some (e.scramble garbage rows, false)
    | none =>
      let advanced := advanceSlotSeqLens rows e.pool (List.range cfg.nSlots)
      some ({ e with
        memory := rows.foldl (writeRow cfg e.pool.capTokens) e.memory
        pool := advanced.1 }, advanced.2)

/-- Wait for the kernels of the batch. -/
def synchronize (io : StepIo Cell Rec) (rows : List Row) (e : Engine Cell Rec) : Engine Cell Rec :=
  { e with memory := match io.synchronize with
      | some garbage => e.spoilRows rows garbage
      | none => e.memory }

/-- Reject the request of a slot after a failed forward. -/
def abortSlot (e : Engine Cell Rec) (slot : ℕ) : Engine Cell Rec × List Output :=
  match e.slots slot with
  | none => (e, [])
  | some f =>
    ({ e with
        slots := Function.update e.slots slot none
        work := Function.update e.work slot { e.work slot with remainingPrompt := [] } }.close f.session,
      [.rejected .forwardFailed])

/-- Take the sampled token of one slot: emit it, then end the turn or queue it. -/
def sampleSlot (io : StepIo Cell Rec) (e : Engine Cell Rec) (slot : ℕ) :
    Engine Cell Rec × List Output :=
  match e.slots slot with
  | none => (e, [])
  | some f =>
    if (e.work slot).remainingPrompt ≠ [] then (e, [])
    else
      let token := io.ids slot
      let hitEos := cfg.model.isTerminator token
      let gone := !hitEos && !io.delivered slot
      let emitted := if hitEos || gone then [] else [Output.token f.session token]
      let hitMax : Bool := f.produced + 1 ≥ f.maxTokens
      if gone || hitEos || hitMax then
        let reason := if gone then .clientGone else if hitEos then .eos else .maxTokens
        let e := { e with
          slots := Function.update e.slots slot none
          work := Function.update e.work slot { e.work slot with remainingPrompt := [] } }
        let e := if reason = .clientGone then e.close f.session
          else { e with sessions := e.sessions.touch f.session }
        (e, emitted ++ [.done f.session reason])
      else
        ({ e with
            slots := Function.update e.slots slot (some { f with produced := f.produced + 1 })
            work := Function.update e.work slot { e.work slot with remainingPrompt := [token] }
            sessions := (e.sessions.modify f.session fun s =>
              { s with tokens := s.tokens ++ [token] }).touch f.session }, emitted)

/-- Run an action on every slot in order. -/
def forSlots (f : Engine Cell Rec → ℕ → Engine Cell Rec × List Output) :
    Engine Cell Rec → List ℕ → Engine Cell Rec × List Output
  | e, [] => (e, [])
  | e, slot :: rest =>
    let first := f e slot
    let others := forSlots f first.1 rest
    (others.1, first.2 ++ others.2)

/-- One scheduling step. -/
def step (io : StepIo Cell Rec) (e : Engine Cell Rec) : Option (Engine Cell Rec × List Output) :=
  let batch := nextBatch cfg.nSlots (chunkSize cfg) e.work
  let e := { e with work := fun slot =>
    if slot < cfg.nSlots then (e.work slot).advance (chunkSize cfg) else e.work slot }
  if batch.rows = [] then some (e, [])
  else match forward cfg io e batch.rows with
    | none => none
    | some (e, false) => some (forSlots abortSlot e (List.range cfg.nSlots))
    | some (e, true) =>
      let e := e.synchronize io batch.rows
      if io.synchronize.isSome || !io.sample || !io.copyBack then some (e, [])
      else some (forSlots (sampleSlot cfg io) e (List.range cfg.nSlots))

def occupied (e : Engine Cell Rec) : Bool :=
  (List.range cfg.nSlots).any fun slot => (e.slots slot).isSome

/-- What the loop can do next. -/
inductive Action (Cell Rec : Type) where
  | request (io : AdmitIo Cell Rec) (req : SubmitRequest)
  | step (io : StepIo Cell Rec)

/-- Requests are admitted at any time; steps are taken while a slot is occupied. -/
def act (e : Engine Cell Rec) : Action Cell Rec → Option (Engine Cell Rec × List Output)
  | .request io req => some (admitRequest cfg io e req)
  | .step io => if e.occupied cfg then step cfg io e else none

/-- The engine after some sequence of actions, with everything sent to clients. -/
def Reaches (guard : Engine Cell Rec → Action Cell Rec → Prop) (memory : DeviceMemory Cell Rec)
    (actions : List (Action Cell Rec)) (outputs : List Output) (e : Engine Cell Rec) : Prop :=
  Machine.Runs (act cfg) guard (start cfg memory) actions outputs e

end Engine
end Hipscope.Serve
