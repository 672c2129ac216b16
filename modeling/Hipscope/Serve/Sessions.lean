import Mathlib.Data.List.Basic
import Mathlib.Logic.Function.Basic
import Mathlib.Tactic
import Mathlib.Data.List.MinMax
import Hipscope.Residency.SlotPool

/-! The two capacity accounts of the serve engine: slots of the KV pool, and
the admission controller's byte budget. Descriptors keep the logical length
only; the base of a slab follows from its slot. -/
namespace Hipscope.Serve

/-- Fixed-size slabs, one per slot. -/
structure SlotPool where
  nSlots : ℕ
  capTokens : ℕ
  seqLen : ℕ → ℕ
  inUse : ℕ → Bool

namespace SlotPool

def new (nSlots capTokens : ℕ) : SlotPool where
  nSlots
  capTokens := Residency.roundedCap capTokens
  seqLen _ := 0
  inUse _ := false

def reset (p : SlotPool) (slot : ℕ) : SlotPool :=
  { p with seqLen := Function.update p.seqLen slot 0 }

def acquire (p : SlotPool) : Option (ℕ × SlotPool) :=
  ((List.range p.nSlots).find? fun slot => !p.inUse slot).map fun slot =>
    (slot, { p with inUse := Function.update p.inUse slot true }.reset slot)

def release (p : SlotPool) (slot : ℕ) : SlotPool :=
  { p.reset slot with inUse := Function.update p.inUse slot false }

/-- Refused past the capacity of a slab. -/
def setSeqLen (p : SlotPool) (slot seqLen : ℕ) : Option SlotPool :=
  if seqLen > p.capTokens then none
  else some { p with seqLen := Function.update p.seqLen slot seqLen }

theorem acquire_eq_some {p p' : SlotPool} {slot : ℕ} (h : p.acquire = some (slot, p')) :
    slot < p.nSlots ∧ p.inUse slot = false ∧
      p' = { p with inUse := Function.update p.inUse slot true,
                    seqLen := Function.update p.seqLen slot 0 } := by
  simp only [acquire, Option.map_eq_some_iff, Prod.mk.injEq] at h
  obtain ⟨found, hfound, rfl, rfl⟩ := h
  have hmem := List.mem_of_find?_eq_some hfound
  have hfree := List.find?_some hfound
  exact ⟨List.mem_range.mp hmem, by simpa using hfree, rfl⟩

theorem acquire_eq_none {p : SlotPool} :
    p.acquire = none ↔ ∀ slot < p.nSlots, p.inUse slot = true := by
  simp [acquire]

@[simp] theorem release_nSlots (p : SlotPool) (slot : ℕ) : (p.release slot).nSlots = p.nSlots := rfl

@[simp] theorem release_capTokens (p : SlotPool) (slot : ℕ) :
    (p.release slot).capTokens = p.capTokens := rfl

@[simp] theorem release_inUse (p : SlotPool) (slot : ℕ) :
    (p.release slot).inUse = Function.update p.inUse slot false := rfl

@[simp] theorem release_seqLen (p : SlotPool) (slot : ℕ) :
    (p.release slot).seqLen = Function.update p.seqLen slot 0 := rfl

theorem setSeqLen_eq_some {p p' : SlotPool} {slot n : ℕ} (h : p.setSeqLen slot n = some p') :
    n ≤ p.capTokens ∧ p' = { p with seqLen := Function.update p.seqLen slot n } := by
  unfold setSeqLen at h
  split at h
  · cases h
  · cases h
    exact ⟨by omega, rfl⟩

end SlotPool

/-- What one loaded model costs. -/
structure ModelFootprint where
  weightsBytes : ℕ
  kvBytesPerToken : ℕ
  deriving DecidableEq

inductive AdmitError where
  | poolFull
  | wouldExceedBudget (need available : ℕ)
  deriving DecidableEq, Repr

/-- Granted context per admitted session, in tokens. -/
structure AdmissionController where
  footprint : ModelFootprint
  budgetBytes : ℕ
  admitted : List ℕ
  deriving DecidableEq

namespace AdmissionController

def new (footprint : ModelFootprint) (budgetBytes : ℕ) : AdmissionController :=
  ⟨footprint, budgetBytes, []⟩

/-- KV bytes of a context, as the 64-bit product. -/
def kvBytes (a : AdmissionController) (ctx : ℕ) : ℕ := ctx * a.footprint.kvBytesPerToken % 2 ^ 64

/-- Weights once, if anything is admitted, and the KV of each session. -/
def usedBytes (a : AdmissionController) : ℕ :=
  if a.admitted = [] then 0
  else (a.footprint.weightsBytes +
    (a.admitted.map a.kvBytes).foldl (fun sum bytes => (sum + bytes) % 2 ^ 64) 0) % 2 ^ 64

/-- Weights are charged on the first admission. -/
def need (a : AdmissionController) (requestedCtx : ℕ) : ℕ :=
  (a.kvBytes requestedCtx + if a.admitted = [] then a.footprint.weightsBytes else 0) % 2 ^ 64

def available (a : AdmissionController) : ℕ := a.budgetBytes - a.usedBytes

/-- Consuming the last byte of the budget is refused too. -/
def admitSession (a : AdmissionController) (requestedCtx : ℕ) :
    Except AdmitError (ℕ × AdmissionController) :=
  if a.need requestedCtx ≥ a.available then
    .error (.wouldExceedBudget (a.need requestedCtx) a.available)
  else .ok (requestedCtx, { a with admitted := a.admitted ++ [requestedCtx] })

theorem admitSession_ok {a a' : AdmissionController} {ctx granted : ℕ} (h : a.admitSession ctx = .ok (granted, a')) :
    a.need ctx < a.available ∧ granted = ctx ∧ a' = { a with admitted := a.admitted ++ [ctx] } := by
  unfold admitSession at h
  split at h
  · cases h
  · cases h
    exact ⟨by omega, rfl, rfl⟩

/-- Drop the first session granted this much. -/
def release (a : AdmissionController) (grantedCtx : ℕ) : AdmissionController :=
  { a with admitted := a.admitted.erase grantedCtx }

end AdmissionController
end Hipscope.Serve

/-! Which session holds which slot, and how much of its KV a new turn keeps. -/
namespace Hipscope.Serve

abbrev Token := UInt32

section Prefix

/-- Length of the longest common prefix. -/
def lcp : List Token → List Token → ℕ
  | a :: as, b :: bs => if a = b then lcp as bs + 1 else 0
  | _, _ => 0

structure TurnPlan where
  lcp : ℕ
  reused : ℕ
  toPrefill : ℕ
  deriving DecidableEq, Repr

/-- Reuse what the slot holds, but always leave the last token to prefill. -/
def planTurn (cached : List Token) (seqLen : ℕ) (prompt : List Token) : TurnPlan :=
  let shared := lcp cached prompt
  let capped := min (min shared seqLen) (prompt.length - 1)
  ⟨capped, capped, prompt.length - capped⟩

theorem lcp_append (cached rest : List Token) : lcp cached (cached ++ rest) = cached.length := by
  induction cached with
  | nil => simp [lcp]
  | cons a cached ih => simp [lcp, ih]

/-- Extending the cached conversation keeps all the slot holds. -/
theorem planTurn_append {cached rest : List Token} {seqLen : ℕ} (hheld : seqLen ≤ cached.length)
    (hrest : rest ≠ []) : (planTurn cached seqLen (cached ++ rest)).reused = seqLen := by
  have hpos := List.length_pos_of_ne_nil hrest
  simp only [planTurn, lcp_append, List.length_append]
  omega

theorem planTurn_nil (seqLen : ℕ) (prompt : List Token) : (planTurn [] seqLen prompt).reused = 0 := by
  simp [planTurn, lcp]

end Prefix

/-- Where a session's GPU state lives; a property of the session, not the slot. -/
inductive Residency where
  | resident
  | swapped
  | cold
  deriving DecidableEq, Repr

structure Session where
  slot : Option ℕ
  grantedCtx : ℕ
  tokens : List Token
  nextPos : ℕ
  residency : Residency
  convo : List ℕ
  lastUsed : ℕ
  deriving DecidableEq

/-- Live sessions by id; identifiers below `nextId` have been handed out. Both
counters are 64-bit words in the source, which only wrap after 2^64 requests or
uses; here they never do. -/
structure SessionTable where
  sessions : ℕ → Option Session
  nextId : ℕ
  clock : ℕ

inductive TurnError where
  | unknownSession (id : ℕ)
  | noSlot (id : ℕ)
  | seqLenExceedsCap (slot seqLen cap : ℕ)
  deriving DecidableEq, Repr

namespace SessionTable

def empty : SessionTable := ⟨fun _ => none, 0, 0⟩

def get (t : SessionTable) (id : ℕ) : Option Session := t.sessions id

/-- Change a session in place, if it exists. -/
def modify (t : SessionTable) (id : ℕ) (f : Session → Session) : SessionTable :=
  { t with sessions := Function.update t.sessions id ((t.sessions id).map f) }

/-- Admission runs first; a full pool hands the budget straight back. -/
def «open» (t : SessionTable) (pool : SlotPool) (adm : AdmissionController) (requestedCtx : ℕ) :
    SessionTable × SlotPool × AdmissionController × Except AdmitError ℕ :=
  match adm.admitSession requestedCtx with
  | .error error => (t, pool, adm, .error error)
  | .ok (grantedCtx, adm) =>
    match pool.acquire with
    | none => (t, pool, adm.release grantedCtx, .error .poolFull)
    | some (slot, pool) =>
      ({ sessions := Function.update t.sessions t.nextId (some {
            slot := some slot, grantedCtx, tokens := [], nextPos := 0, residency := .resident
            convo := [], lastUsed := t.clock + 1 })
         nextId := t.nextId + 1
         clock := t.clock + 1 }, pool, adm, .ok t.nextId)

def close (t : SessionTable) (pool : SlotPool) (adm : AdmissionController) (id : ℕ) :
    SessionTable × SlotPool × AdmissionController :=
  match t.sessions id with
  | none => (t, pool, adm)
  | some session =>
    ({ t with sessions := Function.update t.sessions id none },
      match session.slot with
      | some slot => pool.release slot
      | none => pool,
      adm.release session.grantedCtx)

/-- Rewind the slot to what the prompt shares with the session's tokens. -/
def beginTurn (t : SessionTable) (pool : SlotPool) (id : ℕ) (prompt : List Token) :
    Except TurnError (SessionTable × SlotPool × TurnPlan) :=
  match t.sessions id with
  | none => .error (.unknownSession id)
  | some session =>
    match session.slot with
    | none => .error (.noSlot id)
    | some slot =>
      let plan := planTurn session.tokens (pool.seqLen slot) prompt
      match pool.setSeqLen slot plan.reused with
      | none => .error (.seqLenExceedsCap slot plan.reused pool.capTokens)
      | some pool =>
        .ok (t.modify id fun s => { s with tokens := s.tokens.take plan.reused, nextPos := plan.reused },
          pool, plan)

/-- Live sessions with their ids. The map's own order never decides: no two
sessions carry the same use stamp. -/
def iter (t : SessionTable) : List (ℕ × Session) :=
  (List.range t.nextId).filterMap fun id => (t.sessions id).map fun s => (id, s)

def active (t : SessionTable) : ℕ := t.iter.length

/-- The session that `want` continues by exactly one user turn. -/
def findContinuation (t : SessionTable) (want : List ℕ) (busy : List ℕ) : Option ℕ :=
  if want.length < 2 then none
  else ((t.iter.filter fun (id, s) => s.residency ≠ .cold && s.convo = want.dropLast &&
    s.tokens ≠ [] && !busy.contains id).argmax fun x => x.2.lastUsed).map Prod.fst

def touch (t : SessionTable) (id : ℕ) : SessionTable :=
  { t.modify id fun s => { s with lastUsed := t.clock + 1 } with clock := t.clock + 1 }

/-- The least recently used session that holds a slot and is not generating. -/
def lruIdleVictim (t : SessionTable) (busy : List ℕ) : Option ℕ :=
  ((t.iter.filter fun (id, s) => s.slot.isSome && !busy.contains id).argmin fun x =>
    x.2.lastUsed).map Prod.fst

/-- The pool once a session has given up its slot. -/
def releaseSlot (t : SessionTable) (pool : SlotPool) (id : ℕ) : SlotPool :=
  match (t.sessions id).bind Session.slot with
  | some slot => pool.release slot
  | none => pool

def markSwapped (t : SessionTable) (pool : SlotPool) (id : ℕ) : SessionTable × SlotPool :=
  (t.modify id fun s => { s with slot := none, residency := .swapped }, t.releaseSlot pool id)

def markCold (t : SessionTable) (pool : SlotPool) (id : ℕ) : SessionTable × SlotPool :=
  (t.modify id fun s => { s with slot := none, residency := .cold, nextPos := 0 },
    t.releaseSlot pool id)

def markResident (t : SessionTable) (id slot seqLen : ℕ) : SessionTable :=
  { t.modify id fun s => { s with
      slot := some slot, residency := .resident, nextPos := seqLen, lastUsed := t.clock + 1 } with
    clock := t.clock + 1 }

end SessionTable
end Hipscope.Serve
