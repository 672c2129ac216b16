import Mathlib.Logic.Function.Basic
import Mathlib.Data.List.Basic
import Mathlib.Logic.Relation

/-! In-order command queues with asynchronous jobs and shared cells.
A log lists every published command with its queue; a queue issues its own
commands in log order, launched jobs finish in any order. -/
namespace Hipscope.Queue

/-- One queue command. A launch names the cell its completion writes, if any. -/
inductive Cmd (S V : Type) where
  | nop
  | launch (done : Option (S × V))
  | release (cell : S) (value : V)
  | drain
  | await (cell : S) (value : V)
  | store (cell : S) (value : V)
  deriving DecidableEq, Repr

namespace Cmd
variable {S V : Type}

/-- Launches and bottom-of-pipe releases take effect after they were issued. -/
def isAsync : Cmd S V → Bool
  | launch _ | release _ _ => true
  | _ => false

/-- The cell written when the command is issued. -/
def issueWrite : Cmd S V → Option (S × V)
  | store c v => some (c, v)
  | _ => none

/-- The cell written when an asynchronous command finishes. -/
def finishWrite : Cmd S V → Option (S × V)
  | launch done => done
  | release c v => some (c, v)
  | _ => none

/-- Either way of writing a cell. -/
def write (c : Cmd S V) : Option (S × V) :=
  if c.isAsync then c.finishWrite else c.issueWrite

@[simp] theorem write_nop : (nop : Cmd S V).write = none := rfl
@[simp] theorem write_drain : (drain : Cmd S V).write = none := rfl
@[simp] theorem write_launch (d : Option (S × V)) : (launch d).write = d := rfl
@[simp] theorem write_release (c : S) (v : V) : (release c v).write = some (c, v) := rfl
@[simp] theorem write_await (c : S) (v : V) : (await c v).write = none := rfl
@[simp] theorem write_store (c : S) (v : V) : (store c v).write = some (c, v) := rfl

end Cmd

structure Entry (Q T S V : Type) where
  queue : Q
  tag : T
  cmd : Cmd S V
  deriving DecidableEq, Repr

structure State (S V : Type) where
  issued : ℕ → Bool
  fin : ℕ → Bool
  mem : S → V

/-- Nothing issued yet over a given memory. -/
def State.init {S V : Type} (mem : S → V) : State S V := ⟨fun _ => false, fun _ => false, mem⟩

def writeCell {S V : Type} [DecidableEq S] (mem : S → V) : Option (S × V) → S → V
  | none => mem
  | some (c, v) => Function.update mem c v

inductive Action where
  | issue (k : ℕ)
  | complete (k : ℕ)
  deriving DecidableEq, Repr

section Exec
variable {Q T S V : Type} [DecidableEq Q]

/-- Every earlier command of the queue has been issued. -/
def ready (L : List (Entry Q T S V)) (s : State S V) (q : Q) (k : ℕ) : Bool :=
  (List.range k).all fun j => (L[j]?).all fun e => e.queue ≠ q || s.issued j

/-- Every earlier asynchronous command of the queue has finished. -/
def drained (L : List (Entry Q T S V)) (s : State S V) (q : Q) (k : ℕ) : Bool :=
  (List.range k).all fun j => (L[j]?).all fun e => e.queue ≠ q || !e.cmd.isAsync || s.fin j

/-- A release additionally waits for the jobs issued before it. -/
def settles (L : List (Entry Q T S V)) (s : State S V) (q : Q) (k : ℕ) : Cmd S V → Bool
  | .launch _ => true
  | .release _ _ => drained L s q k
  | _ => false

theorem ready_iff {L : List (Entry Q T S V)} {s : State S V} {q : Q} {k : ℕ} :
    ready L s q k = true ↔ ∀ j < k, ∀ e, L[j]? = some e → e.queue = q → s.issued j = true := by
  simp only [ready, List.all_eq_true, List.mem_range, Option.all_eq_true, Bool.or_eq_true,
    decide_eq_true_eq]
  constructor
  · intro h j hj e he hq
    exact (h j hj e he).resolve_left (fun hn => hn hq)
  · intro h j hj e he
    by_cases hq : e.queue = q
    · exact .inr (h j hj e he hq)
    · exact .inl hq

theorem drained_iff {L : List (Entry Q T S V)} {s : State S V} {q : Q} {k : ℕ} :
    drained L s q k = true ↔ ∀ j < k, ∀ e, L[j]? = some e → e.queue = q →
      e.cmd.isAsync = true → s.fin j = true := by
  simp only [drained, List.all_eq_true, List.mem_range, Option.all_eq_true, Bool.or_eq_true,
    decide_eq_true_eq, Bool.not_eq_true']
  constructor
  · intro h j hj e he hq ha
    rcases h j hj e he with (hn | hn) | hf
    · exact absurd hq hn
    · rw [ha] at hn; cases hn
    · exact hf
  · intro h j hj e he
    by_cases hq : e.queue = q
    · cases ha : e.cmd.isAsync with
      | false => exact .inl (.inr rfl)
      | true => exact .inr (h j hj e he hq ha)
    · exact .inl (.inl hq)

theorem settles_isAsync {L : List (Entry Q T S V)} {s : State S V} {q : Q} {k : ℕ} {c : Cmd S V}
    (h : settles L s q k c = true) : c.isAsync = true := by
  cases c <;> simp_all [settles, Cmd.isAsync]

variable [DecidableEq S] [DecidableEq V]

/-- What a command waits for at the head of its queue. -/
def admits (L : List (Entry Q T S V)) (s : State S V) (q : Q) (k : ℕ) : Cmd S V → Bool
  | .drain => drained L s q k
  | .await c v => s.mem c = v
  | _ => true

def exec (L : List (Entry Q T S V)) (s : State S V) : Action → Option (State S V)
  | .issue k => match L[k]? with
    | none => none
    | some e =>
      if !s.issued k && ready L s e.queue k && admits L s e.queue k e.cmd then
        some ⟨Function.update s.issued k true, s.fin, writeCell s.mem e.cmd.issueWrite⟩
      else none
  | .complete k => match L[k]? with
    | none => none
    | some e =>
      if s.issued k && !s.fin k && settles L s e.queue k e.cmd then
        some ⟨s.issued, Function.update s.fin k true, writeCell s.mem e.cmd.finishWrite⟩
      else none

def execAll (L : List (Entry Q T S V)) (s : State S V) (as : List Action) : Option (State S V) :=
  as.foldlM (exec L) s

/-- States of one submission that starts with the given memory. -/
inductive Reachable (L : List (Entry Q T S V)) (mem : S → V) : State S V → Prop
  | init : Reachable L mem (.init mem)
  | step {s s' : State S V} (a : Action) : Reachable L mem s → exec L s a = some s' →
      Reachable L mem s'

theorem Reachable.execAll {L : List (Entry Q T S V)} {mem : S → V} {s s' : State S V}
    (h : Reachable L mem s) (as : List Action) (he : execAll L s as = some s') :
    Reachable L mem s' := by
  induction as generalizing s with
  | nil =>
    simp only [Queue.execAll, List.foldlM_nil] at he
    cases he
    exact h
  | cons a as ih =>
    simp only [Queue.execAll, List.foldlM_cons] at he
    cases ha : exec L s a with
    | none => simp [ha] at he
    | some t =>
      rw [ha] at he
      exact ih (h.step a ha) he

/-- Everything one action can do, with its guards. -/
theorem exec_cases {L : List (Entry Q T S V)} {s s' : State S V} {a : Action}
    (h : exec L s a = some s') :
    (∃ k e, a = .issue k ∧ L[k]? = some e ∧ s.issued k = false ∧
      (∀ j < k, ∀ e', L[j]? = some e' → e'.queue = e.queue → s.issued j = true) ∧
      admits L s e.queue k e.cmd = true ∧
      s' = ⟨Function.update s.issued k true, s.fin, writeCell s.mem e.cmd.issueWrite⟩) ∨
    (∃ k e, a = .complete k ∧ L[k]? = some e ∧ s.issued k = true ∧ s.fin k = false ∧
      settles L s e.queue k e.cmd = true ∧
      s' = ⟨s.issued, Function.update s.fin k true, writeCell s.mem e.cmd.finishWrite⟩) := by
  cases a with
  | issue k =>
    cases he : L[k]? with
    | none => simp [exec, he] at h
    | some e =>
      simp only [exec, he] at h
      split at h
      · rename_i hg
        simp only [Bool.and_eq_true, Bool.not_eq_true', ready_iff] at hg
        exact .inl ⟨k, e, rfl, he, hg.1.1, hg.1.2, hg.2, by simpa using h.symm⟩
      · cases h
  | complete k =>
    cases he : L[k]? with
    | none => simp [exec, he] at h
    | some e =>
      simp only [exec, he] at h
      split at h
      · rename_i hg
        simp only [Bool.and_eq_true, Bool.not_eq_true'] at hg
        exact .inr ⟨k, e, rfl, he, hg.1.1, hg.1.2, hg.2, by simpa using h.symm⟩
      · cases h

/-- Issued and finished commands stay so. -/
theorem exec_mono {L : List (Entry Q T S V)} {s s' : State S V} {a : Action}
    (h : exec L s a = some s') (k : ℕ) :
    (s.issued k = true → s'.issued k = true) ∧ (s.fin k = true → s'.fin k = true) := by
  obtain ⟨j, e, -, -, -, -, -, rfl⟩ | ⟨j, e, -, -, -, -, -, rfl⟩ := exec_cases h
  · refine ⟨fun hk => ?_, id⟩
    by_cases hj : k = j
    · simp [hj]
    · simpa [Function.update_of_ne hj] using hk
  · refine ⟨id, fun hk => ?_⟩
    by_cases hj : k = j
    · simp [hj]
    · simpa [Function.update_of_ne hj] using hk

end Exec
end Hipscope.Queue
