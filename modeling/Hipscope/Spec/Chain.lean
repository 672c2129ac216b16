import Mathlib.Data.List.Basic

/-! The chain speculator: a drafter proposes a block, the target verifies it, the
accepted part and one more token are committed. -/
namespace Hipscope.Spec

abbrev Token := UInt32

/-- Outcome of one acceptance window. -/
structure SpecStep where
  emit : List Token
  nextSeed : Token
  proposed : ℕ
  accepted : ℕ
  deriving DecidableEq, Repr

def SpecStep.capEmit (s : SpecStep) (maxEmit : ℕ) : SpecStep :=
  if maxEmit = 0 then { s with emit := [], accepted := 0 }
  else if s.emit.length ≤ maxEmit then s
  else
    let emit := s.emit.take maxEmit
    { s with
      emit := emit
      accepted := min s.accepted (maxEmit - 1)
      nextSeed := emit.getLast?.getD s.nextSeed }

structure GreedyAccept where
  committed : List Token
  accepted : ℕ
  hitEos : Bool
  deriving DecidableEq, Repr

/-- The loop over the drafts; a read past the picks panics. -/
def acceptDrafts (targetPick : List Token) (eos : Option Token) : ℕ → List Token → GreedyAccept → Option GreedyAccept
  | _, [], acc => some acc
  | i, d :: drafts, acc => do
    let pick ← targetPick[i]?
    if pick = d then
      let acc := { acc with committed := acc.committed ++ [d], accepted := acc.accepted + 1 }
      if eos = some d then some { acc with hitEos := true }
      else acceptDrafts targetPick eos (i + 1) drafts acc
    else some acc

/-- Accept the longest matching part of the drafts, then take the target's own pick. -/
def acceptGreedyPrefix (drafts targetPick : List Token) (eos : Option Token) : Option GreedyAccept := do
  let acc ← acceptDrafts targetPick eos 0 drafts ⟨[], 0, false⟩
  if acc.hitEos then some acc
  else do
    let bonus ← targetPick[acc.accepted]?
    some { acc with committed := acc.committed ++ [bonus], hitEos := decide (eos = some bonus) }

/-- A token-only block drafter with state `δ`. -/
structure BlockDrafter (δ : Type) where
  propose : δ → List Token → Token → ℕ → List Token × δ
  observe : δ → List Token → List Token → δ

/-- The verifier's entry points, over its state `τ` and its verify scratch `κ`. -/
structure SpecTarget (τ κ : Type) where
  verifyBlock : τ → κ → List Token → ℕ → Except String (List Token × τ × κ)
  verifyBlockSampled : τ → κ → List Token → ℕ → UInt64 → Except String (List Token × UInt64 × τ × κ)
  commitPrefix : τ → κ → List Token → ℕ → ℕ → Except String (τ × κ)

/-- `sampled` is set when the target can sample and the request asks for it. -/
structure ChainSpeculator (δ κ : Type) where
  drafter : δ
  blockSize : ℕ
  scratch : Option κ
  sampled : Bool
  rngState : UInt64

inductive Failure where
  | error (message : String)
  | panicked
  deriving DecidableEq, Repr

def orPanic {α : Type} : Option α → Except Failure α
  | some a => .ok a
  | none => .error .panicked

def orError {α : Type} : Except String α → Except Failure α
  | .ok a => .ok a
  | .error message => .error (.error message)

/-- Keep what fits the remaining budget before the target commits to it. -/
def GreedyAccept.clamp (acc : GreedyAccept) (maxEmit : ℕ) : GreedyAccept :=
  if maxEmit < acc.committed.length then
    let keep := max maxEmit 1
    { acc with accepted := min (keep - 1) acc.accepted, committed := acc.committed.take keep }
  else acc

namespace ChainSpeculator
variable {δ κ τ : Type}

/-- The target's picks for a block, sampled or greedy. -/
def verify (self : ChainSpeculator δ κ) (target : SpecTarget τ κ) (state : τ) (scratch : κ)
    (block : List Token) (position : ℕ) : Except Failure (List Token × UInt64 × τ × κ) :=
  if self.sampled then orError (target.verifyBlockSampled state scratch block position self.rngState)
  else do
    let (picks, state, scratch) ← orError (target.verifyBlock state scratch block position)
    .ok (picks, self.rngState, state, scratch)

def step (target : SpecTarget τ κ) (drafts : BlockDrafter δ) (self : ChainSpeculator δ κ) (state : τ)
    (position : ℕ) (seed : Token) (emitted : List Token) (maxEmit : ℕ) :
    Except Failure (SpecStep × ChainSpeculator δ κ × τ) :=
  if maxEmit = 0 then .error (.error "ChainSpeculator: max_emit=0 (no remaining output budget)")
  else
    let draftN := min (maxEmit - 1) (self.blockSize - 1)
    let (draft, drafter) := drafts.propose self.drafter emitted seed draftN
    let block := seed :: draft
    match self.scratch with
    | none => .error (.error "ChainSpeculator: step before prefill")
    | some scratch => do
      let (picks, rngState, state, scratch) ← self.verify target state scratch block position
      let acc ← orPanic (acceptGreedyPrefix draft picks none)
      let acc := acc.clamp maxEmit
      let bonus ← orPanic acc.committed.getLast?
      let (state, scratch) ← orError (target.commitPrefix state scratch block acc.accepted position)
      .ok (SpecStep.capEmit ⟨acc.committed, bonus, draft.length, acc.accepted⟩ maxEmit,
        { self with
          drafter := drafts.observe drafter emitted acc.committed
          scratch := some scratch
          rngState := rngState }, state)

end ChainSpeculator

/-- What the decode loop keeps between windows. -/
structure Decoding (δ κ τ : Type) where
  speculator : ChainSpeculator δ κ
  target : τ
  position : ℕ
  seed : Token
  emitted : List Token

/-- One window of the decode loop under an output budget. -/
def Decoding.step {δ κ τ : Type} (target : SpecTarget τ κ) (drafts : BlockDrafter δ) (d : Decoding δ κ τ)
    (maxEmit : ℕ) : Option (Decoding δ κ τ × List (ℕ × SpecStep)) :=
  match d.speculator.step target drafts d.target d.position d.seed d.emitted maxEmit with
  | .error _ => none
  | .ok (out, speculator, state) =>
    some (⟨speculator, state, d.position + out.emit.length, out.nextSeed, d.emitted ++ out.emit⟩,
      [(maxEmit, out)])

end Hipscope.Spec
