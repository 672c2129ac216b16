import Mathlib.Algebra.Group.Nat.Defs
import Mathlib.Data.List.Basic
import Mathlib.Order.Lattice

/-! Adaptive KV: K and V live in separate buffers sized at their floor tiers, and
the precision steps down before a growing position overflows the binding one.
Sizes are 64-bit words: products wrap. -/
namespace Hipscope.Kv

def prefillMaxBatch : ℕ := 256

inductive KMode
  | fwht4 | fwht3 | fwht2
  deriving DecidableEq, Repr

inductive VMode
  | q8 | lloyd2 | lloyd3 | lloyd4
  deriving DecidableEq, Repr

namespace KMode

def bytesPerHead (headDim : ℕ) : KMode → ℕ
  | fwht4 => 4 + headDim / 2
  | fwht3 => 4 + headDim * 3 % 2 ^ 64 / 8
  | fwht2 => 4 + headDim / 4

def bits : KMode → ℕ
  | fwht4 => 4
  | fwht3 => 3
  | fwht2 => 2

end KMode

def VMode.bits : VMode → ℕ
  | q8 => 8
  | lloyd2 => 2
  | lloyd3 => 3
  | lloyd4 => 4

def vBytesPerHead (headDim : ℕ) : VMode → ℕ
  | .q8 => headDim / 32 * 34 % 2 ^ 64
  | v => 4 + headDim * v.bits % 2 ^ 64 / 8

/-- Bytes of the K buffer of one layer, sized at the K floor. -/
def kBufBytesPerLayer (maxSeq nKvHeads headDim : ℕ) (kFloor : KMode) : ℕ :=
  maxSeq * nKvHeads % 2 ^ 64 * kFloor.bytesPerHead headDim % 2 ^ 64

/-- Bytes of the V buffer of one layer, sized at the V floor. -/
def vBufBytesPerLayer (maxSeq nKvHeads headDim : ℕ) (vFloor : VMode) : ℕ :=
  maxSeq * nKvHeads % 2 ^ 64 * vBytesPerHead headDim vFloor % 2 ^ 64

/-- Usable positions at the current tiers: the smaller of what the two buffers hold. -/
def capMin (maxSeq headDim : ℕ) (kFloor : KMode) (vFloor : VMode) (curK : KMode) (curV : VMode) : ℕ :=
  let kCap := maxSeq * kFloor.bytesPerHead headDim % 2 ^ 64 / curK.bytesPerHead headDim
  let vCap := maxSeq * vBytesPerHead headDim vFloor % 2 ^ 64 / vBytesPerHead headDim curV
  min kCap vCap

/-- One downshift step drops one cache by one tier. -/
inductive Step
  | v (mode : VMode)
  | k (mode : KMode)
  deriving DecidableEq, Repr

inductive Preset
  | conservative | balanced | aggressive
  deriving DecidableEq, Repr

/-- Why a controller refuses further work: the step that failed and its error. -/
structure PoisonReason (ε : Type) where
  seqPos : ℕ
  step : Step
  error : ε
  deriving DecidableEq, Repr

inductive DownshiftError (ε : Type)
  | poisoned (reason : Option (PoisonReason ε))
  | transcode (error : ε)
  deriving DecidableEq, Repr

structure KvAdaptive (ε : Type) where
  nKvHeads : ℕ
  headDim : ℕ
  maxSeq : ℕ
  kFloor : KMode
  vFloor : VMode
  curK : KMode
  curV : VMode
  steps : List Step
  nextStep : ℕ
  thresholds : List ℕ
  margin : ℕ
  poisoned : Bool
  poisonReason : Option (PoisonReason ε)
  handoffAt : Option ℕ
  /-- What the shared eviction gate reads, once a handoff is configured. -/
  evictionReady : Option Bool
  deriving DecidableEq, Repr

/-- V to lloyd3 first, then K, then V to its floor. -/
def balancedSteps (kFloor : KMode) (vFloor : VMode) : List Step :=
  (if vFloor ≠ .q8 then [.v .lloyd4] else []) ++
  (if vFloor = .lloyd3 ∨ vFloor = .lloyd2 then [.v .lloyd3] else []) ++
  (if kFloor = .fwht2 then [.k .fwht2] else if kFloor = .fwht3 then [.k .fwht3] else []) ++
  (if vFloor = .lloyd2 then [.v .lloyd2] else [])

def Step.tiers : Step → KMode × VMode → KMode × VMode
  | .v nv, cur => (cur.1, nv)
  | .k nk, cur => (nk, cur.2)

/-- The tiers a controller starts at. -/
def startTiers : KMode × VMode := (.fwht4, .q8)

def thresholdsFrom (cap : KMode → VMode → ℕ) (margin : ℕ) : KMode × VMode → List Step → List ℕ
  | _, [] => []
  | tiers, st :: steps => (cap tiers.1 tiers.2 - margin) :: thresholdsFrom cap margin (st.tiers tiers) steps

namespace KvAdaptive
variable {ε : Type}

def recomputeThresholds (ad : KvAdaptive ε) : KvAdaptive ε :=
  { ad with
    thresholds := thresholdsFrom (capMin ad.maxSeq ad.headDim ad.kFloor ad.vFloor) ad.margin startTiers ad.steps }

def new (maxSeq nKvHeads headDim : ℕ) (kFloor : KMode) (vFloor : VMode) : KvAdaptive ε :=
  recomputeThresholds
    { nKvHeads, headDim, maxSeq, kFloor, vFloor
      curK := .fwht4
      curV := .q8
      steps := balancedSteps kFloor vFloor
      nextStep := 0
      thresholds := []
      margin := prefillMaxBatch
      poisoned := false
      poisonReason := none
      handoffAt := none
      evictionReady := none }

def fromPreset (p : Preset) (maxSeq nKvHeads headDim : ℕ) : KvAdaptive ε :=
  match p with
  | .conservative => new maxSeq nKvHeads headDim .fwht4 .lloyd4
  | .balanced => new maxSeq nKvHeads headDim .fwht3 .lloyd3
  | .aggressive => new maxSeq nKvHeads headDim .fwht2 .lloyd2

def currentCap (ad : KvAdaptive ε) : ℕ :=
  capMin ad.maxSeq ad.headDim ad.kFloor ad.vFloor ad.curK ad.curV

/-- The tiers go back to the start; a poisoned controller stays poisoned. -/
def reset (ad : KvAdaptive ε) : KvAdaptive ε :=
  { ad with
    curK := .fwht4
    curV := .q8
    nextStep := 0
    evictionReady := ad.evictionReady.map fun _ => false }

def configureEvictionHandoff (at_ : ℕ) (ad : KvAdaptive ε) : KvAdaptive ε :=
  { ad with handoffAt := some at_, evictionReady := some false }

def handoffComplete (ad : KvAdaptive ε) : Bool := ad.evictionReady.any id

def handoffCrossed (ad : KvAdaptive ε) (seqPos : ℕ) : Bool := ad.handoffAt.any (· ≤ seqPos)

def targetStepCount (ad : KvAdaptive ε) (seqPos : ℕ) : ℕ :=
  if ad.handoffCrossed seqPos then ad.steps.length
  else (ad.thresholds.takeWhile (· ≤ seqPos)).length

def poison (reason : PoisonReason ε) (ad : KvAdaptive ε) : KvAdaptive ε :=
  { ad with poisoned := true, poisonReason := some reason }

/-- The tiers and the step index after one transcode. -/
def shift (step : Step) (ad : KvAdaptive ε) : KvAdaptive ε :=
  let (k, v) := step.tiers (ad.curK, ad.curV)
  { ad with curK := k, curV := v, nextStep := ad.nextStep + 1 }

/-- The loop over the steps still to apply; a failed transcode poisons the controller. -/
def applySteps (transcode : Step → ℕ → Except ε Unit) (seqPos : ℕ) :
    List Step → KvAdaptive ε → Except (DownshiftError ε) (List Step) × KvAdaptive ε
  | [], ad => (.ok [], ad)
  | step :: pending, ad =>
    match transcode step seqPos with
    | .error err => (.error (.transcode err), ad.poison ⟨seqPos, step, err⟩)
    | .ok _ =>
      let (result, ad) := applySteps transcode seqPos pending (ad.shift step)
      (result.map (step :: ·), ad)

/-- Apply every step whose threshold the position has crossed, then open the gate
if the handoff position is crossed too. -/
def maybeDownshift (transcode : Step → ℕ → Except ε Unit) (seqPos : ℕ) (ad : KvAdaptive ε) :
    Except (DownshiftError ε) (List Step) × KvAdaptive ε :=
  if ad.poisoned then (.error (.poisoned ad.poisonReason), ad)
  else
    let pending := (ad.steps.take (ad.targetStepCount seqPos)).drop ad.nextStep
    match applySteps transcode seqPos pending ad with
    | (.error e, after) => (.error e, after)
    | (.ok applied, after) =>
      let evictionReady := if ad.handoffCrossed seqPos then after.evictionReady.map fun _ => true
        else after.evictionReady
      (.ok applied, { after with evictionReady := evictionReady })

end KvAdaptive
end Hipscope.Kv
