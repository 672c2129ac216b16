import Mathlib.Analysis.SpecialFunctions.Exp
import Hipscope.Chance.Draws
import Hipscope.Spec.Chain

/-! Speculative sampling without replacement: a position's candidates are drawn from the draft's
distribution, then verified one after the other against the target's. Exact arithmetic. -/
namespace Hipscope.Spec
open Chance

section Loops
variable {K : Type} [Field K] [LinearOrder K] {vocab : ℕ}

/-- `Sequential draw of k tokens`, each time from what is left of `qr`; the pad is token 0. -/
def drawCandidates : ℕ → (Fin vocab → K) → Draws K (List Token)
  | 0, _ => pure []
  | k + 1, qr =>
    let s := ∑ t, qr t
    if s ≤ 0 then do
      let posCands ← drawCandidates k qr
      pure (0 :: posCands)
    else do
      let u ← Draws.number
      let pick := ((scanFrom qr (u * s) 0 (List.finRange vocab)).map Fin.val).getD (vocab - 1)
      let posCands ← drawCandidates k fun t => if t.val = pick then 0 else qr t
      pure (UInt32.ofNat pick :: posCands)

/-- The first index of a greatest weight; `best` is the one so far, `none` below every weight. -/
def argmaxFrom (w : Fin vocab → K) : ℕ → Option K → List (Fin vocab) → ℕ
  | best, _, [] => best
  | best, bv, t :: rest =>
    if bv.all fun b => b < w t then argmaxFrom w t.val (some (w t)) rest else argmaxFrom w best bv rest

def sampleUnnormalized (w : Fin vocab → K) (u : K) : Token :=
  let sum := ∑ t, if 0 < w t then w t else 0
  if sum ≤ 0 then UInt32.ofNat (argmaxFrom w 0 none (List.finRange vocab))
  else
    let target := u * sum
    let positive := (List.finRange vocab).filter fun t => 0 < w t
    UInt32.ofNat (((scanFrom w target 0 positive).map Fin.val).getD (vocab - 1))

/-- The target after a rejection: `normalize(relu(p − q/z))` off the tokens drawn before. -/
def residualTarget (p q : Fin vocab → K) (z : K) (drawn : List Token) : Fin vocab → K :=
  let reduced := fun t => if drawn.any fun d => d.toNat = t.val then p t else max (p t - q t / z) 0
  let s := ∑ t, reduced t
  if 0 < s then fun t => reduced t / s else reduced

def sworStepFrom (q : Fin vocab → K) : (Fin vocab → K) → List Token → K → List Token → Draws K (Option Token × Token)
  | p, _, _, [] => do
    let u ← Draws.number
    pure (none, sampleUnnormalized p u)
  | p, drawn, drawnQSum, c :: cands =>
    if h : c.toNat < vocab then do
      let ct : Fin vocab := ⟨c.toNat, h⟩
      let z := max (1 - drawnQSum) (1 / 1000000000)
      let qjc := min (max (q ct / z) 0) 1
      let ratio := if 0 < qjc then min (p ct / qjc) 1 else 0
      let u ← Draws.number
      if 0 < p ct ∧ u < ratio then pure (some c, c)
      else sworStepFrom q (residualTarget p q z drawn) (drawn ++ [c]) (drawnQSum + q ct) cands
    else sworStepFrom q p drawn drawnQSum cands

/-- One position: the token accepted, if any, and the token emitted. -/
def sworStep (p q : Fin vocab → K) (cands : List Token) : Draws K (Option Token × Token) :=
  sworStepFrom q p [] 0 cands

end Loops

section Positions
variable {vocab : ℕ}

/-- Softmax at a temperature; a masked logit is `⊥`. -/
noncomputable def softmaxTempInto (logits : Fin vocab → WithBot ℝ) (temp : ℝ) : Fin vocab → ℝ :=
  let invT := 1 / temp
  let scaled := fun t => (logits t).map (· * invT)
  let top := Finset.univ.sup scaled
  let out := fun t => if scaled t = ⊥ then 0 else Real.exp ((scaled t).unbotD 0 - top.unbotD 0)
  let inv := 1 / ∑ t, out t
  fun t => out t * inv

/-- The draft distributions and the candidates, position by position. -/
noncomputable def sworDraftCandidates (k : ℕ) (temp : ℝ) :
    List (Fin vocab → WithBot ℝ) → Draws ℝ (List (Fin vocab → ℝ) × List (List Token))
  | [] => pure ([], [])
  | row :: draftLogits => do
    let q := softmaxTempInto row (max temp (1 / 10000))
    let cands ← drawCandidates k q
    let (draftQ, posCands) ← sworDraftCandidates k temp draftLogits
    pure (q :: draftQ, cands :: posCands)

end Positions

/-- However fewer than `k` tokens are drawn, the draft mass left is nothing, or at least the guard of the division. -/
def Guarded {n : ℕ} (q : Fin n → ℝ) (k : ℕ) : Prop :=
  ∀ S : Finset (Fin n), S.card < k → (∀ t ∈ S, 0 < q t) →
    1 - ∑ t ∈ S, q t = 0 ∨ 1 / 1000000000 ≤ 1 - ∑ t ∈ S, q t

end Hipscope.Spec
