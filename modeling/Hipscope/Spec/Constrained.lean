import Hipscope.Dsml.Grammar
import Hipscope.Spec.Chain
import Mathlib.Order.BoundedOrder.Lattice
import Mathlib.Order.Nat

/-! Speculative decoding under the tool-call grammar: drafting, verifying and committing each
advance a matcher of their own over one mask buffer. -/
namespace Hipscope.Spec.Constrained
open Dsml.Grammar

section Mask
variable {F : Type} [LinearOrder F] [OrderBot F]

/-- The first of the largest logits; a row has at least one. -/
def argmaxFrom : ℕ → ℕ → F → List F → ℕ
  | best, _, _, [] => best
  | best, i, bv, v :: logits => if bv < v then argmaxFrom i (i + 1) v logits else argmaxFrom best (i + 1) bv logits

def logitsArgmax : List F → ℕ
  | [] => 0
  | v :: logits => argmaxFrom 0 1 v logits

def pick (logits : List F) : Token := UInt32.ofNat (logitsArgmax logits)

/-- Entries beyond the vocabulary are left as they are. -/
def tokenMask (m : Matcher) (vocab : List (List Char)) (out : List Bool) : List Bool :=
  (if m.isFree then vocab.map fun _ => true else vocab.map m.isTokenAllowed) ++ out.drop vocab.length

/-- Disallowed tokens get the least logit there is. -/
def applyMaskToLogits (mask : List Bool) (logits : List F) : List F :=
  logits.mapIdx fun i v => if mask.getD i true then v else ⊥

def applyGrammarMask (m : Matcher) (vocab : List (List Char)) (mask : List Bool) (logits : List F) : List Bool × List F :=
  if m.isFree ∨ vocab = [] then (mask, logits)
  else
    let mask := if mask.length < vocab.length then mask ++ List.replicate (vocab.length - mask.length) true else mask
    let mask := tokenMask m vocab mask
    (mask, applyMaskToLogits mask logits)

def advanceMatcherToken (m : Matcher) (vocab : List (List Char)) (token : Token) : Matcher :=
  match vocab[token.toNat]? with
  | some text => (m.advance text).1
  | none => m

end Mask

/-- What decoding knows of the model: the MTP head's logits after the last token and the drafts so
far, and the main model's after the tokens fed behind its context. -/
structure Forward (F : Type) where
  mtpLoaded : Bool
  hiddenAvailable : Bool
  maxBatch : Option ℕ
  mtp : List Token → List F
  target : List Token → List F

structure SpecGrammar where
  matcher : Matcher
  decodedVocab : List (List Char)
  mask : List Bool
  deriving DecidableEq

structure SpecStepResult where
  acceptedTokens : List Token
  nAccepted : ℕ
  nProposed : ℕ
  deriving DecidableEq

section Decode
variable {F : Type} [LinearOrder F] [OrderBot F] (forward : Forward F) (vocab : List (List Char))

/-- The draft iterations, with the mask buffer they leave. -/
def draftTokens : ℕ → List Token → Matcher → List Bool → List Token × List Bool
  | 0, _, _, mask => ([], mask)
  | steps + 1, fed, m, mask =>
    let masked := applyGrammarMask m vocab mask (forward.mtp fed)
    let draft := pick masked.2
    let later := draftTokens steps (fed ++ [draft]) (advanceMatcherToken m vocab draft) masked.1
    (draft :: later.1, later.2)

/-- The logits of the verify pass, one row for each token fed. -/
def allLogits (verifyTokens : List Token) : List (List F) :=
  (List.range verifyTokens.length).map fun i => forward.target (verifyTokens.take (i + 1))

/-- Accept drafts as long as they are the masked picks, then take one more pick: the tokens, the drafts
among them, and the mask buffer. -/
def acceptMasked (rows : List (List F)) : ℕ → List Token → Matcher → List Bool → List Token × ℕ × List Bool
  | i, [], m, mask =>
    let masked := applyGrammarMask m vocab mask (rows.getD i [])
    ([pick masked.2], 0, masked.1)
  | i, draft :: drafts, m, mask =>
    let masked := applyGrammarMask m vocab mask (rows.getD i [])
    let main := pick masked.2
    if draft = main then
      let later := acceptMasked rows (i + 1) drafts (advanceMatcherToken m vocab draft) masked.1
      (draft :: later.1, later.2.1 + 1, later.2.2)
    else ([main], 0, masked.1)

/-- Verify drafts and commit what is accepted: the step's result, the caller's grammar and token count. -/
def verifyAccept (drafts : List Token) (g : SpecGrammar) (lastToken : Token) (nTokens : ℕ) :
    SpecStepResult × SpecGrammar × ℕ :=
  let rows := allLogits forward (lastToken :: drafts)
  let accepted := acceptMasked g.decodedVocab rows 0 drafts g.matcher g.mask
  let matcher := accepted.1.foldl (fun m token => advanceMatcherToken m g.decodedVocab token) g.matcher
  (⟨accepted.1, accepted.2.1, drafts.length⟩, ⟨matcher, g.decodedVocab, accepted.2.2⟩, nTokens + accepted.1.length)

/-- The grammar branch; `k` may be 0. -/
def speculativeDecodeImpl (g : SpecGrammar) (lastToken : Token) (nTokens k : ℕ) :
    Except String (SpecStepResult × SpecGrammar × ℕ) :=
  if !forward.mtpLoaded then
    .error "speculative_decode_step: MTP layer not loaded — quantize with deepseek4-q8-mtp + addon, or set HIPFIRE_DEEPSEEK4_LOAD_MTP=1"
  else if !forward.hiddenAvailable then
    .error "speculative_decode_step: no hidden state available — run decode_step(last_token, last_position) first or pass last_hidden explicitly"
  else
    let drafted := draftTokens forward g.decodedVocab k [lastToken] g.matcher g.mask
    let maxBatch := forward.maxBatch.getD (k + 1)
    if maxBatch < k + 1 then
      .error ("spec_decode: cached PBS max_batch (" ++ toString maxBatch ++ ") < k+1 (" ++ toString (k + 1) ++ ")")
    else .ok (verifyAccept forward drafted.1 { g with mask := drafted.2 } lastToken nTokens)

/-- The logits that the matcher leaves; `beyond` is what the mask buffer says of entries beyond the vocabulary. -/
def maskedLogits (beyond : List Bool) (m : Matcher) (logits : List F) : List F :=
  if m.isFree ∨ vocab = [] then logits else applyMaskToLogits (vocab.map m.isTokenAllowed ++ beyond) logits

/-- Constrained greedy decoding, one token at a time. -/
def constrainedGreedy (beyond : List Bool) : ℕ → List Token → Matcher → List Token × Matcher
  | 0, _, m => ([], m)
  | n + 1, fed, m =>
    let token := pick (maskedLogits vocab beyond m (forward.target fed))
    let later := constrainedGreedy beyond n (fed ++ [token]) (advanceMatcherToken m vocab token)
    (token :: later.1, later.2)

end Decode

section Buffer
variable {F : Type} [LinearOrder F] [OrderBot F] {vocab : List (List Char)} {beyond mask : List Bool} {m : Matcher}

/-- The buffer says nothing that matters but what stands beyond the vocabulary. -/
def Beyond (vocab : List (List Char)) (beyond mask : List Bool) : Prop := mask.drop vocab.length = beyond

private theorem Beyond.grow (h : Beyond vocab beyond mask) :
    Beyond vocab beyond
      (if mask.length < vocab.length then mask ++ List.replicate (vocab.length - mask.length) true else mask) := by
  split
  · rename_i hshort
    have hgrown : (mask ++ List.replicate (vocab.length - mask.length) true).length ≤ vocab.length := by
      rw [List.length_append, List.length_replicate]
      omega
    rw [Beyond, List.drop_eq_nil_of_le hgrown, ← h, List.drop_eq_nil_of_le hshort.le]
  · exact h

private theorem applyGrammarMask_busy (h : Beyond vocab beyond mask) (hbusy : ¬(m.isFree ∨ vocab = []))
    (logits : List F) :
    applyGrammarMask m vocab mask logits =
      (vocab.map m.isTokenAllowed ++ beyond, applyMaskToLogits (vocab.map m.isTokenAllowed ++ beyond) logits) := by
  have hfree : ¬m.isFree := fun hfree => hbusy (.inl hfree)
  rw [applyGrammarMask, if_neg hbusy]
  simp only [tokenMask]
  rw [if_neg hfree, h.grow]

theorem applyGrammarMask_logits (h : Beyond vocab beyond mask) (logits : List F) :
    (applyGrammarMask m vocab mask logits).2 = maskedLogits vocab beyond m logits := by
  by_cases hbusy : m.isFree ∨ vocab = []
  · rw [applyGrammarMask, maskedLogits, if_pos hbusy, if_pos hbusy]
  · rw [applyGrammarMask_busy h hbusy, maskedLogits, if_neg hbusy]

theorem applyGrammarMask_beyond (h : Beyond vocab beyond mask) (logits : List F) :
    Beyond vocab beyond (applyGrammarMask m vocab mask logits).1 := by
  by_cases hbusy : m.isFree ∨ vocab = []
  · rwa [applyGrammarMask, if_pos hbusy]
  · rw [applyGrammarMask_busy h hbusy]
    have hvocab : vocab.length = (vocab.map m.isTokenAllowed).length := by rw [List.length_map]
    rw [Beyond, hvocab, List.drop_left]

theorem draftTokens_length (forward : Forward F) (steps : ℕ) :
    ∀ fed m mask, (draftTokens forward vocab steps fed m mask).1.length = steps := by
  induction steps with
  | zero => intro _ _ _; rfl
  | succ steps ih =>
    intro fed m mask
    rw [draftTokens]
    exact congrArg (· + 1) (ih _ _ _)

theorem draftTokens_beyond (forward : Forward F) (steps : ℕ) :
    ∀ fed m mask, Beyond vocab beyond mask → Beyond vocab beyond (draftTokens forward vocab steps fed m mask).2 := by
  induction steps with
  | zero => intro _ _ _ h; exact h
  | succ steps ih =>
    intro fed m mask h
    rw [draftTokens]
    exact ih _ _ _ (applyGrammarMask_beyond h _)

end Buffer

section Accept
variable {F : Type} [LinearOrder F] [OrderBot F] {forward : Forward F} {vocab : List (List Char)} {beyond : List Bool}

theorem constrainedGreedy_matcher (n : ℕ) :
    ∀ fed m, (constrainedGreedy forward vocab beyond n fed m).2 =
      (constrainedGreedy forward vocab beyond n fed m).1.foldl (fun m token => advanceMatcherToken m vocab token) m := by
  induction n with
  | zero => intro _ _; rfl
  | succ n ih =>
    intro fed m
    rw [constrainedGreedy]
    exact ih _ _

omit [LinearOrder F] [OrderBot F] in
theorem allLogits_getD (tokens : List Token) {i : ℕ} (hi : i < tokens.length) :
    (allLogits forward tokens).getD i [] = forward.target (tokens.take (i + 1)) := by
  have hrow : i < (allLogits forward tokens).length := by
    rw [allLogits, List.length_map, List.length_range]
    exact hi
  rw [List.getD_eq_getElem?_getD, List.getElem?_eq_getElem hrow, Option.getD_some]
  simp only [allLogits, List.getElem_map, List.getElem_range]

/-- What accepting hands back: the loop's first tokens, one more than the drafts among them. -/
structure Accepts (forward : Forward F) (vocab : List (List Char)) (beyond : List Bool) (drafts fed : List Token)
    (m : Matcher) (out : List Token × ℕ × List Bool) : Prop where
  tokens : (constrainedGreedy forward vocab beyond out.1.length fed m).1 = out.1
  accepted : out.2.1 + 1 = out.1.length
  within : out.1.length ≤ drafts.length + 1
  buffer : Beyond vocab beyond out.2.2

private theorem Accepts.pick (m : Matcher) (mask : List Bool) (h : Beyond vocab beyond mask) (drafts fed : List Token) :
    Accepts forward vocab beyond drafts fed m
      ([Constrained.pick (applyGrammarMask m vocab mask (forward.target fed)).2], 0,
        (applyGrammarMask m vocab mask (forward.target fed)).1) where
  tokens := by
    rw [applyGrammarMask_logits h]
    rfl
  accepted := rfl
  within := by simp
  buffer := applyGrammarMask_beyond h _

private theorem Accepts.cons {m : Matcher} {drafts fed : List Token} {draft : Token} {out : List Token × ℕ × List Bool}
    (hdraft : draft = Constrained.pick (maskedLogits vocab beyond m (forward.target fed)))
    (h : Accepts forward vocab beyond drafts (fed ++ [draft]) (advanceMatcherToken m vocab draft) out) :
    Accepts forward vocab beyond (draft :: drafts) fed m (draft :: out.1, out.2.1 + 1, out.2.2) where
  tokens := by
    change (constrainedGreedy forward vocab beyond (out.1.length + 1) fed m).1 = _
    rw [constrainedGreedy, ← hdraft]
    exact congrArg (draft :: ·) h.tokens
  accepted := congrArg (· + 1) h.accepted
  within := Nat.succ_le_succ h.within
  buffer := h.buffer

/-- By induction on the drafts left: the rows still to come are the target's after the tokens fed. -/
theorem acceptMasked_accepts (rows : List (List F)) (drafts : List Token) :
    ∀ i fed m mask, Beyond vocab beyond mask →
      (∀ j ≤ drafts.length, rows.getD (i + j) [] = forward.target (fed ++ drafts.take j)) →
      Accepts forward vocab beyond drafts fed m (acceptMasked vocab rows i drafts m mask) := by
  induction drafts with
  | nil =>
    intro i fed m mask hbeyond hrows
    have hrow : rows.getD i [] = forward.target fed := by simpa using hrows 0 le_rfl
    rw [acceptMasked, hrow]
    exact Accepts.pick m mask hbeyond [] fed
  | cons draft drafts ih =>
    intro i fed m mask hbeyond hrows
    have hrow : rows.getD i [] = forward.target fed := by simpa using hrows 0 (Nat.zero_le _)
    rw [acceptMasked, hrow]
    by_cases hmain : draft = pick (applyGrammarMask m vocab mask (forward.target fed)).2
    · simp only [if_pos hmain]
      apply Accepts.cons
      · rwa [applyGrammarMask_logits hbeyond] at hmain
      · apply ih
        · exact applyGrammarMask_beyond hbeyond _
        · intro j hj
          have hnext := hrows (j + 1) (Nat.succ_le_succ hj)
          rw [List.take_succ_cons] at hnext
          rw [Nat.add_right_comm, Nat.add_assoc, hnext, List.append_assoc, List.singleton_append]
    · simp only [if_neg hmain]
      exact Accepts.pick m mask hbeyond (draft :: drafts) fed

theorem verifyAccept_accepts (drafts : List Token) (g : SpecGrammar) (lastToken : Token)
    (h : Beyond g.decodedVocab beyond g.mask) :
    Accepts forward g.decodedVocab beyond drafts [lastToken] g.matcher
      (acceptMasked g.decodedVocab (allLogits forward (lastToken :: drafts)) 0 drafts g.matcher g.mask) := by
  apply acceptMasked_accepts _ _ _ _ _ _ h
  intro j hj
  rw [Nat.zero_add, allLogits_getD _ (Nat.lt_succ_of_le hj), List.take_succ_cons, List.singleton_append]

end Accept

section Step
variable {F : Type} [LinearOrder F] [OrderBot F]

/-- A step after `lastToken` that proposes `k` drafts commits what the loop emits. -/
structure Commits (forward : Forward F) (g : SpecGrammar) (lastToken : Token) (nTokens k : ℕ)
    (out : SpecStepResult × SpecGrammar × ℕ) : Prop where
  greedy : constrainedGreedy forward g.decodedVocab (g.mask.drop g.decodedVocab.length) out.1.acceptedTokens.length
    [lastToken] g.matcher = (out.1.acceptedTokens, out.2.1.matcher)
  atLeast : 1 ≤ out.1.acceptedTokens.length
  atMost : out.1.acceptedTokens.length ≤ k + 1
  accepted : out.1.nAccepted + 1 = out.1.acceptedTokens.length
  proposed : out.1.nProposed = k
  counted : out.2.2 = nTokens + out.1.acceptedTokens.length

theorem verifyAccept_commits (forward : Forward F) (drafts : List Token) (g : SpecGrammar) (lastToken : Token)
    (nTokens : ℕ) {mask : List Bool} (h : Beyond g.decodedVocab (g.mask.drop g.decodedVocab.length) mask) :
    Commits forward g lastToken nTokens drafts.length
      (verifyAccept forward drafts { g with mask := mask } lastToken nTokens) := by
  have haccepts : Accepts forward _ _ _ _ _ _ := verifyAccept_accepts drafts { g with mask := mask } lastToken h
  constructor
  · apply Prod.ext
    · exact haccepts.tokens
    · rw [constrainedGreedy_matcher]
      exact congrArg _ haccepts.tokens
  · have hlength := haccepts.accepted
    change 1 ≤ (acceptMasked _ _ _ _ _ _).1.length
    omega
  · exact haccepts.within
  · exact haccepts.accepted
  · rfl
  · rfl

/-- Whatever is drafted, a step commits the first tokens of constrained greedy decoding. -/
theorem speculative_eq_greedy (forward : Forward F) (g : SpecGrammar) (lastToken : Token) (nTokens : ℕ) :
    (∀ drafts, Commits forward g lastToken nTokens drafts.length (verifyAccept forward drafts g lastToken nTokens)) ∧
      ∀ k, forward.mtpLoaded = true → forward.hiddenAvailable = true → k + 1 ≤ forward.maxBatch.getD (k + 1) →
        ∃ out, speculativeDecodeImpl forward g lastToken nTokens k = .ok out ∧
          Commits forward g lastToken nTokens k out := by
  constructor
  · intro drafts
    exact verifyAccept_commits forward drafts g lastToken nTokens rfl
  · intro k hloaded hhidden hbatch
    have hlength : (draftTokens forward g.decodedVocab k _ _ _).1.length = k :=
      draftTokens_length forward k [lastToken] g.matcher g.mask
    have hcommits := verifyAccept_commits forward (draftTokens forward g.decodedVocab k [lastToken] g.matcher g.mask).1 g
      lastToken nTokens (draftTokens_beyond forward k [lastToken] g.matcher g.mask rfl)
    rw [hlength] at hcommits
    refine ⟨_, ?_, hcommits⟩
    rw [speculativeDecodeImpl, hloaded, hhidden]
    exact if_neg (Nat.not_lt.mpr hbatch)

/-- A head and a model that would both rather write free text than a tag. -/
def chatty : Forward ℕ := ⟨true, true, some 2, fun _ => [5, 3], fun _ => [5, 3]⟩

def insideToolCalls : SpecGrammar := ⟨⟨.inToolCalls, [], []⟩, [['n', 'o'], ['<']], [true, true]⟩

theorem speculative_eq_greedy_chatty :
    ∃ out, speculativeDecodeImpl chatty insideToolCalls 0 4 1 = .ok out ∧ Commits chatty insideToolCalls 0 4 1 out :=
  (speculative_eq_greedy chatty insideToolCalls 0 4).2 1 rfl rfl (by decide)

example : (draftTokens chatty insideToolCalls.decodedVocab 1 [0] insideToolCalls.matcher insideToolCalls.mask).1 = [1] := by
  decide

end Step
end Hipscope.Spec.Constrained
