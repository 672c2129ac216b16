import Hipscope.Decode.Continuation
import Hipscope.Machine.Runs
import Hipscope.Spec.Chain

/-! Greedy speculation emits the target's own continuation, whatever is drafted. -/
namespace Hipscope.Spec
open Decode Machine
variable {δ κ τ : Type} {target : SpecTarget τ κ} {choice : List Token → Token} {Holds : τ → List Token → Prop}

/-- The target contract. `Holds state history` says that the state is that of having processed
exactly the history; `choice` is the greedy next token. -/
structure SpecTarget.Obeys (target : SpecTarget τ κ) (choice : List Token → Token)
    (Holds : τ → List Token → Prop) : Prop where
  picks : ∀ {state history scratch block picks state' scratch'}, Holds state history →
    target.verifyBlock state scratch block history.length = .ok (picks, state', scratch') →
    ∀ i, i < block.length → picks[i]? = some (choice (history ++ block.take (i + 1)))
  commits : ∀ {state history scratch block picks state' scratch' acceptLen state'' scratch''}, Holds state history →
    target.verifyBlock state scratch block history.length = .ok (picks, state', scratch') →
    acceptLen < block.length →
    target.commitPrefix state' scratch' block acceptLen history.length = .ok (state'', scratch'') →
    Holds state'' (history ++ block.take (acceptLen + 1))

/-- No call of the target fails. -/
structure SpecTarget.Total (target : SpecTarget τ κ) : Prop where
  verifies : ∀ state scratch block position, ∃ result, target.verifyBlock state scratch block position = .ok result
  commits : ∀ state scratch block acceptLen position,
    ∃ result, target.commitPrefix state scratch block acceptLen position = .ok result

section Accept
variable {context draft picks : List Token}

/-- The picks are the choices after every part of the draft. -/
def Picks (choice : List Token → Token) (context draft picks : List Token) : Prop :=
  ∀ i, i ≤ draft.length → picks[i]? = some (choice (context ++ draft.take i))

private theorem acceptDrafts_spec (hpicks : Picks choice context draft picks) {rest : List Token} {i : ℕ}
    (hrest : draft.drop i = rest) (hfollows : Follows choice context (draft.take i)) (hi : i ≤ draft.length) :
    ∃ k, k ≤ draft.length ∧ Follows choice context (draft.take k) ∧
      acceptDrafts picks none i rest ⟨draft.take i, i, false⟩ = some ⟨draft.take k, k, false⟩ := by
  induction rest generalizing i with
  | nil => exact ⟨i, hi, hfollows, rfl⟩
  | cons d rest ih =>
    have hlt : i < draft.length := by
      by_contra hge
      rw [List.drop_eq_nil_of_le (Nat.not_lt.mp hge)] at hrest
      cases hrest
    rw [List.drop_eq_getElem_cons hlt] at hrest
    obtain ⟨hd, hrest⟩ := List.cons.inj hrest
    simp only [acceptDrafts, hpicks i hi, Option.bind_eq_bind, Option.bind_some]
    split_ifs with hmatch heos
    · cases heos
    · have hnext : draft.take i ++ [d] = draft.take (i + 1) := by
        rw [← hd, List.take_append_getElem hlt]
      rw [hnext]
      apply ih hrest _ hlt
      rw [← hnext, follows_snoc]
      exact ⟨hfollows, hmatch⟩
    · exact ⟨i, hi, hfollows, rfl⟩

/-- The accepted drafts and the bonus are what the target chooses. -/
private theorem acceptGreedyPrefix_spec (hpicks : Picks choice context draft picks) :
    ∃ k bonus, k ≤ draft.length ∧ Follows choice context (draft.take k ++ [bonus]) ∧
      acceptGreedyPrefix draft picks none = some ⟨draft.take k ++ [bonus], k, false⟩ := by
  obtain ⟨k, hk, hfollows, haccept⟩ := acceptDrafts_spec hpicks (i := 0) List.drop_zero trivial (Nat.zero_le _)
  refine ⟨k, choice (context ++ draft.take k), hk, follows_snoc.mpr ⟨hfollows, rfl⟩, ?_⟩
  rw [List.take_zero] at haccept
  simp [acceptGreedyPrefix, haccept, hpicks k hk]

/-- Clamped or not, the committed tokens are accepted drafts and one more. -/
private theorem clamp_spec {k maxEmit : ℕ} (bonus : Token) (hk : k ≤ draft.length) (hpos : 0 < maxEmit) :
    ∃ m, (GreedyAccept.clamp ⟨draft.take k ++ [bonus], k, false⟩ maxEmit).accepted = m ∧ m ≤ k ∧ m + 1 ≤ maxEmit ∧
      (GreedyAccept.clamp ⟨draft.take k ++ [bonus], k, false⟩ maxEmit).committed =
        (draft.take k ++ [bonus]).take (m + 1) := by
  have hlen : (draft.take k ++ [bonus]).length = k + 1 := by
    rw [List.length_append, List.length_take, List.length_singleton, Nat.min_eq_left hk]
  unfold GreedyAccept.clamp
  dsimp only
  rw [hlen]
  split_ifs with hlong
  · refine ⟨maxEmit - 1, ?_, by omega, by omega, ?_⟩
    · dsimp only
      omega
    · dsimp only
      rw [Nat.max_eq_left hpos, Nat.sub_add_cancel hpos]
  · refine ⟨k, rfl, Nat.le_refl k, by omega, ?_⟩
    rw [← hlen, List.take_length]

end Accept

section Windows
variable {drafts : BlockDrafter δ} {self self' : ChainSpeculator δ κ} {state state' : τ} {history emitted : List Token}
  {seed : Token} {maxEmit : ℕ} {out : SpecStep}

/-- What one window gives: part of the continuation, within the budget, its last token pending. -/
structure Window (choice : List Token → Token) (Holds : τ → List Token → Prop) (history : List Token)
    (seed : Token) (maxEmit : ℕ) (out : SpecStep) (state' : τ) : Prop where
  nonempty : 1 ≤ out.emit.length
  within : out.emit.length ≤ maxEmit
  last : out.emit.getLast? = some out.nextSeed
  follows : Follows choice (history ++ [seed]) out.emit
  holds : Holds state' (history ++ (seed :: out.emit).dropLast)

/-- What a window is about to emit and to commit once the block is verified. -/
private theorem accepted_window {draft picks : List Token} (hpicks : Picks choice (history ++ [seed]) draft picks)
    (hpos : 0 < maxEmit) :
    ∃ acc bonus, acceptGreedyPrefix draft picks none = some acc ∧
      (acc.clamp maxEmit).committed.getLast? = some bonus ∧
      (acc.clamp maxEmit).accepted ≤ draft.length ∧
      1 ≤ (acc.clamp maxEmit).committed.length ∧ (acc.clamp maxEmit).committed.length ≤ maxEmit ∧
      Follows choice (history ++ [seed]) (acc.clamp maxEmit).committed ∧
      (seed :: (acc.clamp maxEmit).committed).dropLast = (seed :: draft).take ((acc.clamp maxEmit).accepted + 1) := by
  obtain ⟨k, bonus, hk, hfollows, haccept⟩ := acceptGreedyPrefix_spec hpicks
  obtain ⟨m, hm, hmk, hmax, hcommitted⟩ := clamp_spec bonus hk hpos
  have hlen : ((draft.take k ++ [bonus]).take (m + 1)).length = m + 1 := by
    rw [List.length_take, List.length_append, List.length_take, List.length_singleton]
    omega
  have hne : (draft.take k ++ [bonus]).take (m + 1) ≠ [] := by
    intro hnil
    rw [hnil] at hlen
    cases hlen
  refine ⟨_, ((draft.take k ++ [bonus]).take (m + 1)).getLast hne, haccept, ?_⟩
  rw [hm, hcommitted, hlen]
  refine ⟨List.getLast?_eq_getLast_of_ne_nil hne, by omega, by omega, hmax, hfollows.take (m + 1), ?_⟩
  have hinit : ((draft.take k ++ [bonus]).take (m + 1)).dropLast = draft.take m := by
    rw [List.dropLast_eq_take, hlen, Nat.add_sub_cancel, List.take_take, Nat.min_eq_left (Nat.le_succ m),
      List.take_append_of_le_length, List.take_take, Nat.min_eq_left hmk]
    rw [List.length_take]
    omega
  rw [List.dropLast_cons_of_ne_nil hne, hinit, List.take_succ_cons]

private theorem capEmit_of_le (h : out.emit.length ≤ maxEmit) (hpos : 0 < maxEmit) : out.capEmit maxEmit = out := by
  rw [SpecStep.capEmit, if_neg (Nat.pos_iff_ne_zero.mp hpos), if_pos h]

/-- The picks of a verified block are the choices after the drafts. -/
private theorem SpecTarget.Obeys.picks_of (h : target.Obeys choice Holds) (hholds : Holds state history)
    {scratch scratch' : κ}
    {draft picks : List Token}
    (hverify : target.verifyBlock state scratch (seed :: draft) history.length = .ok (picks, state', scratch')) :
    Picks choice (history ++ [seed]) draft picks := by
  intro i hi
  rw [h.picks hholds hverify i (Nat.lt_succ_of_le hi), List.take_succ_cons, List.append_assoc, List.singleton_append]

/-- A verified block is emitted and committed as one; only the commit can still fail. -/
private theorem step_of_verified (hobeys : target.Obeys choice Holds) (hholds : Holds state history)
    (hgreedy : self.sampled = false) (hpos : 0 < maxEmit) {scratch scratch' : κ} {picks : List Token}
    (hscratch : self.scratch = some scratch) {draft : List Token} {drafter : δ}
    (hpropose : drafts.propose self.drafter emitted seed (min (maxEmit - 1) (self.blockSize - 1)) = (draft, drafter))
    (hverify : target.verifyBlock state scratch (seed :: draft) history.length = .ok (picks, state', scratch')) :
    ∃ (acceptLen : ℕ) (out : SpecStep) (speculator : ChainSpeculator δ κ),
      acceptLen < (seed :: draft).length ∧ speculator.sampled = false ∧
      1 ≤ out.emit.length ∧ out.emit.length ≤ maxEmit ∧ out.emit.getLast? = some out.nextSeed ∧
      Follows choice (history ++ [seed]) out.emit ∧
      (seed :: out.emit).dropLast = (seed :: draft).take (acceptLen + 1) ∧
      self.step target drafts state history.length seed emitted maxEmit =
        (orError (target.commitPrefix state' scratch' (seed :: draft) acceptLen history.length)).map fun result =>
          (out, { speculator with scratch := some result.2 }, result.1) := by
  obtain ⟨acc, bonus, haccept, hlast, hle, hnonempty, hwithin, hfollows, hinit⟩ :=
    accepted_window (hobeys.picks_of hholds hverify) hpos
  refine ⟨(acc.clamp maxEmit).accepted, ⟨(acc.clamp maxEmit).committed, bonus, draft.length, (acc.clamp maxEmit).accepted⟩,
    ⟨drafts.observe drafter emitted (acc.clamp maxEmit).committed, self.blockSize, none, self.sampled, self.rngState⟩,
    Nat.lt_succ_of_le hle, hgreedy, hnonempty, hwithin, hlast, hfollows, hinit, ?_⟩
  have hverified : self.verify target state scratch (seed :: draft) history.length =
      .ok (picks, self.rngState, state', scratch') := by
    rw [ChainSpeculator.verify, hgreedy, hverify]
    rfl
  have hcap : SpecStep.capEmit ⟨(acc.clamp maxEmit).committed, bonus, draft.length, (acc.clamp maxEmit).accepted⟩ maxEmit =
      ⟨(acc.clamp maxEmit).committed, bonus, draft.length, (acc.clamp maxEmit).accepted⟩ := capEmit_of_le hwithin hpos
  simp only [ChainSpeculator.step, Nat.pos_iff_ne_zero.mp hpos, if_false, hpropose, hscratch, hverified, haccept,
    orPanic, bind, Except.bind, hlast, hcap]
  cases orError (target.commitPrefix state' scratch' (seed :: draft) (acc.clamp maxEmit).accepted history.length) with
  | error failure => rfl
  | ok result => rfl

/-- One greedy window of the speculator. -/
theorem step_window (hobeys : target.Obeys choice Holds) (hholds : Holds state history)
    (hgreedy : self.sampled = false) (hpos : 0 < maxEmit)
    (hstep : self.step target drafts state history.length seed emitted maxEmit = .ok (out, self', state')) :
    Window choice Holds history seed maxEmit out state' ∧ self'.scratch.isSome ∧ self'.sampled = false := by
  cases hscratch : self.scratch with
  | none =>
    simp only [ChainSpeculator.step, Nat.pos_iff_ne_zero.mp hpos, if_false, hscratch] at hstep
    cases hstep
  | some scratch =>
    cases hpropose : drafts.propose self.drafter emitted seed (min (maxEmit - 1) (self.blockSize - 1)) with
    | mk draft drafter =>
      cases hverify : target.verifyBlock state scratch (seed :: draft) history.length with
      | error message =>
        simp only [ChainSpeculator.step, Nat.pos_iff_ne_zero.mp hpos, if_false, hscratch, hpropose,
          ChainSpeculator.verify, hgreedy, hverify, orError, bind, Except.bind, Bool.false_eq_true] at hstep
        cases hstep
      | ok verified =>
        obtain ⟨picks, verified, scratch'⟩ := verified
        obtain ⟨acceptLen, out', speculator, hlen, hsampled, hnonempty, hwithin, hlast, hfollows, hinit, heq⟩ :=
          step_of_verified hobeys hholds hgreedy hpos hscratch hpropose hverify
        rw [heq] at hstep
        cases hcommit : target.commitPrefix verified scratch' (seed :: draft) acceptLen history.length with
        | error message =>
          rw [hcommit] at hstep
          cases hstep
        | ok committed =>
          rw [hcommit] at hstep
          cases hstep
          refine ⟨⟨hnonempty, hwithin, hlast, hfollows, ?_⟩, rfl, hsampled⟩
          rw [hinit]
          exact hobeys.commits hholds hverify hlen hcommit

/-- A target that never fails is never the end of the run. -/
theorem step_returns (drafts : BlockDrafter δ) (hobeys : target.Obeys choice Holds) (htotal : target.Total)
    (hholds : Holds state history)
    (hgreedy : self.sampled = false) (hscratch : self.scratch.isSome) (hpos : 0 < maxEmit) :
    ∃ result, self.step target drafts state history.length seed emitted maxEmit = .ok result := by
  obtain ⟨scratch, hscratch⟩ := Option.isSome_iff_exists.mp hscratch
  obtain ⟨⟨picks, state', scratch'⟩, hverify⟩ := htotal.verifies state scratch
    (seed :: (drafts.propose self.drafter emitted seed (min (maxEmit - 1) (self.blockSize - 1))).1) history.length
  obtain ⟨acceptLen, out, speculator, -, -, -, -, -, -, -, hstep⟩ :=
    step_of_verified hobeys hholds hgreedy hpos hscratch rfl hverify
  obtain ⟨result, hcommit⟩ := htotal.commits state' scratch'
    (seed :: (drafts.propose self.drafter emitted seed (min (maxEmit - 1) (self.blockSize - 1))).1) acceptLen history.length
  rw [hcommit] at hstep
  exact ⟨_, hstep⟩

end Windows

section Runs
variable {drafts : BlockDrafter δ} {start final : Decoding δ κ τ} {history : List Token} {budgets : List ℕ}
  {outputs : List (ℕ × SpecStep)}

/-- All tokens emitted by a run. -/
def emittedBy (outputs : List (ℕ × SpecStep)) : List Token := outputs.flatMap fun out => out.2.emit

/-- Between windows: the emitted tokens are the continuation, all but the last one are processed. -/
structure InStep (choice : List Token → Token) (Holds : τ → List Token → Prop) (history : List Token) (seed : Token)
    (outputs : List (ℕ × SpecStep)) (d : Decoding δ κ τ) : Prop where
  follows : Follows choice (history ++ [seed]) (emittedBy outputs)
  windows : ∀ out ∈ outputs, 1 ≤ out.2.emit.length ∧ out.2.emit.length ≤ out.1 ∧
    out.2.emit.getLast? = some out.2.nextSeed
  pending : (seed :: emittedBy outputs).getLast? = some d.seed
  holds : Holds d.target (history ++ (seed :: emittedBy outputs).dropLast)
  position : d.position = history.length + (emittedBy outputs).length
  ready : d.speculator.scratch.isSome
  greedy : d.speculator.sampled = false

private theorem emittedBy_snoc (outputs : List (ℕ × SpecStep)) (maxEmit : ℕ) (out : SpecStep) :
    emittedBy (outputs ++ [(maxEmit, out)]) = emittedBy outputs ++ out.emit := by
  rw [emittedBy, List.flatMap_append, List.flatMap_singleton]
  rfl

private theorem InStep.step {seed : Token} (hobeys : target.Obeys choice Holds) {d next : Decoding δ κ τ} {maxEmit : ℕ}
    {emitted : List (ℕ × SpecStep)} (h : InStep choice Holds history seed outputs d) (hpos : 0 < maxEmit)
    (hstep : d.step target drafts maxEmit = some (next, emitted)) :
    InStep choice Holds history seed (outputs ++ emitted) next := by
  obtain ⟨processed, hsplit⟩ := List.getLast?_eq_some_iff.mp h.pending
  have hprocessed : (seed :: emittedBy outputs).dropLast = processed := by rw [hsplit, List.dropLast_concat]
  have hposition : d.position = (history ++ processed).length := by
    have hlen := congrArg List.length hsplit
    rw [List.length_cons, List.length_append, List.length_singleton] at hlen
    rw [h.position, List.length_append]
    omega
  have hholds := h.holds
  rw [hprocessed] at hholds
  rw [Decoding.step, hposition] at hstep
  cases hout : d.speculator.step target drafts d.target (history ++ processed).length d.seed d.emitted maxEmit with
  | error failure =>
    rw [hout] at hstep
    cases hstep
  | ok result =>
    obtain ⟨out, speculator, state⟩ := result
    rw [hout] at hstep
    cases hstep
    obtain ⟨hwindow, hready, hgreedy⟩ := step_window hobeys hholds h.greedy hpos hout
    have hwhole : seed :: (emittedBy outputs ++ out.emit) = processed ++ d.seed :: out.emit := by
      rw [← List.cons_append, hsplit, List.append_assoc, List.singleton_append]
    refine ⟨?_, ?_, ?_, ?_, ?_, hready, hgreedy⟩
    · rw [emittedBy_snoc, follows_append]
      refine ⟨h.follows, ?_⟩
      have hcontext : history ++ processed ++ [d.seed] = history ++ [seed] ++ emittedBy outputs := by
        rw [List.append_assoc, ← hsplit, List.append_assoc, List.singleton_append]
      rw [← hcontext]
      exact hwindow.follows
    · intro window hmem
      rcases List.mem_append.mp hmem with hold | hnew
      · exact h.windows window hold
      · rw [List.mem_singleton.mp hnew]
        exact ⟨hwindow.nonempty, hwindow.within, hwindow.last⟩
    · rw [emittedBy_snoc, ← List.cons_append, List.getLast?_append, hwindow.last, Option.some_or]
    · rw [emittedBy_snoc, hwhole, List.dropLast_append_cons, ← List.append_assoc]
      exact hwindow.holds
    · dsimp only
      rw [emittedBy_snoc, ← hposition, h.position, List.length_append, Nat.add_assoc]

/-- Greedy speculation is lossless: over any run of windows with positive budgets the emitted tokens
are the target's own continuation of the history and the seed, every window emits at least one token and
no more than its budget and ends with the next seed, and the target has processed all but that pending
token. As long as the target does not fail, neither does the next window. -/
theorem chain_run_lossless (hobeys : target.Obeys choice Holds) (hholds : Holds start.target history)
    (hposition : start.position = history.length) (hready : start.speculator.scratch.isSome)
    (hgreedy : start.speculator.sampled = false)
    (hrun : Runs (Decoding.step target drafts) (fun _ maxEmit => 0 < maxEmit) start budgets outputs final) :
    emittedBy outputs = continuation choice (history ++ [start.seed]) (emittedBy outputs).length ∧
    (∀ out ∈ outputs, 1 ≤ out.2.emit.length ∧ out.2.emit.length ≤ out.1 ∧
      out.2.emit.getLast? = some out.2.nextSeed) ∧
    (start.seed :: emittedBy outputs).getLast? = some final.seed ∧
    Holds final.target (history ++ (start.seed :: emittedBy outputs).dropLast) ∧
    final.position = history.length + (emittedBy outputs).length ∧
    (target.Total → ∀ maxEmit, 0 < maxEmit →
      ∃ next out, final.step target drafts maxEmit = some (next, [(maxEmit, out)])) := by
  have hin : InStep choice Holds history start.seed outputs final := by
    refine hrun.invariant (P := InStep choice Holds history start.seed)
      ⟨trivial, by simp, rfl, ?_, hposition, hready, hgreedy⟩ ?_
    · simpa [emittedBy] using hholds
    · intro outputs d maxEmit next emitted h hpos hstep
      exact h.step hobeys hpos hstep
  refine ⟨follows_iff.mp hin.follows, hin.windows, hin.pending, hin.holds, hin.position, ?_⟩
  intro htotal maxEmit hpos
  have hlen : final.position = (history ++ (start.seed :: emittedBy outputs).dropLast).length := by
    rw [hin.position, List.length_append, List.length_dropLast, List.length_cons, Nat.add_sub_cancel]
  obtain ⟨⟨out, speculator, state⟩, hstep⟩ :=
    step_returns drafts hobeys htotal hin.holds hin.greedy hin.ready hpos
  rw [Decoding.step, hlen, hstep]
  exact ⟨_, out, rfl⟩

/-- A target that counts: its state is its history and its next token the number of tokens so far. -/
def countingTarget : SpecTarget (List Token) (List Token) where
  verifyBlock state _ block _ := .ok ((List.range block.length).map fun i =>
    UInt32.ofNat (state ++ block.take (i + 1)).length, state ++ block, state)
  verifyBlockSampled _ _ _ _ _ := .error "verify_block_sampled: this target does not support sampled verify"
  commitPrefix _ scratch block acceptLen _ := .ok (scratch ++ block.take (acceptLen + 1), scratch)

/-- A drafter that always offers the same four tokens, however few are asked for. -/
def eagerDrafter : BlockDrafter Unit := ⟨fun _ _ _ _ => ([3, 4, 5, 6], ()), fun _ _ _ => ()⟩

private theorem counting_obeys :
    countingTarget.Obeys (fun context => UInt32.ofNat context.length) fun state history => state = history where
  picks := by
    rintro state history scratch block picks state' scratch' rfl hverify i hi
    cases hverify
    simp [hi]
  commits := by
    rintro state history scratch block picks state' scratch' acceptLen state'' scratch'' rfl hverify - hcommit
    cases hverify
    cases hcommit
    rfl

/-- Two windows: the first is cut to its budget, the second rejects every draft. -/
theorem counting_run :
    ∃ (outputs : List (ℕ × SpecStep)) (final : Decoding Unit (List Token) (List Token)),
      Runs (Decoding.step countingTarget eagerDrafter) (fun _ maxEmit => 0 < maxEmit)
        ⟨⟨(), 8, some [], false, 0⟩, [7, 7], 2, 9, []⟩ ([] ++ [2] ++ [3]) outputs final ∧
      emittedBy outputs = [3, 4, 5] ∧ final.target = [7, 7] ++ (9 :: emittedBy outputs).dropLast := by
  have hfirst : Runs (Decoding.step countingTarget eagerDrafter) (fun _ maxEmit => 0 < maxEmit)
      ⟨⟨(), 8, some [], false, 0⟩, [7, 7], 2, 9, []⟩ ([] ++ [2]) ([] ++ [(2, ⟨[3, 4], 4, 4, 1⟩)])
      ⟨⟨(), 8, some [7, 7], false, 0⟩, [7, 7, 9, 3], 4, 4, [3, 4]⟩ :=
    Runs.nil.snoc (by decide) rfl
  have hrun : Runs (Decoding.step countingTarget eagerDrafter) (fun _ maxEmit => 0 < maxEmit)
      ⟨⟨(), 8, some [], false, 0⟩, [7, 7], 2, 9, []⟩ ([] ++ [2] ++ [3])
      ([] ++ [(2, ⟨[3, 4], 4, 4, 1⟩)] ++ [(3, ⟨[5], 5, 4, 0⟩)])
      ⟨⟨(), 8, some [7, 7, 9, 3], false, 0⟩, [7, 7, 9, 3, 4], 5, 5, [3, 4, 5]⟩ :=
    hfirst.snoc (by decide) rfl
  exact ⟨_, _, hrun, rfl, (chain_run_lossless counting_obeys rfl rfl rfl rfl hrun).2.2.2.1⟩

end Runs

end Hipscope.Spec
