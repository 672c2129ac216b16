import Hipscope.Serve.Batches
import Hipscope.Serve.Ownership

/-! Whether every request in flight has a token left to feed. -/
namespace Hipscope.Serve
open Machine

namespace Engine
variable {Cell Rec : Type} {cfg : EngineConfig Cell Rec} {e e' : Engine Cell Rec}

/-- If a request occupies the slot, it has pending tokens. -/
def HasWork (e : Engine Cell Rec) (slot : ℕ) : Prop :=
  ∀ f, e.slots slot = some f → (e.work slot).remainingPrompt ≠ []

/-- A request opens with a prompt, and a step that fails after its forward leaves
every request tokens to come back to. -/
def Sustained (cfg : EngineConfig Cell Rec) (e : Engine Cell Rec) : Action Cell Rec → Prop
  | .request _ req => req.promptTokens ≠ []
  | .step io => io.forward.isSome ∨ (io.synchronize.isNone && io.sample && io.copyBack) = true ∨
      ∀ slot f, e.slots slot = some f → chunkSize cfg < (e.work slot).remainingPrompt.length

section Admission

theorem beginTurn_pending {id : ℕ} {prompt : List Token} {convo : List ℕ} {plan : TurnPlan}
    (h : e.beginTurn id prompt convo = .ok (e', plan)) (hprompt : prompt ≠ []) :
    prompt.drop plan.reused ≠ [] := by
  obtain ⟨s, slot, -, -, rfl, -⟩ := beginTurn_ok h
  have hlen := List.length_pos_of_ne_nil hprompt
  have hreused : (planTurn s.tokens (e.pool.seqLen slot) prompt).reused ≤ prompt.length - 1 :=
    Nat.min_le_right _ _
  rw [ne_eq, List.drop_eq_nil_iff]
  omega

/-- Only the start of a turn touches requests and pending tokens. -/
private theorem hasWork_move {phase next : Phase} {emitted : List Output}
    (hm : Move cfg phase e emitted next e')
    (hprompt : ∀ id turn, .accepted id turn ∈ emitted → turn.prompt ≠ [])
    (h : ∀ slot, e.HasWork slot) (slot : ℕ) : e'.HasWork slot := by
  cases hm with
  | evict | restore | chill | touch | acquire | release | reset | spoil | reject => exact h slot
  | beginTurn hs hidle hrest hbegin =>
    obtain ⟨_, _, -, -, -, rfl⟩ := beginTurn_ok hbegin
    exact h slot
  | turn hs hslot hidle hrest hbegin hturn =>
    have hpending := beginTurn_pending hbegin (hturn.1 ▸ hprompt _ _ (List.mem_singleton.mpr rfl))
    obtain ⟨_, _, -, -, -, rfl⟩ := beginTurn_ok hbegin
    intro f hf
    simp only [Engine.launch, Function.update_apply] at hf ⊢
    split
    · exact hpending
    · rename_i hne
      rw [if_neg hne] at hf
      exact h slot f hf
  | opened hopen =>
    obtain ⟨_, _, _, -, -, rfl, rfl⟩ := openSession_ok hopen
    exact h slot
  | refuse hopen =>
    rcases openSession_error hopen with ⟨rfl, -⟩ | ⟨adm, -, -, rfl⟩
    · exact h slot
    · exact h slot
  | close hphase hs hslot =>
    rw [close_eq hs hslot]
    exact h slot

private theorem continueTurn_prompt {io : AdmitIo Cell Rec} {req : SubmitRequest} {outputs : List Output}
    (h : continueTurn cfg io e req = (e', some outputs)) {id : ℕ} {turn : Turn}
    (hmem : .accepted id turn ∈ outputs) : turn.prompt ≠ [] := by
  unfold continueTurn at h
  split at h
  · cases h
  rename_i hrest
  split at h
  · cases h
  dsimp only at h
  split at h
  · cases h
  split at h
  · cases h
  split at h
  · cases h
    simp only [List.mem_singleton, Output.accepted.injEq] at hmem
    rw [hmem.2]
    exact List.append_ne_nil_of_right_ne_nil _ hrest
  · cases h
    cases hmem

/-- An accepted turn has a prompt if its request does. -/
private theorem admitRequest_prompt {io : AdmitIo Cell Rec} {req : SubmitRequest} (hreq : req.promptTokens ≠ [])
    {id : ℕ} {turn : Turn} (hmem : .accepted id turn ∈ (admitRequest cfg io e req).2) : turn.prompt ≠ [] := by
  unfold admitRequest at hmem
  split at hmem
  · rename_i e1 outputs hcont
    exact continueTurn_prompt hcont hmem
  · split at hmem
    · simp at hmem
    · unfold freshTurn at hmem
      split at hmem
      · simp at hmem
      split at hmem
      · simp at hmem
      dsimp only at hmem
      split at hmem
      · simp at hmem
      split at hmem
      · simp only [List.mem_singleton, Output.accepted.injEq] at hmem
        rw [hmem.2]
        exact hreq
      · cases hmem

private theorem hasWork_admission (ho : Owned cfg none e) (h : ∀ slot, e.HasWork slot)
    (io : AdmitIo Cell Rec) {req : SubmitRequest} (hreq : req.promptTokens ≠ []) (slot : ℕ) :
    (admitRequest cfg io e req).1.HasWork slot := by
  have hmoves := (admitRequest_moves ho io req).invariant
    (P := fun _ out e => (∀ id turn, .accepted id turn ∈ out → turn.prompt ≠ []) →
      ∀ slot, e.HasWork slot)
    (fun _ out _ emitted _ _ hp hm hprompt => by
      refine hasWork_move hm (fun id turn hmem => ?_) (hp fun id turn hmem => ?_)
      · exact hprompt id turn (List.mem_append_right _ hmem)
      · exact hprompt id turn (List.mem_append_left _ hmem)) [] fun _ => h
  exact hmoves (fun id turn hmem => admitRequest_prompt hreq hmem) slot

end Admission

section Sampling

/-- Sampling ends a request or queues its next token. -/
private theorem hasWork_sampleSlot (cfg : EngineConfig Cell Rec) (io : StepIo Cell Rec) (slot : ℕ) :
    (sampleSlot cfg io e slot).1.HasWork slot := by
  rcases sampleSlot_cases cfg io e slot with ⟨heq, hwork⟩ | ⟨f, e', emitted, hf, -, heq, hsampled⟩
  · rw [heq]
    exact hwork
  · rw [heq]
    cases hsampled with
    | gone | eos | maxTokens =>
      intro g hg
      exact absurd rfl (clearSlot_eq_some hg).1
    | queued =>
      intro g hg
      simp [queueToken]

private theorem hasWork_sampleSlot_other (cfg : EngineConfig Cell Rec) (io : StepIo Cell Rec)
    {slot sl : ℕ} (hsl : sl ≠ slot) (h : e.HasWork sl) : (sampleSlot cfg io e slot).1.HasWork sl := by
  intro f hf
  rw [sampleSlot_slots cfg io e hsl] at hf
  rcases sampleSlot_cases cfg io e slot with ⟨heq, -⟩ | ⟨g, e', emitted, -, -, heq, hsampled⟩
  · rw [heq]
    exact h f hf
  · rw [heq]
    have hsame : e'.work sl = e.work sl := by
      cases hsampled <;> exact Function.update_of_ne hsl _ _
    rw [hsame]
    exact h f hf

private theorem hasWork_sweep (cfg : EngineConfig Cell Rec) (io : StepIo Cell Rec) (slots : List ℕ)
    (e : Engine Cell Rec) {slot : ℕ} (h : slot ∈ slots ∨ e.HasWork slot) :
    (forSlots (sampleSlot cfg io) e slots).1.HasWork slot := by
  induction slots generalizing e with
  | nil => exact h.resolve_left List.not_mem_nil
  | cons next rest ih =>
    refine ih _ ?_
    by_cases hslot : slot = next
    · exact .inr (hslot ▸ hasWork_sampleSlot cfg io slot)
    · refine h.imp (fun hmem => ?_) (hasWork_sampleSlot_other cfg io hslot)
      exact (List.mem_cons.mp hmem).resolve_left hslot

/-- A sustained step leaves every request with work. -/
private theorem hasWork_step (ho : Owned cfg none e) (h : ∀ slot, e.HasWork slot)
    {io : StepIo Cell Rec} {emitted : List Output} (hguard : Sustained cfg e (.step io))
    (hstep : step cfg io e = some (e', emitted)) (ho' : Owned cfg none e') (slot : ℕ) :
    e'.HasWork slot := by
  intro f hf
  have hlt : slot < cfg.nSlots := (ho'.leased.held _ _ (ho'.flying slot f hf)).1
  rcases step_cases hstep with ⟨hrows, rfl, -⟩ | ⟨-, e1, hforward, hslots⟩ | ⟨-, e1, hforward, hrest⟩
  · rw [scheduled_eq hrows] at hf ⊢
    exact h slot f hf
  · have hnone := (ho.forward hforward).aborted slot
    rw [← hslots] at hnone
    cases hnone.symm.trans hf
  · obtain ⟨-, ⟨-, -, hkept⟩, hwork, -⟩ := forward_frame hforward
    rcases hrest with ⟨rfl, -, hfailed⟩ | ⟨-, hslots⟩
    · rw [synchronize, hkept] at hf
      simp only [Sustained, forward_ok_io hforward, hfailed] at hguard
      have hlong : chunkSize cfg < (e.work slot).remainingPrompt.length := by
        rcases hguard with hg | hg | hg
        · cases hg
        · cases hg
        · exact hg slot f hf
      have htaken := (e.work slot).taken_le_chunk (chunkSize_pos cfg)
      simp only [synchronize, hwork, scheduled, if_pos hlt, PendingWork.advance, ne_eq, List.drop_eq_nil_iff]
      omega
    · have hswept := hasWork_sweep cfg io (List.range cfg.nSlots) e1 (.inl (List.mem_range.mpr hlt))
      rw [← hslots] at hswept
      exact hswept f hf

end Sampling

theorem Reaches.hasWork {memory : DeviceMemory Cell Rec} {actions : List (Action Cell Rec)}
    {outputs : List Output} (h : Reaches cfg (Sustained cfg) memory actions outputs e) (slot : ℕ) :
    e.HasWork slot := by
  have hall := Runs.state_invariant (P := fun e => Owned cfg none e ∧ ∀ slot, e.HasWork slot)
    ⟨start_owned memory, fun slot f hf => by cases hf⟩ (fun e action e' emitted hp hguard hact => ?_) h
  · exact hall.2 slot
  · refine ⟨hp.1.act hact, fun slot => ?_⟩
    have ho' := hp.1.act hact
    cases action with
    | request io req =>
      have hadmit := hasWork_admission hp.1 hp.2 io hguard slot
      rwa [Option.some.inj hact] at hadmit
    | step io =>
      simp only [act] at hact
      split at hact
      · exact hasWork_step hp.1 hp.2 hguard hact ho' slot
      · cases hact

/-- A slot with pending tokens is counted in the batch. -/
theorem mPerSlot_pos (ho : Owned cfg none e) {slot : ℕ} {f : InFlight} (hf : e.slots slot = some f)
    (hwork : e.HasWork slot) :
    ∃ m, (nextBatch cfg.nSlots (chunkSize cfg) e.work).mPerSlot[slot]? = some m ∧ 0 < m := by
  have hlt := (ho.leased.held _ _ (ho.flying slot f hf)).1
  refine ⟨(e.work slot).taken (chunkSize cfg), ?_, ?_⟩
  · simp [nextBatch, hlt]
  · exact PendingWork.taken_pos (chunkSize_pos cfg) (hwork f hf)

/-- A step tells clients of requests that were in flight when it began. -/
theorem step_about {io : StepIo Cell Rec} {emitted : List Output}
    (h : step cfg io e = some (e', emitted)) {output : Output} (hmem : output ∈ emitted) {id : ℕ}
    (habout : output.About id) : ∃ slot f, e.slots slot = some f ∧ f.session = id := by
  rcases step_cases h with ⟨-, -, rfl⟩ | ⟨-, e1, -, hslots⟩ | ⟨-, e1, hforward, hrest⟩
  · cases hmem
  · have haborted := forSlots_abort_outputs (List.range cfg.nSlots) e1
    rw [← hslots] at haborted
    rw [haborted _ hmem] at habout
    cases habout
  · obtain ⟨-, ⟨-, -, hkept⟩, -⟩ := forward_frame hforward
    rcases hrest with ⟨-, rfl, -⟩ | ⟨-, hslots⟩
    · cases hmem
    · have hswept := forSlots_invariant (f := sampleSlot cfg io) (P := fun out later =>
          (∀ output ∈ out, ∀ id, output.About id → ∃ slot f, e.slots slot = some f ∧ f.session = id) ∧
          ∀ slot g, later.slots slot = some g → ∃ f, e.slots slot = some f ∧ f.session = g.session)
        (fun out later slot hp => ?_) (List.range cfg.nSlots) []
        ⟨by simp, fun slot g hg => ⟨g, hkept ▸ hg, rfl⟩⟩
      · rw [← hslots] at hswept
        exact hswept.1 output hmem id habout
      · obtain ⟨hsaid, hleft⟩ := sampleSlot_about cfg io later slot
        refine ⟨fun output hmem id habout => ?_, fun sl g hg => ?_⟩
        · rcases List.mem_append.mp hmem with hold | hnew
          · exact hp.1 output hold id habout
          · obtain ⟨f, hf, rfl⟩ := hsaid output hnew id habout
            exact ⟨slot, hp.2 slot f hf⟩
        · by_cases hsl : sl = slot
          · subst hsl
            obtain ⟨f, hf, hsession⟩ := hleft g hg
            rw [← hsession]
            exact hp.2 sl f hf
          · rw [sampleSlot_slots cfg io later hsl] at hg
            exact hp.2 sl g hg

/-- In runs without empty prompts, and without failures that strike between a
forward and its sampling once a request is out of tokens, every request in
flight has pending tokens: batches are never empty, and clients hear only of
slots that contributed to the step. -/
theorem sustained_has_work (cfg : EngineConfig Cell Rec) (memory : DeviceMemory Cell Rec)
    (actions : List (Action Cell Rec)) (outputs : List Output) (e : Engine Cell Rec)
    (h : Reaches cfg (Sustained cfg) memory actions outputs e) :
    (∀ slot f, e.slots slot = some f → (e.work slot).remainingPrompt ≠ []) ∧
    (e.occupied cfg = true → (nextBatch cfg.nSlots (chunkSize cfg) e.work).rows ≠ []) ∧
    ∀ io e' emitted, act cfg e (.step io) = some (e', emitted) →
      ∀ output ∈ emitted, ∀ id, output.About id → ∃ slot f m, e.slots slot = some f ∧
        f.session = id ∧ (nextBatch cfg.nSlots (chunkSize cfg) e.work).mPerSlot[slot]? = some m ∧
        0 < m := by
  have ho := h.owned
  refine ⟨h.hasWork, fun hoccupied => ?_, fun io e' emitted hact output hmem id habout => ?_⟩
  · obtain ⟨slot, hmem, hsome⟩ := List.any_eq_true.mp hoccupied
    obtain ⟨f, hf⟩ := Option.isSome_iff_exists.mp hsome
    have htaken := PendingWork.taken_pos (chunkSize_pos cfg) (h.hasWork slot f hf)
    have hrows := batchRows_filter cfg e slot
    rw [if_pos (List.mem_range.mp hmem)] at hrows
    intro hempty
    rw [batchRows, hempty] at hrows
    have hlen := (e.work slot).rows_length (chunkSize cfg) slot
    rw [← hrows] at hlen
    exact htaken.ne hlen
  · simp only [act] at hact
    split at hact
    · obtain ⟨slot, f, hf, hsession⟩ := step_about hact hmem habout
      obtain ⟨m, hm, hpos⟩ := mPerSlot_pos ho hf (h.hasWork slot)
      exact ⟨slot, f, m, hf, hsession, hm, hpos⟩
    · cases hact

section Example

/-- A request with a prompt, halfway through its answer. -/
theorem answering_has_work : ∃ outputs e, Reaches oneSlot (Sustained oneSlot) blank
      [.request fineAdmit (ask [1, 2] 2), .step (fineStep 3)] outputs e ∧
    e.occupied oneSlot = true ∧ (nextBatch 1 8 e.work).rows ≠ [] := by
  have hrun : ∃ outputs e, Reaches oneSlot (Sustained oneSlot) blank
      [.request fineAdmit (ask [1, 2] 2), .step (fineStep 3)] outputs e ∧ e.occupied oneSlot = true :=
    ⟨_, _, (Runs.nil.snoc (by simp [Sustained, ask]) rfl).snoc
      (by simp [Sustained, fineStep]) rfl, rfl⟩
  obtain ⟨outputs, e, h, hoccupied⟩ := hrun
  exact ⟨outputs, e, h, hoccupied, (sustained_has_work oneSlot blank _ outputs e h).2.1 hoccupied⟩

/-- An empty prompt, or a lost synchronisation after the last pending token, leaves
a request in flight that no batch will serve. -/
theorem stranded_requests :
    (∃ outputs e, Reaches oneSlot (fun _ _ => True) blank [.request fineAdmit (ask [] 1)] outputs e ∧
      e.slots 0 = some ⟨0, 0, 1⟩ ∧ (nextBatch 1 8 e.work).rows = []) ∧
    ∃ outputs e, Reaches oneSlot (fun _ _ => True) blank
        [.request fineAdmit (ask [1, 2] 2), .step { fineStep 3 with synchronize := some blank }] outputs e ∧
      e.slots 0 = some ⟨0, 0, 2⟩ ∧ (nextBatch 1 8 e.work).rows = [] :=
  ⟨⟨_, _, Runs.nil.snoc trivial rfl, rfl, rfl⟩,
    ⟨_, _, (Runs.nil.snoc trivial rfl).snoc trivial rfl, rfl, rfl⟩⟩

end Example
end Engine
end Hipscope.Serve
