import Hipscope.Serve.Ownership

/-! What a client has been sent of a turn, against the tokens its session keeps. -/
namespace Hipscope.Serve
open Machine

section Recording
variable {id : ℕ} {outputs emitted : List Output}

/-- The prompt of a session's current turn and the tokens sent since it began. -/
def Output.record (id : ℕ) (sent : Option (List Token × List Token)) :
    Output → Option (List Token × List Token)
  | .accepted session turn => if session = id then some (turn.prompt, []) else sent
  | .token session next => if session = id then sent.map fun (p, o) => (p, o ++ [next]) else sent
  | .rejected _ | .done _ _ => sent

def transcript (id : ℕ) (outputs : List Output) : Option (List Token × List Token) :=
  outputs.foldl (Output.record id) none

theorem transcript_append :
    transcript id (outputs ++ emitted) = emitted.foldl (Output.record id) (transcript id outputs) :=
  List.foldl_append

/-- Events about other sessions leave a transcript alone. -/
theorem transcript_other (h : ∀ output ∈ emitted, ¬output.About id) :
    transcript id (outputs ++ emitted) = transcript id outputs := by
  rw [transcript_append]
  generalize transcript id outputs = sent
  induction emitted generalizing sent with
  | nil => rfl
  | cons output emitted ih =>
    have hhead : Output.record id sent output = sent := by
      have habout := h output List.mem_cons_self
      cases output with
      | accepted session turn => exact if_neg habout
      | token session token => exact if_neg habout
      | rejected | done => rfl
    rw [List.foldl_cons, hhead]
    exact ih (fun output hmem => h output (List.mem_cons_of_mem _ hmem)) sent

end Recording

namespace Engine
variable {Cell Rec : Type} {cfg : EngineConfig Cell Rec} {e : Engine Cell Rec}
  {outputs emitted : List Output}

/-- A request in flight has its session's tokens sent, after the prompt. -/
def Transcribed (outputs : List Output) (e : Engine Cell Rec) : Prop :=
  ∀ slot f s, e.slots slot = some f → e.sessions.sessions f.session = some s →
    ∃ prompt sent, transcript f.session outputs = some (prompt, sent) ∧ s.tokens = prompt ++ sent

/-- Requests whose session keeps its tokens, with no event of their own. -/
private theorem Transcribed.frame (h : Transcribed outputs e) {e' : Engine Cell Rec}
    (hkept : ∀ slot f s', e'.slots slot = some f → e'.sessions.sessions f.session = some s' →
      e.slots slot = some f ∧ (∃ s, e.sessions.sessions f.session = some s ∧ s'.tokens = s.tokens) ∧
        ∀ output ∈ emitted, ¬output.About f.session) : Transcribed (outputs ++ emitted) e' := by
  intro slot f s' hf hs'
  obtain ⟨hf', ⟨s, hs, htokens⟩, hothers⟩ := hkept slot f s' hf hs'
  obtain ⟨prompt, sent, htranscript, hsent⟩ := h slot f s hf' hs
  exact ⟨prompt, sent, (transcript_other hothers).trans htranscript, htokens.trans hsent⟩

private theorem tokens_modify {t : SessionTable} {id : ℕ} {f : Session → Session}
    {x : ℕ} {s' : Session} (h : (t.modify id f).sessions x = some s')
    (hf : ∀ s, (f s).tokens = s.tokens) : ∃ s, t.sessions x = some s ∧ s'.tokens = s.tokens := by
  obtain ⟨s, hs, rfl⟩ := SessionTable.modify_eq_some h
  refine ⟨s, hs, ?_⟩
  split
  · exact hf s
  · rfl

private theorem Transcribed.keep (h : Transcribed outputs e) {e' : Engine Cell Rec}
    (hslots : e'.slots = e.slots) (hsessions : ∀ x s', e'.sessions.sessions x = some s' →
      ∃ s, e.sessions.sessions x = some s ∧ s'.tokens = s.tokens) : Transcribed (outputs ++ []) e' :=
  h.frame fun slot f s' hf hs' => ⟨hslots ▸ hf, hsessions _ s' hs', by simp⟩

private theorem Transcribed.close (h : Transcribed outputs e) {id slot : ℕ} {s : Session}
    (hs : e.sessions.sessions id = some s) (hslot : s.slot = some slot) :
    Transcribed (outputs ++ []) (e.close id) := by
  rw [close_eq hs hslot]
  refine h.frame fun sl f s' hf hs' => ⟨hf, ⟨s', ?_, rfl⟩, by simp⟩
  simp only [Function.update_apply] at hs'
  split at hs'
  · cases hs'
  · exact hs'

/-- Every part of an admission keeps the transcripts of requests in flight. -/
private theorem Transcribed.move {phase next : Phase} {e' : Engine Cell Rec}
    (ho : Owned cfg phase.slot e) (h : Transcribed outputs e)
    (hm : Move cfg phase e emitted next e') : Transcribed (outputs ++ emitted) e' := by
  cases hm with
  | evict hs hslot hidle hf => exact h.keep rfl fun _ _ hs' => tokens_modify hs' fun s => (hf s).2.1
  | restore => exact h.keep rfl fun _ _ hs' => tokens_modify hs' fun _ => rfl
  | chill => exact h.keep rfl fun _ _ hs' => tokens_modify hs' fun _ => rfl
  | touch => exact h.keep rfl fun _ _ hs' => tokens_modify hs' fun _ => rfl
  | acquire | release | reset | spoil => exact h.keep rfl fun _ s hs => ⟨s, hs, rfl⟩
  | @beginTurn _ _ id s rest convo plan hs hidle hrest hbegin =>
    obtain ⟨_, _, -, -, -, rfl⟩ := beginTurn_ok hbegin
    refine h.frame fun sl f s' hf hs' => ⟨hf, ⟨s', ?_, rfl⟩, by simp⟩
    rwa [SessionTable.modify_other _ (hidle sl f hf)] at hs'
  | @turn _ e1 id slot maxTokens s rest convo plan turn hs hslot hidle hrest hbegin hturn =>
    obtain ⟨_, _, -, -, -, rfl⟩ := beginTurn_ok hbegin
    intro sl f s' hf hs'
    simp only [Engine.launch, Function.update_apply] at hf
    split at hf
    · cases hf
      rw [Engine.launch, SessionTable.modify_self hs] at hs'
      cases hs'
      refine ⟨turn.prompt, [], ?_, ?_⟩
      · rw [transcript_append, List.foldl_cons, List.foldl_nil, Output.record, if_pos rfl]
      · rw [List.append_nil, hturn.1]
    · rw [Engine.launch, SessionTable.modify_other _ (hidle sl f hf)] at hs'
      obtain ⟨prompt, sent, htranscript, hsent⟩ := h sl f s' hf hs'
      refine ⟨prompt, sent, (transcript_other ?_).trans htranscript, hsent⟩
      simpa [Output.About] using (hidle sl f hf).symm
  | opened hopen =>
    obtain ⟨slot, pool, adm, -, -, rfl, rfl⟩ := openSession_ok hopen
    refine h.frame fun sl f s' hf hs' => ⟨hf, ⟨s', ?_, rfl⟩, by simp⟩
    obtain ⟨s, hs, -⟩ := ho.session hf
    have hissued := ho.issued _ s hs
    dsimp only at hs'
    rwa [Function.update_of_ne hissued.ne] at hs'
  | refuse hopen =>
    rcases openSession_error hopen with ⟨rfl, -⟩ | ⟨adm, -, -, rfl⟩
    · exact h.keep rfl fun _ s hs => ⟨s, hs, rfl⟩
    · exact h.keep rfl fun _ s hs => ⟨s, hs, rfl⟩
  | close hphase hs hslot => exact h.close hs hslot
  | reject => exact h.frame fun sl f s' hf hs' => ⟨hf, ⟨s', hs', rfl⟩, by simp [Output.About]⟩

/-- Sampling a slot says and does nothing about other sessions. -/
private theorem sampleSlot_other (cfg : EngineConfig Cell Rec) (io : StepIo Cell Rec)
    (e : Engine Cell Rec) (slot id : ℕ) (hid : ∀ f, e.slots slot = some f → f.session ≠ id) :
    (sampleSlot cfg io e slot).1.sessions.sessions id = e.sessions.sessions id ∧
      (∀ output ∈ (sampleSlot cfg io e slot).2, ¬output.About id) ∧
      ∀ f, (sampleSlot cfg io e slot).1.slots slot = some f → f.session ≠ id := by
  rcases sampleSlot_cases cfg io e slot with ⟨heq, -⟩ | ⟨f, e', emitted, hf, -, heq, hsampled⟩
  · rw [heq]
    exact ⟨rfl, by simp, hid⟩
  · rw [heq]
    have hne := hid f hf
    cases hsampled with
    | gone =>
      refine ⟨close_other hne.symm, by simpa [Output.About] using hne, fun g hg => ?_⟩
      exact absurd rfl (clearSlot_eq_some hg).1
    | eos | maxTokens =>
      refine ⟨SessionTable.modify_other _ hne.symm, by simpa [Output.About] using hne, fun g hg => ?_⟩
      exact absurd rfl (clearSlot_eq_some hg).1
    | queued =>
      refine ⟨?_, by simpa [Output.About] using hne, fun g hg => ?_⟩
      · exact (SessionTable.modify_other _ hne.symm).trans (SessionTable.modify_other _ hne.symm)
      · simp only [queueToken, Function.update_self, Option.some.injEq] at hg
        rw [← hg]
        exact hne

/-- What sampling does to the request of the slot itself. -/
private theorem Transcribed.sampleSlot (ho : Owned cfg none e) (h : Transcribed outputs e)
    (io : StepIo Cell Rec) (slot : ℕ) : Transcribed (outputs ++ (sampleSlot cfg io e slot).2)
      (sampleSlot cfg io e slot).1 := by
  intro sl g s' hg hs'
  by_cases hsl : sl = slot
  · subst hsl
    rcases sampleSlot_cases cfg io e sl with ⟨heq, -⟩ | ⟨f, e', emitted, hf, -, heq, hsampled⟩
    · rw [heq] at hg hs' ⊢
      rw [List.append_nil]
      exact h sl g s' hg hs'
    · rw [heq] at hg hs' ⊢
      cases hsampled with
      | gone | eos | maxTokens => exact absurd rfl (clearSlot_eq_some hg).1
      | queued =>
        obtain ⟨s, hs, -⟩ := ho.session hf
        obtain ⟨prompt, sent, htranscript, hsent⟩ := h sl f s hf hs
        simp only [queueToken, Function.update_self, Option.some.injEq] at hg
        subst hg
        have hqueued := SessionTable.modify_self (SessionTable.modify_self hs fun s =>
          { s with tokens := s.tokens ++ [io.ids sl] }) fun s =>
          { s with lastUsed := e.sessions.clock + 1 }
        obtain rfl := Option.some.inj (hqueued.symm.trans hs')
        refine ⟨prompt, sent ++ [io.ids sl], ?_, ?_⟩
        · rw [transcript_append, List.foldl_cons, List.foldl_nil, htranscript]
          simp [Output.record]
        · rw [← List.append_assoc, ← hsent]
  · have hg' : e.slots sl = some g := (sampleSlot_slots cfg io e hsl).symm.trans hg
    obtain ⟨hsessions, hother, -⟩ := sampleSlot_other cfg io e slot g.session
      fun f hf => (ho.flying_ne hf hg' hsl).symm
    rw [hsessions] at hs'
    rw [transcript_other hother]
    exact h sl g s' hg' hs'

theorem Transcribed.act (ho : Owned cfg none e) (h : Transcribed outputs e)
    {action : Action Cell Rec} {e' : Engine Cell Rec}
    (hact : act cfg e action = some (e', emitted)) : Transcribed (outputs ++ emitted) e' := by
  cases action with
  | request io req =>
    have hmoves := (admitRequest_moves ho io req).invariant
      (P := fun phase out e => Owned cfg phase.slot e ∧ Transcribed out e)
      (fun _ _ _ _ _ _ hp hm => ⟨hp.1.move hm, hp.2.move hp.1 hm⟩) outputs ⟨ho, h⟩
    rw [Option.some.inj hact] at hmoves
    exact hmoves.2
  | step io =>
    simp only [Engine.act] at hact
    split at hact
    · rcases step_cases hact with ⟨-, rfl, rfl⟩ | ⟨-, e1, hforward, hslots⟩ | ⟨-, e1, hforward, hrest⟩
      · exact h.keep rfl fun _ s hs => ⟨s, hs, rfl⟩
      · intro slot f s hf
        have hnone := (ho.forward hforward).aborted slot
        rw [← hslots] at hnone
        cases hnone.symm.trans hf
      · obtain ⟨-, ⟨hsessions, -, hkept⟩, -⟩ := forward_frame hforward
        have h1 : Transcribed (outputs ++ []) e1 :=
          h.keep hkept fun x s hs => ⟨s, by rwa [hsessions] at hs, rfl⟩
        rcases hrest with ⟨rfl, rfl, -⟩ | ⟨-, hslots⟩
        · exact h1
        · have hswept := forSlots_invariant
            (P := fun out e => Owned cfg none e ∧ Transcribed out e)
            (fun _ _ slot h => ⟨h.1.sampleSlot io slot, h.2.sampleSlot h.1 io slot⟩)
            (List.range cfg.nSlots) outputs ⟨ho.forward hforward, by rwa [List.append_nil] at h1⟩
          rw [← hslots] at hswept
          exact hswept.2
    · cases hact

theorem Reaches.transcribed {guard : Engine Cell Rec → Action Cell Rec → Prop}
    {memory : DeviceMemory Cell Rec} {actions : List (Action Cell Rec)}
    (h : Reaches cfg guard memory actions outputs e) : Transcribed outputs e := by
  have hall := Runs.invariant (P := fun outputs e => Owned cfg none e ∧ Transcribed outputs e)
    ⟨start_owned memory, fun slot f s hf => by cases hf⟩
    (fun _ _ _ _ _ hp _ hact => ⟨hp.1.act hact, hp.2.act hp.1 hact⟩) h
  exact hall.2

/-- A session's tokens are the prompt of its turn and all that was sent since. -/
def Recorded (outputs : List Output) (e : Engine Cell Rec) (id : ℕ) : Prop :=
  ∃ s prompt sent, e.sessions.get id = some s ∧ transcript id outputs = some (prompt, sent) ∧
    s.tokens = prompt ++ sent

/-- A turn within a step: still in flight, or ended with what its last token decides. -/
private def Ending (cfg : EngineConfig Cell Rec) (io : StepIo Cell Rec) (outputs : List Output)
    (slot id : ℕ) (out : List Output) (e : Engine Cell Rec) : Prop :=
  (∃ f, e.slots slot = some f ∧ f.session = id) ∧ (∀ reason, .done id reason ∉ out) ∨
  e.Idle id ∧ ∀ reason, .done id reason ∈ out → reason ≠ .clientGone →
    (Recorded (outputs ++ out) e id ↔ cfg.model.isTerminator (io.ids slot) = true)

/-- Sampling another slot. -/
private theorem Ending.other {io : StepIo Cell Rec} {slot sl id : ℕ} {out : List Output}
    (h : Ending cfg io outputs slot id out e) (hid : ∀ f, e.slots sl = some f → f.session ≠ id) :
    Ending cfg io outputs slot id (out ++ (Engine.sampleSlot cfg io e sl).2)
      (Engine.sampleSlot cfg io e sl).1 := by
  obtain ⟨hsessions, hothers, hself⟩ := sampleSlot_other cfg io e sl id hid
  have hdone (reason : DoneReason) :
      .done id reason ∈ out ++ (Engine.sampleSlot cfg io e sl).2 → .done id reason ∈ out := by
    intro hmem
    exact (List.mem_append.mp hmem).resolve_right fun hnew => hothers _ hnew rfl
  rcases h with ⟨⟨f, hf, hsession⟩, hnone⟩ | ⟨hidle, hended⟩
  · refine .inl ⟨⟨f, ?_, hsession⟩, fun reason hmem => hnone reason (hdone reason hmem)⟩
    have hsl : slot ≠ sl := by
      rintro rfl
      exact hid f hf hsession
    rw [sampleSlot_slots cfg io e hsl]
    exact hf
  · refine .inr ⟨fun s f hf => ?_, fun reason hmem hgone => ?_⟩
    · by_cases hs : s = sl
      · subst hs
        exact hself f hf
      · rw [sampleSlot_slots cfg io e hs] at hf
        exact hidle s f hf
    · rw [← hended reason (hdone reason hmem) hgone, ← List.append_assoc, Recorded, Recorded,
        transcript_other hothers]
      simp only [SessionTable.get, hsessions]

/-- Sampling the slot of the turn itself. -/
private theorem Ending.self {io : StepIo Cell Rec} {slot : ℕ} {f : InFlight} {out : List Output}
    (ho : Owned cfg none e) (h : Transcribed (outputs ++ out) e) (hf : e.slots slot = some f)
    (hnone : ∀ reason, .done f.session reason ∉ out) :
    Ending cfg io outputs slot f.session (out ++ (Engine.sampleSlot cfg io e slot).2)
      (Engine.sampleSlot cfg io e slot).1 := by
  obtain ⟨s, hs, hslot⟩ := ho.session hf
  obtain ⟨prompt, sent, htranscript, hsent⟩ := h slot f s hf hs
  have htouched : (e.sessions.touch f.session).sessions f.session =
      some { s with lastUsed := e.sessions.clock + 1 } := SessionTable.modify_self hs _
  rcases sampleSlot_cases cfg io e slot with ⟨heq, -⟩ | ⟨g, e', emitted, hg, -, heq, hsampled⟩
  · rw [heq, List.append_nil]
    exact .inl ⟨⟨f, hf, rfl⟩, hnone⟩
  · rw [heq]
    obtain rfl := Option.some.inj (hf.symm.trans hg)
    cases hsampled with
    | gone =>
      refine .inr ⟨ho.clearSlot_idle hf, fun reason hmem hgone => ?_⟩
      rcases List.mem_append.mp hmem with hold | hnew
      · exact absurd hold (hnone reason)
      · simp at hnew
        exact absurd hnew hgone
    | eos hterm =>
      refine .inr ⟨ho.clearSlot_idle hf, fun _ _ _ => iff_of_true ?_ hterm⟩
      refine ⟨_, prompt, sent, htouched, ?_, hsent⟩
      rw [← List.append_assoc, transcript_append, htranscript]
      rfl
    | maxTokens hterm hmax =>
      refine .inr ⟨ho.clearSlot_idle hf, fun _ _ _ => iff_of_false ?_ (by simp [hterm])⟩
      rintro ⟨s', prompt', sent', hs', htranscript', hsent'⟩
      obtain rfl := Option.some.inj (htouched.symm.trans hs')
      rw [← List.append_assoc, transcript_append, htranscript] at htranscript'
      simp only [List.foldl_cons, List.foldl_nil, Output.record, if_true, Option.map_some,
        Option.some.injEq, Prod.mk.injEq] at htranscript'
      obtain ⟨rfl, rfl⟩ := htranscript'
      rw [hsent, List.append_right_inj] at hsent'
      simp at hsent'
    | queued =>
      refine .inl ⟨⟨_, Function.update_self _ _ _, rfl⟩, fun reason hmem => ?_⟩
      rcases List.mem_append.mp hmem with hold | hnew
      · exact hnone reason hold
      · simp at hnew

private theorem Ending.sampleSlot {io : StepIo Cell Rec} {slot id : ℕ} {out : List Output}
    (ho : Owned cfg none e) (ht : Transcribed (outputs ++ out) e)
    (h : Ending cfg io outputs slot id out e) (sl : ℕ) :
    Ending cfg io outputs slot id (out ++ (Engine.sampleSlot cfg io e sl).2)
      (Engine.sampleSlot cfg io e sl).1 := by
  rcases h with ⟨⟨f, hf, rfl⟩, hnone⟩ | ⟨hidle, hended⟩
  · by_cases hsl : sl = slot
    · subst hsl
      exact Ending.self ho ht hf hnone
    · exact Ending.other (.inl ⟨⟨f, hf, rfl⟩, hnone⟩) fun g hg => ho.flying_ne hf hg hsl
  · exact Ending.other (.inr ⟨hidle, hended⟩) (hidle sl)

/-- When a turn ends by itself, its session has kept all that was sent exactly
when the token sampled last is a terminator: one that only exhausts the limit is
sent and not kept. -/
theorem recorded_iff_terminator (cfg : EngineConfig Cell Rec) (memory : DeviceMemory Cell Rec)
    (actions : List (Action Cell Rec)) (outputs : List Output) (e : Engine Cell Rec)
    (h : Reaches cfg (fun _ _ => True) memory actions outputs e) (io : StepIo Cell Rec)
    (e' : Engine Cell Rec) (emitted : List Output)
    (hstep : act cfg e (.step io) = some (e', emitted)) (slot : ℕ) (f : InFlight)
    (hf : e.slots slot = some f) (reason : DoneReason) (hreason : reason = .eos ∨ reason = .maxTokens)
    (hdone : .done f.session reason ∈ emitted) :
    Recorded (outputs ++ emitted) e' f.session ↔ cfg.model.isTerminator (io.ids slot) = true := by
  have ho := h.owned
  have hgone : reason ≠ .clientGone := by
    rcases hreason with rfl | rfl <;> simp
  simp only [act] at hstep
  split at hstep
  · rcases step_cases hstep with ⟨-, rfl, rfl⟩ | ⟨-, e1, hforward, hslots⟩ | ⟨-, e1, hforward, hrest⟩
    · cases hdone
    · have haborted := forSlots_abort_outputs (List.range cfg.nSlots) e1
      rw [← hslots] at haborted
      cases haborted _ hdone
    · obtain ⟨-, ⟨hsessions, -, hkept⟩, -⟩ := forward_frame hforward
      rcases hrest with ⟨rfl, rfl, -⟩ | ⟨-, hslots⟩
      · cases hdone
      · have h1 : Transcribed (outputs ++ []) e1 :=
          h.transcribed.keep hkept fun x s hs => ⟨s, by rwa [hsessions] at hs, rfl⟩
        have hswept := forSlots_invariant (P := fun out e => Owned cfg none e ∧
            Transcribed (outputs ++ out) e ∧ Ending cfg io outputs slot f.session out e)
          (fun out e sl h => ⟨h.1.sampleSlot io sl, by
            rw [← List.append_assoc]
            exact h.2.1.sampleSlot h.1 io sl, h.2.2.sampleSlot h.1 h.2.1 sl⟩)
          (List.range cfg.nSlots) [] ⟨ho.forward hforward, h1, .inl ⟨⟨f, by rwa [hkept], rfl⟩, by simp⟩⟩
        rw [← hslots] at hswept
        rcases hswept.2.2 with ⟨-, hnone⟩ | ⟨-, hended⟩
        · exact absurd hdone (hnone reason)
        · exact hended reason hdone hgone
  · cases hstep

section Example

/-- A turn that a terminator ends keeps the token sent before it. -/
theorem terminated_recorded : ∃ outputs e e' emitted, Reaches oneSlot (fun _ _ => True) blank
      [.request fineAdmit (ask [1, 2] 2), .step (fineStep 3)] outputs e ∧
    act oneSlot e (.step (fineStep 0)) = some (e', emitted) ∧ emitted = [.done 0 .eos] ∧
    Recorded (outputs ++ emitted) e' 0 := by
  have hrun : ∃ outputs e e', Reaches oneSlot (fun _ _ => True) blank
      [.request fineAdmit (ask [1, 2] 2), .step (fineStep 3)] outputs e ∧
      act oneSlot e (.step (fineStep 0)) = some (e', [.done 0 .eos]) ∧
      e.slots 0 = some ⟨0, 1, 2⟩ :=
    ⟨_, _, _, (Runs.nil.snoc trivial rfl).snoc trivial rfl, rfl, rfl⟩
  obtain ⟨outputs, e, e', h, hstep, hf⟩ := hrun
  refine ⟨outputs, e, e', _, h, hstep, rfl, ?_⟩
  exact (recorded_iff_terminator oneSlot blank _ outputs e h (fineStep 0) e' _ hstep 0 _ hf .eos
    (.inl rfl) (List.mem_singleton.mpr rfl)).mpr rfl

/-- A turn cut short by its limit loses the last token it sent. -/
theorem exhausted_not_recorded : ∃ outputs e e' emitted, Reaches oneSlot (fun _ _ => True) blank
      [.request fineAdmit (ask [1, 2] 1)] outputs e ∧
    act oneSlot e (.step (fineStep 3)) = some (e', emitted) ∧
    emitted = [.token 0 3, .done 0 .maxTokens] ∧ ¬Recorded (outputs ++ emitted) e' 0 := by
  have hrun : ∃ outputs e e' s, Reaches oneSlot (fun _ _ => True) blank
      [.request fineAdmit (ask [1, 2] 1)] outputs e ∧
      act oneSlot e (.step (fineStep 3)) = some (e', [.token 0 3, .done 0 .maxTokens]) ∧
      e'.sessions.get 0 = some s ∧ s.tokens = [1, 2] ∧
      transcript 0 (outputs ++ [.token 0 3, .done 0 .maxTokens]) = some ([1, 2], [3]) :=
    ⟨_, _, _, _, Runs.nil.snoc trivial rfl, rfl, rfl, rfl, rfl⟩
  obtain ⟨outputs, e, e', s, h, hstep, hs, htokens, hsent⟩ := hrun
  refine ⟨outputs, e, e', _, h, hstep, rfl, ?_⟩
  rintro ⟨s', prompt, sent, hs', hsent', hall⟩
  obtain rfl := Option.some.inj (hs.symm.trans hs')
  obtain ⟨rfl, rfl⟩ := Prod.mk.inj (Option.some.inj (hsent.symm.trans hsent'))
  rw [htokens] at hall
  simp at hall

end Example
end Engine
end Hipscope.Serve
