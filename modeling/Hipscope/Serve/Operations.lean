import Hipscope.Serve.Device

/-! What each operation of the engine can do, once for every result about it. -/
namespace Hipscope.Serve

namespace SessionTable
variable {t : SessionTable} {pool : SlotPool} {id : ℕ}

@[simp] theorem modify_nextId (f : Session → Session) : (t.modify id f).nextId = t.nextId := rfl

theorem modify_sessions (f : Session → Session) (x : ℕ) :
    (t.modify id f).sessions x = if x = id then (t.sessions id).map f else t.sessions x := by
  simp only [modify, Function.update_apply]

theorem modify_self {s : Session} (hs : t.sessions id = some s) (f : Session → Session) :
    (t.modify id f).sessions id = some (f s) := by
  rw [modify_sessions, if_pos rfl, hs, Option.map_some]

theorem modify_other (f : Session → Session) {x : ℕ} (hx : x ≠ id) :
    (t.modify id f).sessions x = t.sessions x := by
  rw [modify_sessions, if_neg hx]

theorem modify_modify (f g : Session → Session) :
    (t.modify id f).modify id g = t.modify id fun s => g (f s) := by
  simp [modify, Function.comp_def]

theorem modify_eq_some {f : Session → Session} {x : ℕ} {s' : Session}
    (h : (t.modify id f).sessions x = some s') :
    ∃ s, t.sessions x = some s ∧ s' = if x = id then f s else s := by
  rw [modify_sessions] at h
  split at h
  · rename_i hx
    obtain ⟨s, hs, rfl⟩ := Option.map_eq_some_iff.mp h
    exact ⟨s, by rw [hx, hs], (if_pos hx).symm⟩
  · rename_i hx
    exact ⟨s', h, (if_neg hx).symm⟩

theorem markResident_sessions {s : Session} (hs : t.sessions id = some s) (slot seqLen : ℕ) :
    (t.markResident id slot seqLen).sessions id = some { s with
      slot := some slot, residency := .resident, nextPos := seqLen, lastUsed := t.clock + 1 } := by
  simp [markResident, modify_sessions, hs]

theorem mem_iter {x : ℕ} {s : Session} (h : (x, s) ∈ t.iter) : t.sessions x = some s := by
  simp only [iter, List.mem_filterMap, Option.map_eq_some_iff, Prod.mk.injEq] at h
  obtain ⟨y, -, s', hs', rfl, rfl⟩ := h
  exact hs'

/-- A matched conversation is live, idle and has tokens. -/
theorem findContinuation_some {want busy : List ℕ} (h : t.findContinuation want busy = some id) :
    ∃ s, t.sessions id = some s ∧ s.residency ≠ .cold ∧ s.tokens ≠ [] ∧ id ∉ busy := by
  unfold findContinuation at h
  split at h
  · cases h
  · obtain ⟨⟨x, s⟩, hmax, rfl⟩ := Option.map_eq_some_iff.mp h
    have hmem := List.argmax_mem hmax
    simp only [List.mem_filter, Bool.and_eq_true, decide_eq_true_eq, Bool.not_eq_true',
      List.contains_eq_mem, decide_eq_false_iff_not] at hmem
    exact ⟨s, mem_iter hmem.1, hmem.2.1.1.1, hmem.2.1.2, hmem.2.2⟩

theorem lruIdleVictim_some {busy : List ℕ} (h : t.lruIdleVictim busy = some id) :
    ∃ s slot, t.sessions id = some s ∧ s.slot = some slot ∧ id ∉ busy := by
  unfold lruIdleVictim at h
  obtain ⟨⟨x, s⟩, hmin, rfl⟩ := Option.map_eq_some_iff.mp h
  have hmem := List.argmin_mem hmin
  simp only [List.mem_filter, Bool.and_eq_true, Bool.not_eq_true', List.contains_eq_mem,
    decide_eq_false_iff_not] at hmem
  obtain ⟨slot, hslot⟩ := Option.isSome_iff_exists.mp hmem.2.1
  exact ⟨s, slot, mem_iter hmem.1, hslot, hmem.2.2⟩

end SessionTable

/-- The session an event tells of. -/
def Output.About (output : Output) (id : ℕ) : Prop :=
  match output with
  | .accepted session _ | .token session _ | .done session _ => session = id
  | .rejected _ => False

namespace Engine
variable {Cell Rec : Type} {cfg : EngineConfig Cell Rec} {e : Engine Cell Rec}

section Vacating
variable {id slot : ℕ} {s : Session}

private theorem markCold_eq (hs : e.sessions.sessions id = some s) (hslot : s.slot = some slot) :
    e.markCold id = { e with
      sessions := e.sessions.modify id fun s => { s with slot := none, residency := .cold, nextPos := 0 }
      pool := e.pool.release slot } := by
  simp [markCold, SessionTable.markCold, SessionTable.releaseSlot, hs, hslot]

private theorem markSwapped_eq (hs : e.sessions.sessions id = some s) (hslot : s.slot = some slot) :
    e.markSwapped id = { e with
      sessions := e.sessions.modify id fun s => { s with slot := none, residency := .swapped }
      pool := e.pool.release slot } := by
  simp [markSwapped, SessionTable.markSwapped, SessionTable.releaseSlot, hs, hslot]

/-- Without a slot, going cold touches the session only. -/
theorem markCold_of_noSlot (hs : e.sessions.sessions id = some s) (hslot : s.slot = none) :
    e.markCold id = { e with
      sessions := e.sessions.modify id fun s =>
        { s with slot := none, residency := .cold, nextPos := 0 } } := by
  simp [markCold, SessionTable.markCold, SessionTable.releaseSlot, hs, hslot]

theorem close_eq (hs : e.sessions.sessions id = some s) (hslot : s.slot = some slot) :
    e.close id = { e with
      sessions := { e.sessions with sessions := Function.update e.sessions.sessions id none }
      pool := e.pool.release slot
      adm := e.adm.release s.grantedCtx } := by
  simp [close, SessionTable.close, hs, hslot]

theorem close_other {x : ℕ} (hx : x ≠ id) :
    (e.close id).sessions.sessions x = e.sessions.sessions x := by
  unfold close SessionTable.close
  cases e.sessions.sessions id with
  | none => rfl
  | some s => exact Function.update_of_ne hx _ _

/-- Evicting a session frees its slot, and either parks what the slot held or
leaves the session cold. -/
theorem evict_spec (cfg : EngineConfig Cell Rec) (io : EvictIo)
    (hs : e.sessions.sessions id = some s) (hslot : s.slot = some slot) :
    ∃ f swap, evict cfg io e id = ({ e with
        sessions := e.sessions.modify id f, pool := e.pool.release slot, swap }, true) ∧
      (∀ x, (f x).slot = none ∧ (f x).tokens = x.tokens ∧ (f x).grantedCtx = x.grantedCtx) ∧
      (∀ x ≠ id, swap.lookup x = e.swap.lookup x) ∧
      ((∀ x, (f x).residency = .cold) ∨ (∀ x, (f x).residency = .swapped) ∧
        swap.lookup id = some (captureSlot e.pool e.memory slot s.tokens)) := by
  simp only [evict, SessionTable.get, hs, hslot]
  split
  · have hother := fun x (hx : x ≠ id) => SwapStore.park_lookup_other cfg.payloadLen
      cfg.encodedLen e.swap io.file (captureSlot e.pool e.memory slot s.tokens) hx
    split
    · rename_i hparked
      refine ⟨_, _, congrArg (·, true) (markSwapped_eq (e := { e with swap := _ }) hs hslot),
        fun x => ⟨rfl, rfl, rfl⟩, hother, .inr ⟨fun x => rfl, ?_⟩⟩
      exact SwapStore.park_lookup (Prod.ext rfl hparked)
    · exact ⟨_, _, congrArg (·, true) (markCold_eq (e := { e with swap := _ }) hs hslot),
        fun x => ⟨rfl, rfl, rfl⟩, hother, .inl fun x => rfl⟩
  · exact ⟨_, e.swap, congrArg (·, true) (markCold_eq hs hslot), fun x => ⟨rfl, rfl, rfl⟩,
      fun x _ => rfl, .inl fun x => rfl⟩

end Vacating

/-- What a restore does, given that its session holds no slot: it ends in the
target slot, or is cold with anything left in the slot. Other slots are out of
reach of a snapshot that fits a slab. -/
theorem restore_spec (cfg : EngineConfig Cell Rec) (io : RestoreIo Cell Rec) (slot : ℕ) {id : ℕ}
    {s : Session} (hs : e.sessions.sessions id = some s) (hslot : s.slot = none) :
    ∃ swap, (∀ x ≠ id, swap.lookup x = e.swap.lookup x) ∧
      ((∃ snap, e.swap.lookup id = some snap ∧ snap.seqLen ≤ e.pool.capTokens ∧
        restore cfg io e id slot = ({ e with
          swap
          pool := { e.pool with seqLen := Function.update e.pool.seqLen slot snap.seqLen }
          memory := e.memory.load e.pool.capTokens slot snap
          sessions := e.sessions.markResident id slot snap.seqLen }, true)) ∨
      (∃ memory, ((∀ snap, e.swap.lookup id = some snap → snap.kv.length ≤ e.pool.capTokens) →
          ∀ x ≠ slot, SlotFrame e.pool.capTokens x e.memory memory) ∧
        restore cfg io e id slot = ({ e with
          swap, memory
          sessions := e.sessions.modify id fun s =>
            { s with slot := none, residency := .cold, nextPos := 0 } }, false))) := by
  refine ⟨(e.swap.unpark cfg.payloadLen io.file id).1, fun x hx =>
    SwapStore.unpark_lookup_other cfg.payloadLen e.swap io.file hx, ?_⟩
  unfold restore
  split
  · rename_i swap hunpark
    refine .inr ⟨e.memory, fun _ x _ => .refl _, ?_⟩
    rw [hunpark]
    exact congrArg (·, false) (markCold_of_noSlot (e := { e with swap }) hs hslot)
  · rename_i swap snap hunpark
    rw [hunpark]
    have hsnap := SwapStore.unpark_lookup hunpark
    unfold restoreSlot
    cases io.copy with
    | some garbage =>
      refine .inr ⟨_, fun hfits x hx => .failed_copy (hfits snap hsnap) hx e.memory garbage, ?_⟩
      exact congrArg (·, false) (markCold_of_noSlot (e := { e with swap, memory := _ }) hs hslot)
    | none =>
      cases hset : e.pool.setSeqLen slot snap.seqLen with
      | none =>
        refine .inr ⟨_, fun hfits x hx => .load_other (hfits snap hsnap) hx e.memory, ?_⟩
        exact congrArg (·, false) (markCold_of_noSlot (e := { e with swap, memory := _ }) hs hslot)
      | some pool =>
        obtain ⟨hfits, rfl⟩ := SlotPool.setSeqLen_eq_some hset
        exact .inl ⟨snap, hsnap, hfits, rfl⟩

/-- A begun turn rewinds the slot to the reused prefix and makes the prompt the
session's tokens. -/
theorem beginTurn_ok {id : ℕ} {prompt : List Token} {convo : List ℕ} {e' : Engine Cell Rec}
    {plan : TurnPlan} (h : e.beginTurn id prompt convo = .ok (e', plan)) :
    ∃ s slot, e.sessions.sessions id = some s ∧ s.slot = some slot ∧
      plan = planTurn s.tokens (e.pool.seqLen slot) prompt ∧
      e' = { e with
        pool := { e.pool with seqLen := Function.update e.pool.seqLen slot plan.reused }
        sessions := e.sessions.modify id fun s =>
          { s with tokens := prompt, convo, nextPos := plan.reused } } := by
  unfold beginTurn SessionTable.beginTurn at h
  cases hs : e.sessions.sessions id with
  | none => simp [hs] at h
  | some s =>
    cases hslot : s.slot with
    | none => simp [hs, hslot] at h
    | some slot =>
      simp only [hs, hslot] at h
      cases hset : e.pool.setSeqLen slot (planTurn s.tokens (e.pool.seqLen slot) prompt).reused with
      | none => simp [hset] at h
      | some pool =>
        simp only [hset, Except.ok.injEq, Prod.mk.injEq] at h
        obtain ⟨rfl, rfl⟩ := h
        obtain ⟨-, rfl⟩ := SlotPool.setSeqLen_eq_some hset
        refine ⟨s, slot, rfl, hslot, rfl, ?_⟩
        rw [SessionTable.modify_modify]

/-- A begun turn leaves its session on its slot. -/
theorem beginTurn_session {id slot : ℕ} {s : Session} {prompt : List Token} {convo : List ℕ}
    {e' : Engine Cell Rec} {plan : TurnPlan} (hbegin : e.beginTurn id prompt convo = .ok (e', plan))
    (hs : e.sessions.sessions id = some s) (hslot : s.slot = some slot) :
    e'.slots = e.slots ∧ ∃ s', e'.sessions.sessions id = some s' ∧ s'.slot = some slot := by
  obtain ⟨_, _, -, -, -, rfl⟩ := beginTurn_ok hbegin
  exact ⟨rfl, _, SessionTable.modify_self hs _, hslot⟩

theorem openSession_ok {id : ℕ} {e' : Engine Cell Rec} (h : e.openSession cfg = (e', .ok id)) :
    ∃ slot pool adm, e.adm.admitSession cfg.capTokens = .ok (cfg.capTokens, adm) ∧
      e.pool.acquire = some (slot, pool) ∧ id = e.sessions.nextId ∧
      e' = { e with
        sessions := {
          sessions := Function.update e.sessions.sessions id (some {
            slot := some slot, grantedCtx := cfg.capTokens, tokens := [], nextPos := 0
            residency := .resident, convo := [], lastUsed := e.sessions.clock + 1 })
          nextId := e.sessions.nextId + 1
          clock := e.sessions.clock + 1 }
        pool, adm } := by
  unfold openSession SessionTable.open at h
  cases hadm : e.adm.admitSession cfg.capTokens with
  | error _ => simp [hadm] at h
  | ok granted =>
    obtain ⟨grantedCtx, adm⟩ := granted
    obtain ⟨-, rfl, -⟩ := AdmissionController.admitSession_ok hadm
    cases hacquire : e.pool.acquire with
    | none => simp [hadm, hacquire] at h
    | some taken =>
      obtain ⟨slot, pool⟩ := taken
      simp only [hadm, hacquire, Prod.mk.injEq, Except.ok.injEq] at h
      obtain ⟨rfl, rfl⟩ := h
      exact ⟨slot, pool, adm, rfl, rfl, rfl, rfl⟩

/-- A refused session leaves the pool and the table alone. -/
theorem openSession_error {error : AdmitError} {e' : Engine Cell Rec}
    (h : e.openSession cfg = (e', .error error)) :
    (e' = e ∧ e.adm.admitSession cfg.capTokens = .error error) ∨
      ∃ adm, e.adm.admitSession cfg.capTokens = .ok (cfg.capTokens, adm) ∧ e.pool.acquire = none ∧
        e' = { e with adm := adm.release cfg.capTokens } := by
  unfold openSession SessionTable.open at h
  cases hadm : e.adm.admitSession cfg.capTokens with
  | error found =>
    simp only [hadm, Prod.mk.injEq, Except.error.injEq] at h
    exact .inl ⟨h.1.symm, by rw [h.2]⟩
  | ok granted =>
    obtain ⟨grantedCtx, adm⟩ := granted
    obtain ⟨-, rfl, -⟩ := AdmissionController.admitSession_ok hadm
    cases hacquire : e.pool.acquire with
    | none =>
      simp only [hadm, hacquire, Prod.mk.injEq] at h
      exact .inr ⟨adm, rfl, rfl, h.1.symm⟩
    | some taken => simp [hadm, hacquire] at h

/-- No request in flight belongs to the session. -/
def Idle (e : Engine Cell Rec) (id : ℕ) : Prop := ∀ slot f, e.slots slot = some f → f.session ≠ id

end Engine

/-- Where an admission stands between its parts. -/
inductive Phase where
  | steady
  | reserved (slot : ℕ)
  | opening (id : ℕ)

section Moves
variable {Cell Rec : Type}

/-- The parts an admission is made of. A slot is reserved between leaving the
pool and being attached; a session is opening until its recurrent state is
reset. -/
inductive Move (cfg : EngineConfig Cell Rec) :
    Phase → Engine Cell Rec → List Output → Phase → Engine Cell Rec → Prop
  | evict {e : Engine Cell Rec} {id slot : ℕ} {s : Session} {f : Session → Session}
      {swap : SwapStore (SlotSnapshot Cell Rec)} (hs : e.sessions.sessions id = some s)
      (hslot : s.slot = some slot) (hidle : e.Idle id)
      (hf : ∀ x, (f x).slot = none ∧ (f x).tokens = x.tokens ∧ (f x).grantedCtx = x.grantedCtx)
      (hothers : ∀ x ≠ id, swap.lookup x = e.swap.lookup x)
      (hparked : (∀ x, (f x).residency = .cold) ∨ (∀ x, (f x).residency = .swapped) ∧
        swap.lookup id = some (captureSlot e.pool e.memory slot s.tokens)) :
      Move cfg .steady e [] .steady
        { e with sessions := e.sessions.modify id f, pool := e.pool.release slot, swap }
  | acquire {e : Engine Cell Rec} {slot : ℕ} {pool : SlotPool}
      (hacquire : e.pool.acquire = some (slot, pool)) :
      Move cfg .steady e [] (.reserved slot) { e with pool }
  | release {e : Engine Cell Rec} {slot : ℕ} :
      Move cfg (.reserved slot) e [] .steady { e with pool := e.pool.release slot }
  | restore {e : Engine Cell Rec} {id slot : ℕ} {s : Session} {snap : SlotSnapshot Cell Rec}
      {swap : SwapStore (SlotSnapshot Cell Rec)} (hs : e.sessions.sessions id = some s)
      (hslot : s.slot = none) (hcold : s.residency ≠ .cold) (hsnap : e.swap.lookup id = some snap)
      (hothers : ∀ x ≠ id, swap.lookup x = e.swap.lookup x) :
      Move cfg (.reserved slot) e [] .steady { e with
        swap
        pool := { e.pool with seqLen := Function.update e.pool.seqLen slot snap.seqLen }
        memory := e.memory.load e.pool.capTokens slot snap
        sessions := e.sessions.markResident id slot snap.seqLen }
  | chill {e : Engine Cell Rec} {id slot : ℕ} {s : Session} {memory : DeviceMemory Cell Rec}
      {swap : SwapStore (SlotSnapshot Cell Rec)} (hs : e.sessions.sessions id = some s)
      (hslot : s.slot = none) (hcold : s.residency ≠ .cold)
      (hmemory : (∀ snap, e.swap.lookup id = some snap → snap.kv.length ≤ e.pool.capTokens) →
        ∀ x ≠ slot, SlotFrame e.pool.capTokens x e.memory memory)
      (hothers : ∀ x ≠ id, swap.lookup x = e.swap.lookup x) :
      Move cfg (.reserved slot) e [] (.reserved slot) { e with
        swap, memory
        sessions := e.sessions.modify id fun s =>
          { s with slot := none, residency := .cold, nextPos := 0 } }
  | beginTurn {e e' : Engine Cell Rec} {id : ℕ} {s : Session} {rest : List Token} {convo : List ℕ}
      {plan : TurnPlan} (hs : e.sessions.sessions id = some s) (hidle : e.Idle id)
      (hrest : rest ≠ [] ∨ s.tokens = [])
      (hbegin : e.beginTurn id (s.tokens ++ rest) convo = .ok (e', plan)) :
      Move cfg .steady e [] .steady e'
  | turn {e e' : Engine Cell Rec} {id slot maxTokens : ℕ} {s : Session} {rest : List Token}
      {convo : List ℕ} {plan : TurnPlan} {turn : Turn} (hs : e.sessions.sessions id = some s)
      (hslot : s.slot = some slot) (hidle : e.Idle id) (hrest : rest ≠ [] ∨ s.tokens = [])
      (hbegin : e.beginTurn id (s.tokens ++ rest) convo = .ok (e', plan))
      (hturn : turn.prompt = s.tokens ++ rest ∧ turn.held = e.pool.seqLen slot ∧
        turn.reused = plan.reused) :
      Move cfg .steady e [.accepted id turn] .steady
        (e'.launch slot id maxTokens (s.tokens ++ rest) plan)
  | touch {e : Engine Cell Rec} {id : ℕ} :
      Move cfg .steady e [] .steady { e with sessions := e.sessions.touch id }
  | opened {e e' : Engine Cell Rec} {id : ℕ} (hopen : e.openSession cfg = (e', .ok id)) :
      Move cfg .steady e [] (.opening id) e'
  | refuse {e e' : Engine Cell Rec} {error : AdmitError}
      (hopen : e.openSession cfg = (e', .error error)) : Move cfg .steady e [] .steady e'
  | reset {e : Engine Cell Rec} {id slot : ℕ} {s : Session} (hs : e.sessions.sessions id = some s)
      (hslot : s.slot = some slot) (hidle : e.Idle id) (htokens : s.tokens = [])
      (hlen : e.pool.seqLen slot = 0) :
      Move cfg (.opening id) e [] .steady { e with memory := e.memory.setDn slot cfg.model.fresh }
  | spoil {e : Engine Cell Rec} {id slot : ℕ} {s : Session} {dn : Rec}
      (hs : e.sessions.sessions id = some s) (hslot : s.slot = some slot) :
      Move cfg (.opening id) e [] (.opening id) { e with memory := e.memory.setDn slot dn }
  | close {e : Engine Cell Rec} {phase : Phase} {id slot : ℕ} {s : Session}
      (hphase : phase = .steady ∨ phase = .opening id) (hs : e.sessions.sessions id = some s)
      (hslot : s.slot = some slot) (hidle : e.Idle id) : Move cfg phase e [] .steady (e.close id)
  | reject {e : Engine Cell Rec} {reason : RejectReason} :
      Move cfg .steady e [.rejected reason] .steady e

/-- A sequence of parts. -/
inductive Moves (cfg : EngineConfig Cell Rec) (phase : Phase) (e : Engine Cell Rec) :
    List Output → Phase → Engine Cell Rec → Prop
  | nil : Moves cfg phase e [] phase e
  | snoc {outputs emitted : List Output} {mid next : Phase} {e' e'' : Engine Cell Rec} :
    Moves cfg phase e outputs mid e' → Move cfg mid e' emitted next e'' →
    Moves cfg phase e (outputs ++ emitted) next e''

/-- What every part keeps, a sequence keeps. -/
theorem Moves.invariant {cfg : EngineConfig Cell Rec} {P : Phase → List Output → Engine Cell Rec → Prop}
    (hmove : ∀ phase outputs e emitted next e', P phase outputs e → Move cfg phase e emitted next e' →
      P next (outputs ++ emitted) e')
    {phase next : Phase} {outputs : List Output} {e e' : Engine Cell Rec}
    (h : Moves cfg phase e outputs next e') (before : List Output) (h0 : P phase before e) :
    P next (before ++ outputs) e' := by
  induction h with
  | nil => rwa [List.append_nil]
  | snoc _ hm ih =>
    rw [← List.append_assoc]
    exact hmove _ _ _ _ _ _ ih hm

end Moves

namespace Engine
variable {Cell Rec : Type} {cfg : EngineConfig Cell Rec} {e : Engine Cell Rec}

/-- The slot without its request. -/
def clearSlot (e : Engine Cell Rec) (slot : ℕ) : Engine Cell Rec :=
  { e with
    slots := Function.update e.slots slot none
    work := Function.update e.work slot { e.work slot with remainingPrompt := [] } }

theorem clearSlot_eq_some {slot sl : ℕ} {f : InFlight} (h : (e.clearSlot slot).slots sl = some f) :
    sl ≠ slot ∧ e.slots sl = some f := by
  simp only [clearSlot, Function.update_apply] at h
  split at h
  · cases h
  · rename_i hne
    exact ⟨hne, h⟩

/-- The slot with the sampled token queued and recorded. -/
def queueToken (e : Engine Cell Rec) (slot : ℕ) (f : InFlight) (token : Token) : Engine Cell Rec :=
  { e with
    slots := Function.update e.slots slot (some { f with produced := f.produced + 1 })
    work := Function.update e.work slot { e.work slot with remainingPrompt := [token] }
    sessions := (e.sessions.modify f.session fun s =>
      { s with tokens := s.tokens ++ [token] }).touch f.session }

/-- What sampling a slot can do to a request that has no pending token. -/
inductive Sampled (cfg : EngineConfig Cell Rec) (io : StepIo Cell Rec) (e : Engine Cell Rec) (slot : ℕ)
    (f : InFlight) : Engine Cell Rec → List Output → Prop
  | gone (hterm : cfg.model.isTerminator (io.ids slot) = false) :
    Sampled cfg io e slot f ((e.clearSlot slot).close f.session) [.done f.session .clientGone]
  | eos (hterm : cfg.model.isTerminator (io.ids slot) = true) :
    Sampled cfg io e slot f
      { e.clearSlot slot with sessions := e.sessions.touch f.session } [.done f.session .eos]
  | maxTokens (hterm : cfg.model.isTerminator (io.ids slot) = false)
      (hmax : f.maxTokens ≤ f.produced + 1) :
    Sampled cfg io e slot f { e.clearSlot slot with sessions := e.sessions.touch f.session }
      [.token f.session (io.ids slot), .done f.session .maxTokens]
  | queued (hterm : cfg.model.isTerminator (io.ids slot) = false) :
    Sampled cfg io e slot f (e.queueToken slot f (io.ids slot)) [.token f.session (io.ids slot)]

/-- A slot is left alone unless its request is out of pending tokens. -/
theorem sampleSlot_cases (cfg : EngineConfig Cell Rec) (io : StepIo Cell Rec) (e : Engine Cell Rec)
    (slot : ℕ) : (sampleSlot cfg io e slot = (e, []) ∧
        ∀ f, e.slots slot = some f → (e.work slot).remainingPrompt ≠ []) ∨
      ∃ f e' outputs, e.slots slot = some f ∧ (e.work slot).remainingPrompt = [] ∧
        sampleSlot cfg io e slot = (e', outputs) ∧ Sampled cfg io e slot f e' outputs := by
  cases hf : e.slots slot with
  | none => exact .inl ⟨by simp [sampleSlot, hf], by simp⟩
  | some f =>
    by_cases hrest : (e.work slot).remainingPrompt = []
    · refine .inr ⟨f, _, _, rfl, hrest, Prod.mk.eta.symm, ?_⟩
      simp only [sampleSlot, hf, hrest, ne_eq, not_true_eq_false, if_false]
      cases hterm : cfg.model.isTerminator (io.ids slot) with
      | true => simpa [clearSlot] using Sampled.eos hterm
      | false =>
        cases hdelivered : io.delivered slot with
        | false => simpa [clearSlot] using Sampled.gone hterm
        | true =>
          by_cases hmax : f.maxTokens ≤ f.produced + 1
          · simpa [clearSlot, hmax] using Sampled.maxTokens hterm hmax
          · simpa [queueToken, hmax] using Sampled.queued hterm
    · exact .inl ⟨by simp [sampleSlot, hf, hrest], fun _ _ => hrest⟩

theorem abortSlot_cases (e : Engine Cell Rec) (slot : ℕ) :
    abortSlot e slot = (e, []) ∧ e.slots slot = none ∨ ∃ f, e.slots slot = some f ∧
      abortSlot e slot = ((e.clearSlot slot).close f.session, [.rejected .forwardFailed]) := by
  unfold abortSlot
  cases hf : e.slots slot with
  | none => exact .inl ⟨rfl, rfl⟩
  | some f => exact .inr ⟨f, rfl, rfl⟩

/-- Sampling tells of the session in the slot, and leaves no other there. -/
theorem sampleSlot_about (cfg : EngineConfig Cell Rec) (io : StepIo Cell Rec) (e : Engine Cell Rec)
    (slot : ℕ) : (∀ output ∈ (sampleSlot cfg io e slot).2, ∀ id, output.About id →
        ∃ f, e.slots slot = some f ∧ f.session = id) ∧
      ∀ g, (sampleSlot cfg io e slot).1.slots slot = some g →
        ∃ f, e.slots slot = some f ∧ f.session = g.session := by
  rcases sampleSlot_cases cfg io e slot with ⟨heq, -⟩ | ⟨f, e', emitted, hf, -, heq, hsampled⟩
  · rw [heq]
    exact ⟨by simp, fun g hg => ⟨g, hg, rfl⟩⟩
  · rw [heq]
    cases hsampled with
    | gone | eos | maxTokens =>
      refine ⟨?_, fun g hg => absurd rfl (clearSlot_eq_some hg).1⟩
      simp [Output.About, hf]
    | queued =>
      refine ⟨by simp [Output.About, hf], fun g hg => ⟨f, hf, ?_⟩⟩
      simp only [queueToken, Function.update_self, Option.some.injEq] at hg
      rw [← hg]

theorem sampleSlot_slots (cfg : EngineConfig Cell Rec) (io : StepIo Cell Rec) (e : Engine Cell Rec)
    {slot sl : ℕ} (hsl : sl ≠ slot) : (sampleSlot cfg io e slot).1.slots sl = e.slots sl := by
  rcases sampleSlot_cases cfg io e slot with ⟨heq, -⟩ | ⟨f, e', emitted, -, -, heq, hsampled⟩
  · rw [heq]
  · rw [heq]
    cases hsampled <;> exact Function.update_of_ne hsl _ _

/-- What an action on one slot keeps, running it on many keeps. -/
theorem forSlots_invariant {f : Engine Cell Rec → ℕ → Engine Cell Rec × List Output}
    {P : List Output → Engine Cell Rec → Prop}
    (hf : ∀ out e slot, P out e → P (out ++ (f e slot).2) (f e slot).1) (slots : List ℕ)
    (out : List Output) (h : P out e) : P (out ++ (forSlots f e slots).2) (forSlots f e slots).1 := by
  induction slots generalizing e out with
  | nil => simpa [forSlots] using h
  | cons slot rest ih =>
    rw [forSlots, ← List.append_assoc]
    exact ih _ (hf out e slot h)

theorem forSlots_abort_slots (slots : List ℕ) (e : Engine Cell Rec) (slot : ℕ) :
    (forSlots abortSlot e slots).1.slots slot = if slot ∈ slots then none else e.slots slot := by
  induction slots generalizing e with
  | nil => simp [forSlots]
  | cons next rest ih =>
    rw [forSlots, ih]
    rcases abortSlot_cases e next with ⟨heq, hnone⟩ | ⟨f, hf, heq⟩
    · rw [heq]
      by_cases hslot : slot = next
      · simp [hslot, hnone]
      · simp [hslot]
    · rw [heq]
      by_cases hslot : slot = next
      · simp [hslot, close, clearSlot]
      · simp [hslot, close, clearSlot]

/-- All that an aborted batch tells clients. -/
theorem forSlots_abort_outputs (slots : List ℕ) (e : Engine Cell Rec) :
    ∀ output ∈ (forSlots abortSlot e slots).2, output = .rejected .forwardFailed := by
  induction slots generalizing e with
  | nil => simp [forSlots]
  | cons slot rest ih =>
    intro output hmem
    rcases List.mem_append.mp hmem with hfirst | hrest
    · rcases abortSlot_cases e slot with ⟨heq, -⟩ | ⟨f, -, heq⟩
      · simp [heq] at hfirst
      · simpa [heq] using hfirst
    · exact ih _ output hrest

/-- Advancing lengths changes nothing else of the pool. -/
theorem advanceSlotSeqLens_frame (rows : List Row) (pool : SlotPool) (slots : List ℕ) :
    (advanceSlotSeqLens rows pool slots).1.inUse = pool.inUse ∧
      (advanceSlotSeqLens rows pool slots).1.nSlots = pool.nSlots ∧
      (advanceSlotSeqLens rows pool slots).1.capTokens = pool.capTokens := by
  induction slots generalizing pool with
  | nil => exact ⟨rfl, rfl, rfl⟩
  | cons slot rest ih =>
    rw [advanceSlotSeqLens]
    split
    · exact ih pool
    · split
      · exact ⟨rfl, rfl, rfl⟩
      · rename_i next hset
        obtain ⟨-, rfl⟩ := SlotPool.setSeqLen_eq_some hset
        exact ih _

/-- The engine with its pending tokens taken into the batch. -/
def scheduled (cfg : EngineConfig Cell Rec) (e : Engine Cell Rec) : Engine Cell Rec :=
  { e with work := fun slot =>
      if slot < cfg.nSlots then (e.work slot).advance (chunkSize cfg) else e.work slot }

def batchRows (cfg : EngineConfig Cell Rec) (e : Engine Cell Rec) : List Row :=
  (nextBatch cfg.nSlots (chunkSize cfg) e.work).rows

theorem synchronize_fine {io : StepIo Cell Rec} {rows : List Row} (h : io.synchronize = none) :
    e.synchronize io rows = e := by
  rw [synchronize, h]

/-- What one scheduling step can do. -/
theorem step_cases {io : StepIo Cell Rec} {e' : Engine Cell Rec} {outputs : List Output}
    (h : step cfg io e = some (e', outputs)) :
    (e.batchRows cfg = [] ∧ e' = e.scheduled cfg ∧ outputs = []) ∨
    (e.batchRows cfg ≠ [] ∧ ∃ e1, forward cfg io (e.scheduled cfg) (e.batchRows cfg) = some (e1, false) ∧
      (e', outputs) = forSlots abortSlot e1 (List.range cfg.nSlots)) ∨
    (e.batchRows cfg ≠ [] ∧ ∃ e1, forward cfg io (e.scheduled cfg) (e.batchRows cfg) = some (e1, true) ∧
      ((e' = e1.synchronize io (e.batchRows cfg) ∧ outputs = [] ∧
          (io.synchronize.isNone && io.sample && io.copyBack) = false) ∨
        ((io.synchronize.isNone && io.sample && io.copyBack) = true ∧
          (e', outputs) = forSlots (sampleSlot cfg io) e1 (List.range cfg.nSlots)))) := by
  unfold step at h
  dsimp only at h
  split at h
  · rename_i hempty
    cases h
    exact .inl ⟨hempty, rfl, rfl⟩
  · rename_i hrows
    split at h
    · cases h
    · rename_i e1 hforward
      exact .inr (.inl ⟨hrows, e1, hforward, (Option.some.inj h).symm⟩)
    · rename_i e1 hforward
      refine .inr (.inr ⟨hrows, e1, hforward, ?_⟩)
      split at h
      · rename_i hfailed
        cases h
        refine .inl ⟨rfl, rfl, ?_⟩
        rw [Bool.and_eq_false_iff, Bool.and_eq_false_iff]
        simpa using hfailed
      · rename_i hfine
        have hsynced : io.synchronize = none := by
          simp only [Bool.or_eq_true, not_or, Option.isSome_iff_ne_none, ne_eq, not_not] at hfine
          exact hfine.1.1
        rw [synchronize_fine hsynced] at h
        exact .inr ⟨by simpa [and_assoc] using hfine, (Option.some.inj h).symm⟩

end Engine
end Hipscope.Serve
