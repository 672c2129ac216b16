import Hipscope.Serve.Ownership

/-! The admission budget counts every session of the table, wherever it lives. -/
namespace Hipscope.Serve
open Machine
open Hipscope.Residency (r9700VramBytes)

namespace AdmissionController
variable {a : AdmissionController} {k ctx : ℕ}

private theorem foldl_sum_mod (bytes k sum : ℕ) (h : sum + k * bytes < 2 ^ 64) :
    (List.replicate k bytes).foldl (fun sum bytes => (sum + bytes) % 2 ^ 64) sum = sum + k * bytes := by
  induction k generalizing sum with
  | zero => simp
  | succ k ih =>
    have hsplit : (k + 1) * bytes = bytes + k * bytes := by ring
    rw [hsplit] at h ⊢
    rw [List.replicate_succ, List.foldl_cons, Nat.mod_eq_of_lt (by omega), ih _ (by omega)]
    omega

/-- With as many equal sessions as fit the budget, the accounts do not wrap. -/
theorem usedBytes_replicate (h : a.admitted = List.replicate k ctx)
    (hfits : a.footprint.weightsBytes + k * (ctx * a.footprint.kvBytesPerToken) < 2 ^ 64) :
    a.usedBytes = if k = 0 then 0
      else a.footprint.weightsBytes + k * (ctx * a.footprint.kvBytesPerToken) := by
  simp only [usedBytes, h, List.replicate_eq_nil_iff]
  split
  · rfl
  · rename_i hk
    have hone : ctx * a.footprint.kvBytesPerToken ≤ k * (ctx * a.footprint.kvBytesPerToken) :=
      Nat.le_mul_of_pos_left _ (Nat.pos_of_ne_zero hk)
    have hbytes : a.kvBytes ctx = ctx * a.footprint.kvBytesPerToken :=
      Nat.mod_eq_of_lt (by omega)
    rw [List.map_replicate, hbytes, foldl_sum_mod _ _ _ (by omega), Nat.zero_add,
      Nat.mod_eq_of_lt hfits]

/-- One more session of the same size is admitted exactly when it still fits. -/
theorem need_lt_available_replicate (h : a.admitted = List.replicate k ctx) (hbudget : a.budgetBytes < 2 ^ 63)
    (hone : a.footprint.weightsBytes + ctx * a.footprint.kvBytesPerToken < 2 ^ 64)
    (hfits : k ≠ 0 →
      a.footprint.weightsBytes + k * (ctx * a.footprint.kvBytesPerToken) < a.budgetBytes) :
    a.need ctx < a.available ↔
      a.footprint.weightsBytes + (k + 1) * (ctx * a.footprint.kvBytesPerToken) < a.budgetBytes := by
  have hbytes : a.kvBytes ctx = ctx * a.footprint.kvBytesPerToken := Nat.mod_eq_of_lt (by omega)
  have hsplit : (k + 1) * (ctx * a.footprint.kvBytesPerToken) =
      ctx * a.footprint.kvBytesPerToken + k * (ctx * a.footprint.kvBytesPerToken) := by ring
  have hwrap : a.footprint.weightsBytes + k * (ctx * a.footprint.kvBytesPerToken) < 2 ^ 64 := by
    by_cases hk : k = 0
    · subst hk
      omega
    · have hk' := hfits hk
      omega
  simp only [need, available, usedBytes_replicate h hwrap, h, List.replicate_eq_nil_iff, hbytes, hsplit]
  split
  · rename_i hk
    subst hk
    rw [Nat.mod_eq_of_lt (by omega)]
    omega
  · rename_i hk
    have hk' := hfits hk
    rw [Nat.mod_eq_of_lt (by omega)]
    omega

end AdmissionController

namespace SessionTable
variable {t t' : SessionTable} {id : ℕ}

theorem active_eq_countP : t.active = (List.range t.nextId).countP fun id => (t.sessions id).isSome := by
  rw [active, iter, List.length_filterMap_eq_countP]
  simp

/-- The granted contexts decide how many sessions there are. -/
theorem active_congr (hnext : t'.nextId = t.nextId)
    (h : ∀ x, (t'.sessions x).map Session.grantedCtx = (t.sessions x).map Session.grantedCtx) :
    t'.active = t.active := by
  rw [active_eq_countP, active_eq_countP, hnext]
  refine List.countP_congr fun x _ => ?_
  rw [← Option.isSome_map (f := Session.grantedCtx), h x, Option.isSome_map]

theorem granted_modify {f : Session → Session} (hf : ∀ s, (f s).grantedCtx = s.grantedCtx) (x : ℕ) :
    ((t.modify id f).sessions x).map Session.grantedCtx = (t.sessions x).map Session.grantedCtx := by
  rw [modify_sessions]
  split
  · rename_i hx
    simp [hx, Function.comp_def, hf]
  · rfl

private theorem countP_range_except (p q : ℕ → Bool) {i : ℕ} (hp : p i = true) (hq : q i = false)
    (hsame : ∀ x ≠ i, q x = p x) (n : ℕ) :
    (List.range n).countP q + (if i < n then 1 else 0) = (List.range n).countP p := by
  induction n with
  | zero => simp
  | succ n ih =>
    rw [List.range_succ, List.countP_append, List.countP_append, ← ih]
    by_cases hi : i = n
    · subst hi
      simp [hp, hq]
    · have hx := hsame n (Ne.symm hi)
      by_cases hlt : i < n
      · simp [hx, hlt, Nat.lt_succ_of_lt hlt]
        omega
      · have hge : ¬i < n + 1 := by omega
        simp [hx, hlt, hge]

theorem active_close {s : Session} (hs : t.sessions id = some s) (hissued : id < t.nextId) :
    ({ t with sessions := Function.update t.sessions id none } : SessionTable).active + 1 = t.active := by
  rw [active_eq_countP, active_eq_countP]
  have hcount := countP_range_except (fun x => (t.sessions x).isSome)
    (fun x => (Function.update t.sessions id none x).isSome) (i := id) (by simp [hs]) (by simp)
    (fun x hx => by rw [Function.update_of_ne hx]) t.nextId
  rw [if_pos hissued] at hcount
  exact hcount

theorem active_open (s : Session) (clock : ℕ) :
    (⟨Function.update t.sessions t.nextId (some s), t.nextId + 1, clock⟩ : SessionTable).active =
      t.active + 1 := by
  rw [active_eq_countP, active_eq_countP, List.range_succ, List.countP_append]
  have hold : (List.range t.nextId).countP
      (fun x => (Function.update t.sessions t.nextId (some s) x).isSome) =
      (List.range t.nextId).countP fun x => (t.sessions x).isSome := by
    refine List.countP_congr fun x hx => ?_
    rw [Function.update_of_ne (List.mem_range.mp hx).ne]
  rw [hold]
  simp

end SessionTable

namespace Engine
variable {Cell Rec : Type} {cfg : EngineConfig Cell Rec} {e e' : Engine Cell Rec}

/-- KV bytes of one session at full context. -/
def sessionBytes (cfg : EngineConfig Cell Rec) : ℕ := cfg.capTokens * cfg.footprint.kvBytesPerToken

/-- The budget is charged for every session in the table. -/
structure Accounted (cfg : EngineConfig Cell Rec) (e : Engine Cell Rec) : Prop where
  footprint : e.adm.footprint = cfg.footprint
  budget : e.adm.budgetBytes = r9700VramBytes
  admitted : e.adm.admitted = List.replicate e.sessions.active cfg.capTokens
  granted : ∀ id s, e.sessions.sessions id = some s → s.grantedCtx = cfg.capTokens
  fits : e.sessions.active ≠ 0 →
    cfg.footprint.weightsBytes + e.sessions.active * sessionBytes cfg < r9700VramBytes

theorem start_accounted (memory : DeviceMemory Cell Rec) : Accounted cfg (start cfg memory) where
  footprint := rfl
  budget := rfl
  admitted := rfl
  granted id s h := by simp [start, SessionTable.empty] at h
  fits h := absurd rfl h

private theorem Accounted.frame (h : Accounted cfg e) (hadm : e'.adm = e.adm)
    (hnext : e'.sessions.nextId = e.sessions.nextId)
    (hgranted : ∀ x, (e'.sessions.sessions x).map Session.grantedCtx =
      (e.sessions.sessions x).map Session.grantedCtx) : Accounted cfg e' := by
  have hactive := SessionTable.active_congr hnext hgranted
  refine ⟨hadm ▸ h.footprint, hadm ▸ h.budget, ?_, fun id s' hs' => ?_, ?_⟩
  · rw [hadm, hactive]
    exact h.admitted
  · have hone := hgranted id
    rw [hs', Option.map_some] at hone
    obtain ⟨s, hs, hsame⟩ := Option.map_eq_some_iff.mp hone.symm
    exact hsame.symm.trans (h.granted id s hs)
  · rw [hactive]
    exact h.fits

/-- One more session is admitted exactly when it still fits beside all others. -/
theorem Accounted.affords_iff (h : Accounted cfg e)
    (hone : cfg.footprint.weightsBytes + sessionBytes cfg < 2 ^ 64) :
    e.adm.need cfg.capTokens < e.adm.available ↔
      cfg.footprint.weightsBytes + (e.sessions.active + 1) * sessionBytes cfg < r9700VramBytes := by
  have hiff := AdmissionController.need_lt_available_replicate h.admitted
  rw [h.footprint, h.budget] at hiff
  exact hiff (by decide) hone h.fits

private theorem Accounted.close (ho : ∀ id s, e.sessions.sessions id = some s → id < e.sessions.nextId)
    (h : Accounted cfg e) {id slot : ℕ} {s : Session} (hs : e.sessions.sessions id = some s)
    (hslot : s.slot = some slot) : Accounted cfg (e.close id) := by
  rw [close_eq hs hslot]
  have hactive := SessionTable.active_close hs (ho id s hs)
  refine ⟨h.footprint, h.budget, ?_, fun x s' hs' => ?_, fun hne => ?_⟩
  · simp only [AdmissionController.release, h.admitted, h.granted id s hs, ← hactive,
      List.replicate_succ, List.erase_cons_head]
  · simp only [Function.update_apply] at hs'
    split at hs'
    · cases hs'
    · exact h.granted x s' hs'
  · have hall := h.fits (by omega)
    rw [← hactive, Nat.add_mul] at hall
    dsimp only
    omega

private theorem Accounted.move {phase next : Phase} {emitted : List Output}
    (hone : cfg.footprint.weightsBytes + sessionBytes cfg < 2 ^ 64) (ho : Owned cfg phase.slot e)
    (h : Accounted cfg e) (hm : Move cfg phase e emitted next e') : Accounted cfg e' := by
  cases hm with
  | evict hs hslot hidle hf =>
    exact h.frame rfl rfl (SessionTable.granted_modify fun s => (hf s).2.2)
  | acquire | release | reset | spoil | reject => exact h.frame rfl rfl fun _ => rfl
  | restore | chill | touch =>
    refine h.frame rfl rfl fun x => SessionTable.granted_modify ?_ x
    exact fun _ => rfl
  | beginTurn _ _ _ hbegin =>
    obtain ⟨_, _, -, -, -, rfl⟩ := beginTurn_ok hbegin
    refine h.frame rfl rfl fun x => SessionTable.granted_modify ?_ x
    exact fun _ => rfl
  | turn _ _ _ _ hbegin =>
    obtain ⟨_, _, -, -, -, rfl⟩ := beginTurn_ok hbegin
    refine h.frame rfl rfl fun x => SessionTable.granted_modify ?_ x
    exact fun _ => rfl
  | opened hopen =>
    obtain ⟨slot, pool, adm, hadmit, -, rfl, rfl⟩ := openSession_ok hopen
    obtain ⟨hneed, -, rfl⟩ := AdmissionController.admitSession_ok hadmit
    have hactive := SessionTable.active_open (t := e.sessions) ⟨some slot, cfg.capTokens, [], 0,
      .resident, [], e.sessions.clock + 1⟩ (e.sessions.clock + 1)
    refine ⟨h.footprint, h.budget, ?_, fun x s' hs' => ?_, fun _ => ?_⟩
    · rw [hactive, List.replicate_succ', h.admitted]
    · simp only [Function.update_apply] at hs'
      split at hs'
      · cases hs'
        rfl
      · exact h.granted x s' hs'
    · rw [hactive]
      exact (h.affords_iff hone).mp hneed
  | refuse hopen =>
    rcases openSession_error hopen with ⟨rfl, -⟩ | ⟨adm, hadmit, -, rfl⟩
    · exact h
    · obtain ⟨-, -, rfl⟩ := AdmissionController.admitSession_ok hadmit
      refine ⟨h.footprint, h.budget, ?_, h.granted, h.fits⟩
      simp only [AdmissionController.release, h.admitted]
      rw [← List.replicate_succ', List.replicate_succ, List.erase_cons_head]
  | close hphase hs hslot => exact h.close ho.issued hs hslot

private theorem Accounted.sampleSlot (ho : Owned cfg none e) (h : Accounted cfg e)
    (io : StepIo Cell Rec) (slot : ℕ) : Accounted cfg (sampleSlot cfg io e slot).1 := by
  rcases sampleSlot_cases cfg io e slot with ⟨heq, -⟩ | ⟨f, e', outputs, hf, -, heq, hsampled⟩
  · rw [heq]
    exact h
  · rw [heq]
    obtain ⟨s, hs, hslot⟩ := ho.session hf
    have hcleared : Accounted cfg (e.clearSlot slot) := h.frame rfl rfl fun _ => rfl
    cases hsampled with
    | gone => exact hcleared.close (ho.clearSlot slot).issued hs hslot
    | eos | maxTokens =>
      refine h.frame rfl rfl fun x => SessionTable.granted_modify ?_ x
      exact fun _ => rfl
    | queued =>
      refine h.frame rfl rfl fun x => (SessionTable.granted_modify ?_ x).trans
        (SessionTable.granted_modify ?_ x)
      · exact fun _ => rfl
      · exact fun _ => rfl

private theorem Accounted.abortSlot (ho : Owned cfg none e) (h : Accounted cfg e) (slot : ℕ) :
    Accounted cfg (abortSlot e slot).1 := by
  rcases abortSlot_cases e slot with ⟨heq, -⟩ | ⟨f, hf, heq⟩
  · rw [heq]
    exact h
  · rw [heq]
    obtain ⟨s, hs, hslot⟩ := ho.session hf
    have hcleared : Accounted cfg (e.clearSlot slot) := h.frame rfl rfl fun _ => rfl
    exact hcleared.close (ho.clearSlot slot).issued hs hslot

theorem Accounted.act (hone : cfg.footprint.weightsBytes + sessionBytes cfg < 2 ^ 64)
    (ho : Owned cfg none e) (h : Accounted cfg e) {action : Action Cell Rec} {outputs : List Output}
    (hact : act cfg e action = some (e', outputs)) : Accounted cfg e' := by
  cases action with
  | request io req =>
    have hmoves := (admitRequest_moves ho io req).invariant
      (P := fun phase _ e => Owned cfg phase.slot e ∧ Accounted cfg e)
      (fun _ _ _ _ _ _ hp hm => ⟨hp.1.move hm, hp.2.move hone hp.1 hm⟩) [] ⟨ho, h⟩
    rw [Option.some.inj hact] at hmoves
    exact hmoves.2
  | step io =>
    simp only [Engine.act] at hact
    split at hact
    · rcases step_cases hact with ⟨-, rfl, -⟩ | ⟨-, e1, hforward, hslots⟩ | ⟨-, e1, hforward, hrest⟩
      · exact h.frame rfl rfl fun _ => rfl
      · obtain ⟨-, ⟨hsessions, -⟩, -, hadm⟩ := forward_frame hforward
        have h1 : Accounted cfg e1 := h.frame hadm (by rw [hsessions]; rfl) fun x => by rw [hsessions]; rfl
        have hswept := forSlots_invariant (P := fun _ e => Owned cfg none e ∧ Accounted cfg e)
          (fun _ _ slot hp => ⟨hp.1.abortSlot slot, hp.2.abortSlot hp.1 slot⟩) (List.range cfg.nSlots) []
          ⟨ho.forward hforward, h1⟩
        rw [← hslots] at hswept
        exact hswept.2
      · obtain ⟨-, ⟨hsessions, -⟩, -, hadm⟩ := forward_frame hforward
        have h1 : Accounted cfg e1 := h.frame hadm (by rw [hsessions]; rfl) fun x => by rw [hsessions]; rfl
        rcases hrest with ⟨rfl, -⟩ | ⟨-, hslots⟩
        · exact h1.frame rfl rfl fun _ => rfl
        · have hswept := forSlots_invariant (P := fun _ e => Owned cfg none e ∧ Accounted cfg e)
            (fun _ _ slot hp => ⟨hp.1.sampleSlot io slot, hp.2.sampleSlot hp.1 io slot⟩)
            (List.range cfg.nSlots) [] ⟨ho.forward hforward, h1⟩
          rw [← hslots] at hswept
          exact hswept.2
    · cases hact

theorem Reaches.accounted {guard : Engine Cell Rec → Action Cell Rec → Prop}
    {memory : DeviceMemory Cell Rec} {actions : List (Action Cell Rec)} {outputs : List Output}
    (hone : cfg.footprint.weightsBytes + sessionBytes cfg < 2 ^ 64)
    (h : Reaches cfg guard memory actions outputs e) : Accounted cfg e := by
  have hall := Runs.state_invariant (P := fun e => Owned cfg none e ∧ Accounted cfg e)
    ⟨start_owned memory, start_accounted memory⟩
    (fun _ _ _ _ hp _ hact => ⟨hp.1.act hact, hp.2.act hone hp.1 hact⟩) h
  exact hall.2

section FreshRequest

theorem openSession_isOk {slot : ℕ} {pool : SlotPool} (hbudget : e.adm.need cfg.capTokens < e.adm.available)
    (hacquire : e.pool.acquire = some (slot, pool)) : ∃ e' id, e.openSession cfg = (e', .ok id) := by
  have hadmit : e.adm.admitSession cfg.capTokens =
      .ok (cfg.capTokens, { e.adm with admitted := e.adm.admitted ++ [cfg.capTokens] }) :=
    if_neg (Nat.not_le.mpr hbudget)
  exact ⟨_, e.sessions.nextId, Prod.ext rfl (by simp [openSession, SessionTable.open, hadmit, hacquire])⟩

theorem lruIdleVictim_isSome {t : SessionTable} {busy : List ℕ} {id : ℕ} {s : Session}
    (hs : t.sessions id = some s) (hissued : id < t.nextId) (hslot : s.slot.isSome) (hbusy : id ∉ busy) :
    ∃ victim, t.lruIdleVictim busy = some victim := by
  have hmem : (id, s) ∈ t.iter :=
    List.mem_filterMap.mpr ⟨id, List.mem_range.mpr hissued, by simp [hs]⟩
  cases hvictim : t.lruIdleVictim busy with
  | none =>
    have hmin := List.argmin_eq_none.mp (Option.map_eq_none_iff.mp hvictim)
    have hidle := List.filter_eq_nil_iff.mp hmin _ hmem
    simp [hslot, hbusy] at hidle
  | some victim => exact ⟨victim, rfl⟩

/-- A fresh session takes its first turn, unless the reset fails or the client is gone. -/
private theorem freshTurn_accepts (cfg : EngineConfig Cell Rec) {io : AdmitIo Cell Rec}
    (hreset : io.reset = none) (haccepted : io.accepted = true) (req : SubmitRequest) {id slot : ℕ} {s : Session}
    (hs : e.sessions.sessions id = some s) (hslot : s.slot = some slot) (htokens : s.tokens = []) :
    ∃ turn, .accepted id turn ∈ (freshTurn cfg io e req id).2 := by
  have hplan : (planTurn s.tokens (e.pool.seqLen slot) req.promptTokens).reused = 0 := by
    rw [htokens, planTurn_nil]
  simp [freshTurn, SessionTable.get, hs, hslot, hreset, haccepted, beginTurn, SessionTable.beginTurn,
    SlotPool.setSeqLen, hplan]

/-- Evicting changes who holds a slot, not who is on the books. -/
private theorem evict_accounted (ho : Owned cfg none e) (h : Accounted cfg e) (io : EvictIo) {victim : ℕ}
    (hvictim : e.sessions.lruIdleVictim (e.busy cfg) = some victim) :
    ∃ e1, evict cfg io e victim = (e1, true) ∧ Accounted cfg e1 ∧
      e1.sessions.active = e.sessions.active ∧ ∃ slot pool, e1.pool.acquire = some (slot, pool) := by
  obtain ⟨s, slot, hs, hslot, -⟩ := SessionTable.lruIdleVictim_some hvictim
  obtain ⟨f, swap, heq, hf, -⟩ := evict_spec cfg io hs hslot
  have hgranted (x : ℕ) : ((e.sessions.modify victim f).sessions x).map Session.grantedCtx =
      (e.sessions.sessions x).map Session.grantedCtx :=
    SessionTable.granted_modify (fun s => (hf s).2.2) x
  refine ⟨_, heq, h.frame rfl rfl hgranted, SessionTable.active_congr rfl hgranted, ?_⟩
  have hlt := (ho.leased.held victim slot (SessionTable.holder_eq_some.mpr ⟨s, hs, hslot⟩)).1
  cases hacquire : (e.pool.release slot).acquire with
  | none =>
    have hall := SlotPool.acquire_eq_none.mp hacquire slot (by rw [SlotPool.release_nSlots, ho.nSlots]; exact hlt)
    simp at hall
  | some taken => exact ⟨taken.1, taken.2, rfl⟩

/-- The budget alone decides a request that a free or idle slot could serve. -/
private theorem openOrEvict_isOk_iff (ho : Owned cfg none e) (h : Accounted cfg e)
    (hone : cfg.footprint.weightsBytes + sessionBytes cfg < 2 ^ 64) (io : EvictIo)
    (hroom : (∃ slot < cfg.nSlots, e.pool.inUse slot = false) ∨
      ∃ victim, e.sessions.lruIdleVictim (e.busy cfg) = some victim) :
    (∃ id, (openOrEvict cfg io e).2 = .ok id) ↔
      cfg.footprint.weightsBytes + (e.sessions.active + 1) * sessionBytes cfg < r9700VramBytes := by
  rw [← h.affords_iff hone]
  unfold openOrEvict
  split
  · rename_i e1 id hopen
    obtain ⟨_, _, _, hadmit, -⟩ := openSession_ok hopen
    exact iff_of_true ⟨id, rfl⟩ (AdmissionController.admitSession_ok hadmit).1
  · rename_i e1 error hopen
    have hmove : Move cfg .steady e [] .steady e1 := .refuse hopen
    have hsteady : Owned cfg Phase.steady.slot e := ho
    have h1 : Accounted cfg e1 := h.move hone hsteady hmove
    have ho1 : Owned cfg none e1 := ho.move hmove
    have hsame : e1.sessions = e.sessions ∧ e1.slots = e.slots := by
      rcases openSession_error hopen with ⟨rfl, -⟩ | ⟨adm, -, -, rfl⟩
      · exact ⟨rfl, rfl⟩
      · exact ⟨rfl, rfl⟩
    have hbudget : e1.adm.need cfg.capTokens < e1.adm.available ↔
        e.adm.need cfg.capTokens < e.adm.available := by
      rw [h1.affords_iff hone, h.affords_iff hone, hsame.1]
    have hbusy : e1.busy cfg = e.busy cfg := by simp only [busy, hsame.2]
    split
    · rename_i hnone
      refine iff_of_false (by simp) fun hneed => ?_
      rw [hsame.1, hbusy] at hnone
      obtain ⟨slot, hlt, hfree⟩ := hroom.resolve_right (by simp [hnone])
      cases hacquire : e.pool.acquire with
      | none =>
        have hall := SlotPool.acquire_eq_none.mp hacquire slot (by rw [ho.nSlots]; exact hlt)
        simp [hall] at hfree
      | some taken =>
        obtain ⟨e2, id, hok⟩ := openSession_isOk hneed hacquire
        simp [hok] at hopen
    · rename_i victim hvictim
      obtain ⟨e2, hevict, h2, hactive, slot, pool, hacquire⟩ := evict_accounted ho1 h1 io hvictim
      rw [hevict, ← hbudget, h1.affords_iff hone, ← hactive, ← h2.affords_iff hone]
      dsimp only
      constructor
      · rintro ⟨id, hok⟩
        split at hok
        · rename_i e3 id' hopen2
          obtain ⟨_, _, _, hadmit, -⟩ := openSession_ok hopen2
          exact (AdmissionController.admitSession_ok hadmit).1
        · cases hok
      · intro hneed
        obtain ⟨e3, id, hok⟩ := openSession_isOk hneed hacquire
        rw [hok]
        exact ⟨id, rfl⟩

end FreshRequest

/-- A fresh request that a free slot or an idle session could make room for is
admitted exactly when the budget has room for it beside every session still in
the table, swapped and cold ones included. -/
theorem fresh_admitted_iff (cfg : EngineConfig Cell Rec) (memory : DeviceMemory Cell Rec)
    (actions : List (Action Cell Rec)) (outputs : List Output) (e : Engine Cell Rec)
    (h : Reaches cfg (fun _ _ => True) memory actions outputs e)
    (hfits : cfg.footprint.weightsBytes + cfg.nSlots * sessionBytes cfg ≤ r9700VramBytes)
    (hroom : (∃ slot < cfg.nSlots, e.pool.inUse slot = false) ∨
      ∃ id s, e.sessions.get id = some s ∧ s.residency = .resident ∧ id ∉ e.busy cfg)
    (req : SubmitRequest) (hfresh : req.continuation = [] ∨
      e.sessions.findContinuation req.convo (e.busy cfg) = none)
    (io : AdmitIo Cell Rec) (hreset : io.reset = none) (haccepted : io.accepted = true) :
    (∃ id turn, .accepted id turn ∈ (admitRequest cfg io e req).2) ↔
      cfg.footprint.weightsBytes + (e.sessions.active + 1) * sessionBytes cfg < r9700VramBytes := by
  have ho := h.owned
  have hslots : 0 < cfg.nSlots := by
    rcases hroom with ⟨slot, hlt, -⟩ | ⟨id, s, hs, hres, -⟩
    · exact Nat.zero_lt_of_lt hlt
    · obtain ⟨slot, hslot⟩ := Option.isSome_iff_exists.mp ((ho.resident id s hs).mp hres)
      exact Nat.zero_lt_of_lt (ho.leased.held id slot (SessionTable.holder_eq_some.mpr ⟨s, hs, hslot⟩)).1
  have hone : cfg.footprint.weightsBytes + sessionBytes cfg < 2 ^ 64 := by
    have hle : sessionBytes cfg ≤ cfg.nSlots * sessionBytes cfg := Nat.le_mul_of_pos_left _ hslots
    have hvram : r9700VramBytes < 2 ^ 64 := by decide
    omega
  have hcont : continueTurn cfg io e req = (e, none) := by
    unfold continueTurn
    rcases hfresh with hempty | hnone
    · rw [if_pos hempty]
    · rw [hnone, ite_self]
  have hvictim : (∃ slot < cfg.nSlots, e.pool.inUse slot = false) ∨
      ∃ victim, e.sessions.lruIdleVictim (e.busy cfg) = some victim := by
    refine hroom.imp_right fun ⟨id, s, hs, hres, hbusy⟩ => ?_
    exact lruIdleVictim_isSome hs (ho.issued id s hs) ((ho.resident id s hs).mp hres) hbusy
  rw [← openOrEvict_isOk_iff ho (h.accounted hone) hone io.evict hvictim]
  simp only [admitRequest, hcont]
  cases hopen : openOrEvict cfg io.evict e with
  | mk e1 opened =>
    cases opened with
    | error reason => simp
    | ok id =>
      obtain ⟨-, -, s, slot, hs, hslot, htokens, -⟩ := openOrEvict_moves ho hopen
      obtain ⟨turn, hturn⟩ := freshTurn_accepts cfg hreset haccepted req hs hslot htokens
      exact iff_of_true ⟨id, turn, hturn⟩ ⟨id, rfl⟩

section Example

/-- With room on the books, a second conversation takes the only slot over. -/
theorem second_admitted : ∃ outputs e, Reaches oneSlot (fun _ _ => True) blank
      [.request fineAdmit (ask [1, 2] 1), .step (fineStep 3)] outputs e ∧
    ∃ id turn, .accepted id turn ∈ (admitRequest oneSlot fineAdmit e (ask [4] 1)).2 := by
  have hrun : ∃ outputs e s, Reaches oneSlot (fun _ _ => True) blank
      [.request fineAdmit (ask [1, 2] 1), .step (fineStep 3)] outputs e ∧
      e.sessions.get 0 = some s ∧ s.residency = .resident ∧ e.busy oneSlot = [] ∧
      e.sessions.active = 1 :=
    ⟨_, _, _, (Runs.nil.snoc trivial rfl).snoc trivial rfl, rfl, rfl, rfl, rfl⟩
  obtain ⟨outputs, e, s, h, hs, hres, hbusy, hactive⟩ := hrun
  refine ⟨outputs, e, h, (fresh_admitted_iff oneSlot blank _ outputs e h (by decide)
    (.inr ⟨0, s, hs, hres, ?_⟩) (ask [4] 1) (.inl rfl) fineAdmit rfl rfl).mpr ?_⟩
  · rw [hbusy]
    exact List.not_mem_nil
  · rw [hactive]
    decide

/-- Twenty gigabytes of weights, and one slot of 2^18 tokens that takes about
eight: fifteen attention layers of four KV heads. -/
def tightSlot : EngineConfig ℕ ℕ :=
  { oneSlot with capTokens := 262144, footprint := ⟨20 * 1024 * 1024 * 1024, 15 * 2 * 1088⟩ }

/-- The second conversation finds the only slot idle, and is refused for the first
one's share of the budget. -/
theorem second_refused : ∃ outputs e, Reaches tightSlot (fun _ _ => True) blank
      [.request fineAdmit (ask [1, 2] 1), .step (fineStep 3)] outputs e ∧
    tightSlot.footprint.weightsBytes + tightSlot.nSlots * sessionBytes tightSlot ≤ r9700VramBytes ∧
    (∃ id s, e.sessions.get id = some s ∧ s.residency = .resident ∧ id ∉ e.busy tightSlot) ∧
    (admitRequest tightSlot fineAdmit e (ask [4] 1)).2 = [.rejected (.admission (.wouldExceedBudget
      8556380160 4328521728))] :=
  ⟨_, _, (Runs.nil.snoc trivial rfl).snoc trivial rfl, by decide, ⟨0, _, rfl, rfl, List.not_mem_nil⟩, rfl⟩

end Example
end Engine
end Hipscope.Serve
