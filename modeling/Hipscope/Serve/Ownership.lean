import Hipscope.Machine.Runs
import Hipscope.Serve.Operations

/-! Slot ownership: the pool, the session table, the requests in flight and the
swap store agree in every reachable state. -/
namespace Hipscope.Serve
open Machine

namespace SessionTable
variable {t : SessionTable} {pool : SlotPool} {id : ℕ}

/-- The slot a session holds. -/
def holder (t : SessionTable) (id : ℕ) : Option ℕ := (t.sessions id).bind Session.slot

theorem holder_eq_some {slot : ℕ} :
    t.holder id = some slot ↔ ∃ s, t.sessions id = some s ∧ s.slot = some slot := by
  simp [holder, Option.bind_eq_some_iff]

/-- Changes that leave the slot alone leave the holders alone. -/
theorem holder_modify {f : Session → Session} (hf : ∀ s, (f s).slot = s.slot) :
    (t.modify id f).holder = t.holder := by
  funext x
  rw [holder, modify_sessions]
  split
  · rename_i hx
    rw [hx, holder]
    cases t.sessions id <;> simp [hf]
  · rfl

theorem holder_touch : (t.touch id).holder = t.holder := holder_modify fun _ => rfl

theorem holder_modify_none {f : Session → Session} (hf : ∀ s, (f s).slot = none) :
    (t.modify id f).holder = Function.update t.holder id none := by
  funext x
  rw [holder, modify_sessions, Function.update_apply]
  split
  · cases t.sessions id <;> simp [hf]
  · rfl

theorem holder_modify_some {f : Session → Session} {slot : ℕ} (hf : ∀ s, (f s).slot = some slot)
    {s : Session} (hs : t.sessions id = some s) :
    (t.modify id f).holder = Function.update t.holder id (some slot) := by
  funext x
  rw [holder, modify_sessions, Function.update_apply]
  split
  · simp [hs, hf]
  · rfl

theorem holder_update_none :
    ({ t with sessions := Function.update t.sessions id none } : SessionTable).holder =
      Function.update t.holder id none := by
  funext x
  simp only [holder, Function.update_apply]
  split <;> rfl

end SessionTable

namespace Engine
variable {Cell Rec : Type} {cfg : EngineConfig Cell Rec} {e : Engine Cell Rec} {reserved : Option ℕ}

/-- The four stores agree; one slot may be reserved for a restore under way. -/
structure Owned (cfg : EngineConfig Cell Rec) (reserved : Option ℕ) (e : Engine Cell Rec) : Prop where
  nSlots : e.pool.nSlots = cfg.nSlots
  leased : Leased cfg.nSlots e.sessions.holder e.pool.inUse reserved
  resident : ∀ id s, e.sessions.sessions id = some s → (s.residency = .resident ↔ s.slot.isSome)
  stored : ∀ id s, e.sessions.sessions id = some s → s.residency = .swapped →
    ∃ snap, e.swap.lookup id = some snap
  issued : ∀ id s, e.sessions.sessions id = some s → id < e.sessions.nextId
  flying : ∀ slot f, e.slots slot = some f → e.sessions.holder f.session = some slot

theorem start_owned (memory : DeviceMemory Cell Rec) : Owned cfg none (start cfg memory) where
  nSlots := rfl
  leased :=
    { held := fun i s h => by simp [start, SessionTable.holder, SessionTable.empty] at h
      used := fun s hs h => by simp [start, SlotPool.new] at h
      unique := fun i j s h => by simp [start, SessionTable.holder, SessionTable.empty] at h
      reserve := fun s h => by cases h }
  resident id s h := by simp [start, SessionTable.empty] at h
  stored id s h := by simp [start, SessionTable.empty] at h
  issued id s h := by simp [start, SessionTable.empty] at h
  flying slot f h := by cases h

/-- Ownership reads of a session its slot and where it lives. -/
private theorem Owned.frame (h : Owned cfg reserved e) {e' : Engine Cell Rec}
    (hpool : e'.pool.nSlots = e.pool.nSlots ∧ e'.pool.inUse = e.pool.inUse)
    (hsessions : ∀ id s', e'.sessions.sessions id = some s' → ∃ s, e.sessions.sessions id = some s ∧
      s'.slot = s.slot ∧ s'.residency = s.residency)
    (hholder : e'.sessions.holder = e.sessions.holder)
    (hnext : e'.sessions.nextId = e.sessions.nextId) (hswap : e'.swap = e.swap)
    (hslots : ∀ slot f, e'.slots slot = some f → e.sessions.holder f.session = some slot) :
    Owned cfg reserved e' where
  nSlots := hpool.1.trans h.nSlots
  leased := by
    rw [hholder, hpool.2]
    exact h.leased
  resident id s' hs' := by
    obtain ⟨s, hs, hslot, hres⟩ := hsessions id s' hs'
    rw [hslot, hres]
    exact h.resident id s hs
  stored id s' hs' hswapped := by
    obtain ⟨s, hs, -, hres⟩ := hsessions id s' hs'
    rw [hswap]
    exact h.stored id s hs (hres ▸ hswapped)
  issued id s' hs' := by
    obtain ⟨s, hs, -⟩ := hsessions id s' hs'
    rw [hnext]
    exact h.issued id s hs
  flying slot f hf := by
    rw [hholder]
    exact hslots slot f hf

/-- An idle session gives up its slot, or is gone altogether. -/
private theorem Owned.vacate (h : Owned cfg reserved e) {e' : Engine Cell Rec} {id slot : ℕ}
    (hid : e.sessions.holder id = some slot)
    (hpool : e'.pool.nSlots = e.pool.nSlots ∧ e'.pool.inUse = Function.update e.pool.inUse slot false)
    (hholder : e'.sessions.holder = Function.update e.sessions.holder id none)
    (hnext : e'.sessions.nextId = e.sessions.nextId)
    (hothers : ∀ x ≠ id, e'.sessions.sessions x = e.sessions.sessions x ∧
      e'.swap.lookup x = e.swap.lookup x)
    (hself : ∀ s', e'.sessions.sessions id = some s' → e.sessions.sessions id ≠ none ∧
      s'.slot = none ∧ s'.residency ≠ .resident ∧
      (s'.residency = .swapped → ∃ snap, e'.swap.lookup id = some snap))
    (hslots : ∀ sl f, e'.slots sl = some f → e.slots sl = some f ∧ f.session ≠ id) :
    Owned cfg reserved e' where
  nSlots := hpool.1.trans h.nSlots
  leased := by
    rw [hholder, hpool.2]
    exact h.leased.revoke hid
  resident x s' hs' := by
    by_cases hx : x = id
    · subst hx
      obtain ⟨-, hslot, hres, -⟩ := hself s' hs'
      simp [hslot, hres]
    · exact h.resident x s' ((hothers x hx).1 ▸ hs')
  stored x s' hs' hswapped := by
    by_cases hx : x = id
    · subst hx
      exact (hself s' hs').2.2.2 hswapped
    · rw [(hothers x hx).2]
      exact h.stored x s' ((hothers x hx).1 ▸ hs') hswapped
  issued x s' hs' := by
    rw [hnext]
    by_cases hx : x = id
    · subst hx
      obtain ⟨s, hs⟩ := Option.ne_none_iff_exists'.mp (hself s' hs').1
      exact h.issued x s hs
    · exact h.issued x s' ((hothers x hx).1 ▸ hs')
  flying sl f hf := by
    obtain ⟨hf', hne⟩ := hslots sl f hf
    rw [hholder, Function.update_of_ne hne]
    exact h.flying sl f hf'

/-- A session without a slot changes, and is not swapped any more. -/
private theorem Owned.revise {reserved' : Option ℕ} (h : Owned cfg reserved e) {e' : Engine Cell Rec} {id : ℕ}
    {f : Session → Session} (hid : e.sessions.holder id = none)
    (hsame : e'.pool.nSlots = e.pool.nSlots ∧ e'.slots = e.slots)
    (hsessions : e'.sessions.sessions = (e.sessions.modify id f).sessions)
    (hnext : e'.sessions.nextId = e.sessions.nextId)
    (hresident : ∀ s, (f s).residency = .resident ↔ (f s).slot.isSome) (hback : ∀ s, (f s).residency ≠ .swapped)
    (hothers : ∀ x ≠ id, e'.swap.lookup x = e.swap.lookup x)
    (hleased : Leased cfg.nSlots e'.sessions.holder e'.pool.inUse reserved') : Owned cfg reserved' e' where
  nSlots := hsame.1.trans h.nSlots
  leased := hleased
  resident x s' hs' := by
    obtain ⟨s, hs, rfl⟩ := SessionTable.modify_eq_some (hsessions ▸ hs')
    split
    · exact hresident s
    · exact h.resident x s hs
  stored x s' hs' hswapped := by
    obtain ⟨s, hs, rfl⟩ := SessionTable.modify_eq_some (hsessions ▸ hs')
    split at hswapped
    · exact absurd hswapped (hback s)
    · rename_i hx
      rw [hothers x hx]
      exact h.stored x s hs hswapped
  issued x s' hs' := by
    obtain ⟨s, hs, -⟩ := SessionTable.modify_eq_some (hsessions ▸ hs')
    rw [hnext]
    exact h.issued x s hs
  flying sl f hf := by
    have hflying := h.flying sl f (hsame.2 ▸ hf)
    have hx : f.session ≠ id := by
      rintro hx
      simp [hx, hid] at hflying
    rw [SessionTable.holder, hsessions, SessionTable.modify_other _ hx]
    exact hflying

theorem mem_busy (h : Owned cfg reserved e) {slot : ℕ} {f : InFlight} (hf : e.slots slot = some f) :
    f.session ∈ e.busy cfg := by
  have hlt := (h.leased.held _ _ (h.flying slot f hf)).1
  exact List.mem_filterMap.mpr ⟨slot, List.mem_range.mpr hlt, by simp [hf]⟩

theorem Owned.idle (h : Owned cfg reserved e) {id : ℕ} (hid : id ∉ e.busy cfg) : e.Idle id := by
  rintro slot f hf rfl
  exact hid (mem_busy h hf)

theorem Owned.session (h : Owned cfg reserved e) {slot : ℕ} {f : InFlight}
    (hf : e.slots slot = some f) : ∃ s, e.sessions.sessions f.session = some s ∧ s.slot = some slot :=
  SessionTable.holder_eq_some.mp (h.flying slot f hf)

/-- A session has one request at a time. -/
theorem Owned.flying_ne (h : Owned cfg reserved e) {slot sl : ℕ} {f g : InFlight}
    (hf : e.slots slot = some f) (hg : e.slots sl = some g) (hne : sl ≠ slot) :
    g.session ≠ f.session := by
  intro hsame
  have hheld := h.flying sl g hg
  rw [hsame, h.flying slot f hf] at hheld
  exact hne (Option.some.inj hheld).symm

end Engine

def Phase.slot : Phase → Option ℕ
  | .reserved slot => some slot
  | .steady | .opening _ => none

namespace Engine
variable {Cell Rec : Type} {cfg : EngineConfig Cell Rec} {e : Engine Cell Rec}

private theorem Owned.close {reserved : Option ℕ} {id slot : ℕ} {s : Session}
    (h : Owned cfg reserved e) (hs : e.sessions.sessions id = some s) (hslot : s.slot = some slot)
    (hidle : e.Idle id) : Owned cfg reserved (e.close id) := by
  rw [close_eq hs hslot]
  refine h.vacate (SessionTable.holder_eq_some.mpr ⟨s, hs, hslot⟩) ⟨rfl, rfl⟩
    SessionTable.holder_update_none rfl (fun x hx => ⟨Function.update_of_ne hx _ _, rfl⟩)
    (fun s' hs' => ?_) fun sl f hf => ⟨hf, hidle sl f hf⟩
  simp at hs'

private theorem Owned.opened {id : ℕ} {e' : Engine Cell Rec} (h : Owned cfg none e)
    (hopen : e.openSession cfg = (e', .ok id)) : Owned cfg none e' := by
  obtain ⟨slot, pool, adm, -, hacquire, rfl, rfl⟩ := openSession_ok hopen
  obtain ⟨hlt, hfree, rfl⟩ := SlotPool.acquire_eq_some hacquire
  have hfresh : e.sessions.sessions e.sessions.nextId = none := by
    cases hs : e.sessions.sessions e.sessions.nextId with
    | none => rfl
    | some s => exact absurd (h.issued _ s hs) (lt_irrefl _)
  have hholder : e.sessions.holder e.sessions.nextId = none := by
    simp [SessionTable.holder, hfresh]
  have hsessions {x : ℕ} (hx : x ≠ e.sessions.nextId) {y : Option Session} :
      Function.update e.sessions.sessions e.sessions.nextId y x = e.sessions.sessions x :=
    Function.update_of_ne hx _ _
  refine ⟨h.nSlots, ?_, fun x s' hs' => ?_, fun x s' hs' hswapped => ?_, fun x s' hs' => ?_,
    fun sl f hf => ?_⟩
  · convert (h.leased.acquire (h.nSlots ▸ hlt) hfree).grant hholder using 1
    funext x
    simp only [SessionTable.holder, Function.update_apply]
    split <;> rfl
  · by_cases hx : x = e.sessions.nextId
    · subst hx
      simp only [Function.update_self, Option.some.injEq] at hs'
      simp [← hs']
    · exact h.resident x s' (hsessions hx ▸ hs')
  · by_cases hx : x = e.sessions.nextId
    · subst hx
      simp only [Function.update_self, Option.some.injEq] at hs'
      simp [← hs'] at hswapped
    · exact h.stored x s' (hsessions hx ▸ hs') hswapped
  · by_cases hx : x = e.sessions.nextId
    · exact hx ▸ Nat.lt_succ_self _
    · exact (h.issued x s' (hsessions hx ▸ hs')).trans (Nat.lt_succ_self _)
  · have hflying := h.flying sl f hf
    have hx : f.session ≠ e.sessions.nextId := by
      rintro hx
      simp [hx, hholder] at hflying
    simp only [SessionTable.holder, hsessions hx]
    exact hflying

private theorem Owned.beginTurn {reserved : Option ℕ} {id : ℕ} {prompt : List Token} {convo : List ℕ}
    {e' : Engine Cell Rec} {plan : TurnPlan} (h : Owned cfg reserved e)
    (hbegin : e.beginTurn id prompt convo = .ok (e', plan)) : Owned cfg reserved e' := by
  obtain ⟨_, _, -, -, -, rfl⟩ := beginTurn_ok hbegin
  refine h.frame ⟨rfl, rfl⟩ (fun x s' hs' => ?_) (SessionTable.holder_modify fun _ => rfl) rfl rfl
    h.flying
  obtain ⟨s, hs, rfl⟩ := SessionTable.modify_eq_some hs'
  exact ⟨s, hs, by split <;> rfl, by split <;> rfl⟩

/-- Every part of an admission keeps the stores in agreement. -/
theorem Owned.move {phase next : Phase} {outputs : List Output} {e' : Engine Cell Rec}
    (h : Owned cfg phase.slot e) (hm : Move cfg phase e outputs next e') : Owned cfg next.slot e' := by
  cases hm with
  | evict hs hslot hidle hf hothers hparked =>
    refine h.vacate (SessionTable.holder_eq_some.mpr ⟨_, hs, hslot⟩) ⟨rfl, rfl⟩
      (SessionTable.holder_modify_none fun s => (hf s).1) rfl
      (fun x hx => ⟨SessionTable.modify_other _ hx, hothers x hx⟩)
      (fun s' hs' => ?_) fun sl f hf => ⟨hf, hidle sl f hf⟩
    obtain ⟨s, -, rfl⟩ := SessionTable.modify_eq_some hs'
    rw [if_pos rfl]
    refine ⟨by simp [hs], (hf s).1, ?_⟩
    rcases hparked with hcold | ⟨hswapped, hsnap⟩
    · simp [hcold s]
    · exact ⟨by simp [hswapped s], fun _ => ⟨_, hsnap⟩⟩
  | acquire hacquire =>
    obtain ⟨hlt, hfree, rfl⟩ := SlotPool.acquire_eq_some hacquire
    exact ⟨h.nSlots, h.leased.acquire (h.nSlots ▸ hlt) hfree, h.resident, h.stored, h.issued, h.flying⟩
  | release => exact ⟨h.nSlots, h.leased.release, h.resident, h.stored, h.issued, h.flying⟩
  | @restore _ id slot s snap swap hs hslot hcold hsnap hothers =>
    have hholder : e.sessions.holder id = none := by simp [SessionTable.holder, hs, hslot]
    have hgranted : (e.sessions.markResident id slot snap.seqLen).holder =
        Function.update e.sessions.holder id (some slot) :=
      SessionTable.holder_modify_some (fun _ => rfl) hs
    refine h.revise hholder ⟨rfl, rfl⟩ rfl rfl (fun _ => by simp) (fun _ => nofun) hothers ?_
    rw [hgranted]
    exact h.leased.grant hholder
  | @chill _ id slot s memory swap hs hslot _ hmemory hothers =>
    have hholder : e.sessions.holder id = none := by simp [SessionTable.holder, hs, hslot]
    refine h.revise hholder ⟨rfl, rfl⟩ rfl rfl (fun _ => by simp) (fun _ => nofun) hothers ?_
    rw [SessionTable.holder_modify_none fun _ => rfl, Function.update_eq_self_iff.mpr hholder.symm]
    exact h.leased
  | beginTurn hs hidle hrest hbegin => exact h.beginTurn hbegin
  | @turn _ e1 id slot maxTokens s rest convo plan turn hs hslot hidle hrest hbegin hturn =>
    refine (h.beginTurn hbegin).frame ⟨rfl, rfl⟩ (fun x s' hs' => ⟨s', hs', rfl, rfl⟩) rfl rfl rfl
      fun sl f hf => ?_
    simp only [Engine.launch, Function.update_apply] at hf
    split at hf
    · rename_i hsl
      cases hf
      rw [hsl]
      exact SessionTable.holder_eq_some.mpr (beginTurn_session hbegin hs hslot).2
    · exact (h.beginTurn hbegin).flying sl f hf
  | touch =>
    refine h.frame ⟨rfl, rfl⟩ (fun x s' hs' => ?_) (SessionTable.holder_modify fun _ => rfl) rfl rfl
      h.flying
    obtain ⟨s, hs, rfl⟩ := SessionTable.modify_eq_some hs'
    exact ⟨s, hs, by split <;> rfl, by split <;> rfl⟩
  | opened hopen => exact h.opened hopen
  | refuse hopen =>
    rcases openSession_error hopen with ⟨rfl, -⟩ | ⟨adm, -, -, rfl⟩
    · exact h
    · exact ⟨h.nSlots, h.leased, h.resident, h.stored, h.issued, h.flying⟩
  | reset | spoil => exact ⟨h.nSlots, h.leased, h.resident, h.stored, h.issued, h.flying⟩
  | close hphase hs hslot hidle =>
    rcases hphase with rfl | rfl
    · exact h.close hs hslot hidle
    · exact h.close hs hslot hidle
  | reject => exact h

theorem Owned.moves {phase next : Phase} {outputs : List Output} {e' : Engine Cell Rec}
    (h : Owned cfg phase.slot e) (hm : Moves cfg phase e outputs next e') : Owned cfg next.slot e' :=
  hm.invariant (P := fun phase _ e => Owned cfg phase.slot e) (fun _ _ _ _ _ _ h hm => h.move hm) [] h

end Engine

section Admission
variable {Cell Rec : Type} {cfg : EngineConfig Cell Rec}

theorem Moves.single {phase next : Phase} {e e' : Engine Cell Rec} {outputs : List Output}
    (h : Move cfg phase e outputs next e') : Moves cfg phase e outputs next e' :=
  Moves.nil.snoc h

theorem Moves.trans {phase mid next : Phase} {e e' e'' : Engine Cell Rec} {outputs emitted : List Output}
    (h : Moves cfg phase e outputs mid e') (h' : Moves cfg mid e' emitted next e'') :
    Moves cfg phase e (outputs ++ emitted) next e'' := by
  induction h' with
  | nil => rwa [List.append_nil]
  | snoc _ hm ih =>
    rw [← List.append_assoc]
    exact ih.snoc hm

namespace Engine
variable {e : Engine Cell Rec}

/-- Evicting the least recently used idle session always frees its slot. -/
theorem evict_moves (h : Owned cfg none e) (io : EvictIo) {victim : ℕ}
    (hv : e.sessions.lruIdleVictim (e.busy cfg) = some victim) :
    (evict cfg io e victim).2 = true ∧ Moves cfg .steady e [] .steady (evict cfg io e victim).1 ∧
      (evict cfg io e victim).1.slots = e.slots ∧
      ∀ x ≠ victim, (evict cfg io e victim).1.sessions.sessions x = e.sessions.sessions x := by
  obtain ⟨s, slot, hs, hslot, hbusy⟩ := SessionTable.lruIdleVictim_some hv
  obtain ⟨f, swap, heq, hf, hothers, hparked⟩ := evict_spec cfg io hs hslot
  rw [heq]
  refine ⟨rfl, .single (.evict hs hslot (h.idle hbusy) hf hothers hparked), rfl, fun x hx => ?_⟩
  rw [SessionTable.modify_sessions, if_neg hx]

/-- Room for a restore is a slot reserved for it. -/
private theorem makeRoom_moves (h : Owned cfg none e) {io : EvictIo} {existing : ℕ}
    {e' : Engine Cell Rec} {room : Option ℕ}
    (hroom : makeRoom cfg io e (e.busy cfg) existing = (e', room)) :
    Moves cfg .steady e [] (room.elim .steady .reserved) e' ∧ e'.slots = e.slots ∧
      e'.sessions.sessions existing = e.sessions.sessions existing := by
  unfold makeRoom at hroom
  split at hroom
  · rename_i slot pool hacquire
    cases hroom
    exact ⟨.single (.acquire hacquire), rfl, rfl⟩
  · split at hroom
    · cases hroom
      exact ⟨.nil, rfl, rfl⟩
    · rename_i victim hv
      obtain ⟨hvictim, hne⟩ := Option.filter_eq_some_iff.mp hv
      obtain ⟨-, hmoves, hslots, hothers⟩ := evict_moves h io hvictim
      have hother := hothers existing (of_decide_eq_true hne).symm
      dsimp only at hroom
      split at hroom
      · rename_i slot pool hacquire
        cases hroom
        exact ⟨hmoves.snoc (.acquire hacquire), hslots, hother⟩
      · cases hroom
        exact ⟨hmoves, hslots, hother⟩

/-- An attached session holds the slot it was given, with its tokens. -/
private theorem attach_moves (h : Owned cfg none e) {io : AdmitIo Cell Rec} {existing : ℕ}
    {s : Session} (hs : e.sessions.sessions existing = some s) (hcold : s.residency ≠ .cold)
    {e' : Engine Cell Rec} {slot : Option ℕ}
    (hattach : attach cfg io e (e.busy cfg) existing = (e', slot)) :
    Moves cfg .steady e [] .steady e' ∧ e'.slots = e.slots ∧
      ∀ sl, slot = some sl → ∃ s', e'.sessions.sessions existing = some s' ∧ s'.slot = some sl ∧
        s'.tokens = s.tokens := by
  simp only [attach, SessionTable.get, hs, Option.bind_some] at hattach
  split at hattach
  · rename_i sl hslot
    cases hattach
    exact ⟨.nil, rfl, fun _ heq => ⟨s, hs, by rw [hslot, heq], rfl⟩⟩
  · rename_i hslot
    split at hattach
    · rename_i e1 hroom
      cases hattach
      obtain ⟨hmoves, hslots, -⟩ := makeRoom_moves h hroom
      exact ⟨hmoves, hslots, by simp⟩
    · rename_i e1 target hroom
      obtain ⟨hmoves, hslots, hsame⟩ := makeRoom_moves h hroom
      have hs1 : e1.sessions.sessions existing = some s := hsame.trans hs
      obtain ⟨swap, hothers, ⟨snap, hsnap, -, hrestore⟩ | ⟨memory, hmemory, hrestore⟩⟩ :=
        restore_spec cfg io.restore target hs1 hslot
      · rw [hrestore] at hattach
        cases hattach
        refine ⟨hmoves.snoc (.restore hs1 hslot hcold hsnap hothers), hslots, fun sl heq => ?_⟩
        exact ⟨_, SessionTable.markResident_sessions hs1 target snap.seqLen, heq, rfl⟩
      · rw [hrestore] at hattach
        cases hattach
        exact ⟨(hmoves.snoc (.chill hs1 hslot hcold hmemory hothers)).snoc .release, hslots, by simp⟩

private theorem continueTurn_moves (h : Owned cfg none e) {io : AdmitIo Cell Rec} {req : SubmitRequest}
    {e' : Engine Cell Rec} {outputs : Option (List Output)}
    (hcont : continueTurn cfg io e req = (e', outputs)) :
    Moves cfg .steady e (outputs.getD []) .steady e' := by
  unfold continueTurn at hcont
  split at hcont
  · cases hcont
    exact .nil
  rename_i hrest
  split at hcont
  · cases hcont
    exact .nil
  rename_i existing hfound
  obtain ⟨s, hs, hcold, -, hbusy⟩ := SessionTable.findContinuation_some hfound
  dsimp only at hcont
  split at hcont
  · rename_i e1 hattach
    cases hcont
    exact (attach_moves h hs hcold hattach).1
  rename_i e1 slot hattach
  obtain ⟨hmoves, hslots, hheld⟩ := attach_moves h hs hcold hattach
  obtain ⟨s1, hs1, hslot1, htokens⟩ := hheld slot rfl
  have hidle1 : e1.Idle existing := by
    intro sl f hf
    exact h.idle hbusy sl f (hslots ▸ hf)
  simp only [SessionTable.get, hs, Option.map_some, Option.getD_some, ← htokens] at hcont
  split at hcont
  · cases hcont
    exact hmoves
  rename_i e2 plan hbegin
  split at hcont
  · cases hcont
    exact (hmoves.snoc (.turn hs1 hslot1 hidle1 (.inl hrest) hbegin ⟨rfl, rfl, rfl⟩)).snoc .touch
  · cases hcont
    exact hmoves.snoc (.beginTurn hs1 hidle1 (.inl hrest) hbegin)

private theorem openSession_session {e' : Engine Cell Rec} {id : ℕ} (h : Owned cfg none e)
    (hopen : e.openSession cfg = (e', .ok id)) : e'.Idle id ∧
      ∃ s slot, e'.sessions.sessions id = some s ∧ s.slot = some slot ∧ s.tokens = [] ∧
        e'.pool.seqLen slot = 0 := by
  obtain ⟨slot, pool, adm, -, hacquire, rfl, rfl⟩ := openSession_ok hopen
  obtain ⟨-, -, rfl⟩ := SlotPool.acquire_eq_some hacquire
  refine ⟨fun sl f hf hid => ?_, _, slot, Function.update_self _ _ _, rfl, rfl, Function.update_self _ _ _⟩
  obtain ⟨s, hs, -⟩ := h.session hf
  exact absurd (h.issued _ s hs) (by rw [hid]; exact lt_irrefl _)

/-- A session that could be opened is idle, and its slot empty. -/
theorem openOrEvict_moves (h : Owned cfg none e) {io : EvictIo} {e' : Engine Cell Rec}
    {opened : Except RejectReason ℕ} (hopen : openOrEvict cfg io e = (e', opened)) :
    match opened with
    | .error _ => Moves cfg .steady e [] .steady e'
    | .ok id => Moves cfg .steady e [] (.opening id) e' ∧ e'.Idle id ∧
        ∃ s slot, e'.sessions.sessions id = some s ∧ s.slot = some slot ∧ s.tokens = [] ∧
          e'.pool.seqLen slot = 0 := by
  unfold openOrEvict at hopen
  split at hopen
  · rename_i e1 id hfirst
    cases hopen
    exact ⟨.single (.opened hfirst), openSession_session h hfirst⟩
  · rename_i e1 error hfirst
    have hrefused : Moves cfg .steady e [] .steady e1 := .single (.refuse hfirst)
    have h1 : Owned cfg none e1 := h.moves hrefused
    split at hopen
    · cases hopen
      exact hrefused
    · rename_i victim hvictim
      obtain ⟨hok, hevicted, -⟩ := evict_moves h1 io hvictim
      have hmoves := hrefused.trans hevicted
      split at hopen
      · rename_i e2 hevict
        simp [hevict] at hok
      · rename_i e2 hevict
        rw [hevict] at hmoves
        have h2 : Owned cfg none e2 := h.moves hmoves
        split at hopen
        · rename_i e3 id hsecond
          cases hopen
          exact ⟨hmoves.snoc (.opened hsecond), openSession_session h2 hsecond⟩
        · rename_i e3 error' hsecond
          cases hopen
          exact hmoves.snoc (.refuse hsecond)

private theorem freshTurn_moves {io : AdmitIo Cell Rec} {req : SubmitRequest} {id slot : ℕ}
    {s : Session} (hidle : e.Idle id) (hs : e.sessions.sessions id = some s)
    (hslot : s.slot = some slot) (htokens : s.tokens = []) (hlen : e.pool.seqLen slot = 0) :
    Moves cfg (.opening id) e (freshTurn cfg io e req id).2 .steady (freshTurn cfg io e req id).1 := by
  simp only [freshTurn, SessionTable.get, hs, Option.bind_some, hslot]
  split
  · rename_i dn hreset
    refine ((Moves.single (.spoil hs hslot)).snoc (.close (.inr rfl) ?_ hslot hidle)).snoc .reject
    exact hs
  · have hreset : Moves cfg (.opening id) e [] .steady
        { e with memory := e.memory.setDn slot cfg.model.fresh } :=
      .single (.reset hs hslot hidle htokens hlen)
    split
    · exact (hreset.snoc (.close (.inl rfl) hs hslot hidle)).snoc .reject
    · rename_i e2 plan hbegin
      obtain ⟨hslots2, s2, hs2, hslot2⟩ := beginTurn_session hbegin hs hslot
      have hnil : req.promptTokens = s.tokens ++ req.promptTokens := by rw [htokens, List.nil_append]
      rw [hnil] at hbegin
      split
      · rw [hnil]
        exact hreset.snoc (.turn hs hslot hidle (.inr htokens) hbegin ⟨rfl, rfl, rfl⟩)
      · refine (hreset.snoc (.beginTurn hs hidle (.inr htokens) hbegin)).snoc
          (.close (.inl rfl) hs2 hslot2 fun sl f hf => ?_)
        rw [hslots2] at hf
        exact hidle sl f hf

/-- An admission is a sequence of its parts. -/
theorem admitRequest_moves (h : Owned cfg none e) (io : AdmitIo Cell Rec) (req : SubmitRequest) :
    Moves cfg .steady e (admitRequest cfg io e req).2 .steady (admitRequest cfg io e req).1 := by
  unfold admitRequest
  split
  · rename_i e1 outputs hcont
    exact continueTurn_moves h hcont
  · rename_i e1 hcont
    have hmoves : Moves cfg .steady e [] .steady e1 := continueTurn_moves h hcont
    have h1 : Owned cfg none e1 := h.moves hmoves
    split
    · rename_i e2 reason hopen
      exact (hmoves.trans (openOrEvict_moves h1 hopen)).snoc .reject
    · rename_i e2 id hopen
      obtain ⟨hopened, hidle, s, slot, hs, hslot, htokens, hlen⟩ := openOrEvict_moves h1 hopen
      exact (hmoves.trans hopened).trans (freshTurn_moves hidle hs hslot htokens hlen)

end Engine
end Admission

section Stepping
variable {Cell Rec : Type} {cfg : EngineConfig Cell Rec}

namespace Engine
variable {e : Engine Cell Rec}

/-- Ownership does not read lengths, memory or pending work. -/
private theorem Owned.device (h : Owned cfg none e) {e' : Engine Cell Rec}
    (hpool : e'.pool.nSlots = e.pool.nSlots ∧ e'.pool.inUse = e.pool.inUse)
    (hsame : e'.sessions = e.sessions ∧ e'.swap = e.swap ∧ e'.slots = e.slots) : Owned cfg none e' := by
  obtain ⟨hsessions, hswap, hslots⟩ := hsame
  refine h.frame hpool (fun id s' hs' => ⟨s', hsessions ▸ hs', rfl, rfl⟩) (by rw [hsessions])
    (by rw [hsessions]) hswap fun slot f hf => ?_
  rw [hslots] at hf
  exact h.flying slot f hf

/-- The forward pass touches the device and the lengths only. -/
theorem forward_frame {io : StepIo Cell Rec} {rows : List Row} {e' : Engine Cell Rec} {ok : Bool}
    (h : forward cfg io e rows = some (e', ok)) :
    (e'.pool.nSlots = e.pool.nSlots ∧ e'.pool.inUse = e.pool.inUse) ∧
      (e'.sessions = e.sessions ∧ e'.swap = e.swap ∧ e'.slots = e.slots) ∧
      e'.work = e.work ∧ e'.adm = e.adm := by
  unfold forward at h
  split at h
  · cases h
  · split at h
    · cases h
      exact ⟨⟨rfl, rfl⟩, ⟨rfl, rfl, rfl⟩, rfl, rfl⟩
    · cases h
      obtain ⟨hinUse, hn, -⟩ := advanceSlotSeqLens_frame rows e.pool (List.range cfg.nSlots)
      exact ⟨⟨hn, hinUse⟩, ⟨rfl, rfl, rfl⟩, rfl, rfl⟩

theorem Owned.forward (h : Owned cfg none e) {io : StepIo Cell Rec} {rows : List Row}
    {e' : Engine Cell Rec} {ok : Bool} (hforward : forward cfg io (e.scheduled cfg) rows = some (e', ok)) :
    Owned cfg none e' := by
  have hscheduled : Owned cfg none (e.scheduled cfg) := h.device ⟨rfl, rfl⟩ ⟨rfl, rfl, rfl⟩
  obtain ⟨hpool, hsame, -⟩ := forward_frame hforward
  exact hscheduled.device hpool hsame

theorem Owned.clearSlot (h : Owned cfg none e) (slot : ℕ) : Owned cfg none (e.clearSlot slot) :=
  h.frame ⟨rfl, rfl⟩ (fun _ s' hs' => ⟨s', hs', rfl, rfl⟩) rfl rfl rfl
    fun sl f hf => h.flying sl f (clearSlot_eq_some hf).2

theorem Owned.clearSlot_idle (h : Owned cfg none e) {slot : ℕ} {f : InFlight}
    (hf : e.slots slot = some f) : (e.clearSlot slot).Idle f.session := by
  intro sl g hg
  obtain ⟨hne, hg⟩ := clearSlot_eq_some hg
  exact h.flying_ne hf hg hne

/-- Ending a request and closing its session frees its slot. -/
private theorem Owned.closeSlot (h : Owned cfg none e) {slot : ℕ} {f : InFlight}
    (hf : e.slots slot = some f) : Owned cfg none ((e.clearSlot slot).close f.session) := by
  obtain ⟨s, hs, hslot⟩ := h.session hf
  exact (h.clearSlot slot).close hs hslot (h.clearSlot_idle hf)

/-- Ending a request leaves its session in the slot. -/
private theorem Owned.endTurn (h : Owned cfg none e) (slot id : ℕ) :
    Owned cfg none { e.clearSlot slot with sessions := e.sessions.touch id } := by
  refine (h.clearSlot slot).frame ⟨rfl, rfl⟩ (fun x s' hs' => ?_) SessionTable.holder_touch rfl rfl
    (h.clearSlot slot).flying
  obtain ⟨s, hs, rfl⟩ := SessionTable.modify_eq_some hs'
  exact ⟨s, hs, by split <;> rfl, by split <;> rfl⟩

private theorem Owned.queueToken (h : Owned cfg none e) {slot : ℕ} {f : InFlight} (token : Token)
    (hf : e.slots slot = some f) : Owned cfg none (e.queueToken slot f token) := by
  refine h.frame ⟨rfl, rfl⟩ (fun x s' hs' => ?_) ?_ rfl rfl fun sl f' hf' => ?_
  · obtain ⟨s1, hs1, rfl⟩ := SessionTable.modify_eq_some hs'
    obtain ⟨s, hs, rfl⟩ := SessionTable.modify_eq_some hs1
    exact ⟨s, hs, by split <;> rfl, by split <;> rfl⟩
  · exact SessionTable.holder_touch.trans (SessionTable.holder_modify fun _ => rfl)
  · simp only [Engine.queueToken, Function.update_apply] at hf'
    split at hf'
    · rename_i hsl
      cases hf'
      rw [hsl]
      exact h.flying slot f hf
    · exact h.flying sl f' hf'

theorem Owned.sampleSlot (h : Owned cfg none e) (io : StepIo Cell Rec) (slot : ℕ) :
    Owned cfg none (sampleSlot cfg io e slot).1 := by
  rcases sampleSlot_cases cfg io e slot with ⟨heq, -⟩ | ⟨f, e', outputs, hf, -, heq, hsampled⟩
  · rw [heq]
    exact h
  · rw [heq]
    cases hsampled with
    | gone => exact h.closeSlot hf
    | eos | maxTokens => exact h.endTurn slot f.session
    | queued => exact h.queueToken _ hf

theorem Owned.abortSlot (h : Owned cfg none e) (slot : ℕ) : Owned cfg none (abortSlot e slot).1 := by
  rcases abortSlot_cases e slot with ⟨heq, -⟩ | ⟨f, hf, heq⟩
  · rw [heq]
    exact h
  · rw [heq]
    exact h.closeSlot hf

/-- A failed forward ends every request. -/
theorem Owned.aborted (h : Owned cfg none e) (slot : ℕ) :
    (forSlots Engine.abortSlot e (List.range cfg.nSlots)).1.slots slot = none := by
  rw [forSlots_abort_slots]
  split
  · rfl
  · rename_i hout
    cases hf : e.slots slot with
    | none => rfl
    | some f => exact absurd (List.mem_range.mpr (h.leased.held _ _ (h.flying slot f hf)).1) hout

/-- Every action of the loop keeps the stores in agreement. -/
theorem Owned.act (h : Owned cfg none e) {action : Action Cell Rec} {e' : Engine Cell Rec}
    {outputs : List Output} (hact : act cfg e action = some (e', outputs)) : Owned cfg none e' := by
  cases action with
  | request io req =>
    have hmoves := admitRequest_moves h io req
    rw [Option.some.inj hact] at hmoves
    exact h.moves hmoves
  | step io =>
    simp only [Engine.act] at hact
    split at hact
    · rcases step_cases hact with ⟨-, rfl, -⟩ | ⟨-, e1, hforward, hslots⟩ | ⟨-, e1, hforward, hrest⟩
      · exact h.device ⟨rfl, rfl⟩ ⟨rfl, rfl, rfl⟩
      · have hswept := forSlots_invariant (P := fun _ e => Owned cfg none e)
          (fun _ _ slot h => h.abortSlot slot) (List.range cfg.nSlots) [] (h.forward hforward)
        rw [← hslots] at hswept
        exact hswept
      · rcases hrest with ⟨rfl, -⟩ | ⟨-, hslots⟩
        · exact (h.forward hforward).device ⟨rfl, rfl⟩ ⟨rfl, rfl, rfl⟩
        · have hswept := forSlots_invariant (P := fun _ e => Owned cfg none e)
            (fun _ _ slot h => h.sampleSlot io slot) (List.range cfg.nSlots) [] (h.forward hforward)
          rw [← hslots] at hswept
          exact hswept
    · cases hact

end Engine
end Stepping

section Identifiers
variable {Cell Rec : Type} {cfg : EngineConfig Cell Rec}

/-- Issued identifiers that are free stay free. -/
def SessionTable.Retires (t t' : SessionTable) : Prop :=
  t.nextId ≤ t'.nextId ∧ ∀ id < t.nextId, t.sessions id = none → t'.sessions id = none

namespace SessionTable
variable {t t' t'' : SessionTable}

theorem Retires.refl (t : SessionTable) : t.Retires t := ⟨le_rfl, fun _ _ h => h⟩

theorem Retires.trans (h : t.Retires t') (h' : t'.Retires t'') : t.Retires t'' :=
  ⟨h.1.trans h'.1, fun id hid hnone => h'.2 id (hid.trans_le h.1) (h.2 id hid hnone)⟩

theorem retires_modify (t : SessionTable) (id : ℕ) (f : Session → Session) : t.Retires (t.modify id f) := by
  refine ⟨le_rfl, fun x _ hnone => ?_⟩
  rw [modify_sessions]
  split
  · rename_i hx
    rw [← hx, hnone]
    rfl
  · exact hnone

theorem retires_close (t : SessionTable) (pool : SlotPool) (adm : AdmissionController) (id : ℕ) :
    t.Retires (t.close pool adm id).1 := by
  unfold close
  split
  · exact .refl t
  · refine ⟨le_rfl, fun x _ hnone => ?_⟩
    simp only [Function.update_apply]
    split
    · rfl
    · exact hnone

end SessionTable

namespace Engine
variable {e e' : Engine Cell Rec}

private theorem retires_move {phase next : Phase} {outputs : List Output}
    (hm : Move cfg phase e outputs next e') : e.sessions.Retires e'.sessions := by
  cases hm with
  | evict | chill => exact SessionTable.retires_modify _ _ _
  | acquire | release | reset | spoil | reject => exact .refl _
  | restore => exact SessionTable.retires_modify _ _ _
  | touch => exact SessionTable.retires_modify _ _ _
  | beginTurn _ _ _ hbegin =>
    obtain ⟨_, _, -, -, -, rfl⟩ := beginTurn_ok hbegin
    exact SessionTable.retires_modify _ _ _
  | turn _ _ _ _ hbegin =>
    obtain ⟨_, _, -, -, -, rfl⟩ := beginTurn_ok hbegin
    exact SessionTable.retires_modify _ _ _
  | opened hopen =>
    obtain ⟨slot, pool, adm, -, -, rfl, rfl⟩ := openSession_ok hopen
    exact ⟨Nat.le_succ _, fun x hx hnone => (Function.update_of_ne hx.ne _ _).trans hnone⟩
  | refuse hopen =>
    rcases openSession_error hopen with ⟨rfl, -⟩ | ⟨adm, -, -, rfl⟩
    · exact .refl _
    · exact .refl _
  | close => exact SessionTable.retires_close _ _ _ _

private theorem retires_sampleSlot (cfg : EngineConfig Cell Rec) (io : StepIo Cell Rec) (slot : ℕ) :
    e.sessions.Retires (sampleSlot cfg io e slot).1.sessions := by
  rcases sampleSlot_cases cfg io e slot with ⟨heq, -⟩ | ⟨f, e', outputs, hf, -, heq, hsampled⟩
  · rw [heq]
    exact .refl _
  · rw [heq]
    cases hsampled with
    | gone => exact SessionTable.retires_close _ _ _ _
    | eos | maxTokens => exact SessionTable.retires_modify _ _ _
    | queued => exact (SessionTable.retires_modify _ _ _).trans (SessionTable.retires_modify _ _ _)

private theorem retires_abortSlot (slot : ℕ) : e.sessions.Retires (abortSlot e slot).1.sessions := by
  rcases abortSlot_cases e slot with ⟨heq, -⟩ | ⟨f, hf, heq⟩
  · rw [heq]
    exact .refl _
  · rw [heq]
    exact SessionTable.retires_close _ _ _ _

private theorem retires_act (h : Owned cfg none e) {action : Action Cell Rec} {outputs : List Output}
    (hact : act cfg e action = some (e', outputs)) : e.sessions.Retires e'.sessions := by
  cases action with
  | request io req =>
    have hmoves := (admitRequest_moves h io req).invariant
      (P := fun _ _ later => e.sessions.Retires later.sessions)
      (fun _ _ _ _ _ _ hr hm => hr.trans (retires_move hm)) [] (.refl _)
    rwa [Option.some.inj hact] at hmoves
  | step io =>
    simp only [Engine.act] at hact
    split at hact
    · rcases step_cases hact with ⟨-, rfl, -⟩ | ⟨-, e1, hforward, hslots⟩ | ⟨-, e1, hforward, hrest⟩
      · exact .refl _
      · obtain ⟨-, ⟨hsame, -⟩, -⟩ := forward_frame hforward
        have hswept := forSlots_invariant (P := fun _ later => e1.sessions.Retires later.sessions)
          (fun _ _ slot hr => hr.trans (retires_abortSlot slot)) (List.range cfg.nSlots) [] (.refl _)
        rw [← hslots, hsame] at hswept
        exact hswept
      · obtain ⟨-, ⟨hsame, -⟩, -⟩ := forward_frame hforward
        rcases hrest with ⟨rfl, -⟩ | ⟨-, hslots⟩
        · rw [synchronize, hsame]
          exact .refl _
        · have hswept := forSlots_invariant (P := fun _ later => e1.sessions.Retires later.sessions)
            (fun _ _ slot hr => hr.trans (retires_sampleSlot cfg io slot)) (List.range cfg.nSlots) []
            (.refl _)
          rw [← hslots, hsame] at hswept
          exact hswept
    · cases hact

end Engine
end Identifiers

namespace Engine
variable {Cell Rec : Type}

theorem Reaches.owned {cfg : EngineConfig Cell Rec} {guard : Engine Cell Rec → Action Cell Rec → Prop}
    {memory : DeviceMemory Cell Rec} {actions : List (Action Cell Rec)} {outputs : List Output}
    {e : Engine Cell Rec} (h : Reaches cfg guard memory actions outputs e) : Owned cfg none e :=
  Runs.state_invariant (start_owned memory) (fun _ _ _ _ ho _ hact => ho.act hact) h

/-- Slot ownership in every reachable state, whatever fails on the way: a slot
is in use exactly when one session holds it, requests in flight sit on their
session's slot, resident sessions are those with a slot, swapped sessions have a
snapshot, and closed identifiers never come back. -/
theorem reachable_owned (cfg : EngineConfig Cell Rec) (memory : DeviceMemory Cell Rec)
    (actions : List (Action Cell Rec)) (outputs : List Output) (e : Engine Cell Rec)
    (h : Reaches cfg (fun _ _ => True) memory actions outputs e) :
    (∀ slot < cfg.nSlots, e.pool.inUse slot = true ↔
      ∃! id, ∃ s, e.sessions.get id = some s ∧ s.slot = some slot) ∧
    (∀ slot f, e.slots slot = some f →
      ∃ s, e.sessions.get f.session = some s ∧ s.slot = some slot) ∧
    (∀ id s, e.sessions.get id = some s → (s.residency = .resident ↔ s.slot.isSome)) ∧
    (∀ id s, e.sessions.get id = some s → s.residency = .swapped → (e.swap.entries id).isSome) ∧
    (∀ id s, e.sessions.get id = some s → id < e.sessions.nextId) ∧
    (∀ actions' outputs' later, Runs (act cfg) (fun _ _ => True) e actions' outputs' later →
      e.sessions.nextId ≤ later.sessions.nextId ∧
      ∀ id < e.sessions.nextId, e.sessions.get id = none → later.sessions.get id = none) := by
  have ho := h.owned
  refine ⟨fun slot hslot => ?_, fun slot f hf => ho.session hf, ho.resident, fun id s hs hswapped => ?_,
    ho.issued, fun actions' outputs' later hlater => ?_⟩
  · rw [ho.leased.inUse_iff hslot]
    exact existsUnique_congr fun id => SessionTable.holder_eq_some
  · obtain ⟨snap, hsnap⟩ := ho.stored id s hs hswapped
    cases hentry : e.swap.entries id with
    | none => simp [SwapStore.lookup, hentry] at hsnap
    | some entry => rfl
  · have hpair := Runs.state_invariant
      (P := fun later => Owned cfg none later ∧ e.sessions.Retires later.sessions)
      ⟨ho, .refl _⟩ (fun _ _ _ _ hp _ hact => ⟨hp.1.act hact, hp.2.trans (retires_act hp.1 hact)⟩) hlater
    exact hpair.2

section Example

/-- Cells remember how far and what was fed; the recurrent state sums it up. -/
def countingModel : Model ℕ ℕ where
  fresh := 0
  feed kv dn token := (kv.length + token.toNat, dn + token.toNat)
  isTerminator token := token = 0

/-- One slot of eight tokens, with room for the weights and one session. -/
def oneSlot : EngineConfig ℕ ℕ where
  model := countingModel
  nSlots := 1
  capTokens := 8
  hostBudgetBytes := 1024
  footprint := ⟨1024, 64⟩
  dnBytes := 16

def fineFile : FileIo := ⟨true, true, false, true⟩

def fineAdmit : AdmitIo ℕ ℕ := ⟨⟨true, fineFile⟩, ⟨fineFile, none⟩, ⟨true, fineFile⟩, none, true⟩

def fineStep (token : Token) : StepIo ℕ ℕ := ⟨none, none, true, true, fun _ => token, fun _ => true⟩

def blank : DeviceMemory ℕ ℕ := ⟨fun _ => 0, fun _ => 0⟩

def ask (prompt : List Token) (maxTokens : ℕ) : SubmitRequest := ⟨prompt, [7], [], maxTokens⟩

/-- A second conversation evicts the first from the only slot. -/
theorem secondConversation_owned : ∃ outputs e, Reaches oneSlot (fun _ _ => True) blank
      [.request fineAdmit (ask [1, 2] 1), .step (fineStep 3), .request fineAdmit (ask [4] 1)] outputs e ∧
    ((e.sessions.get 0).map Session.residency = some .swapped ∧ (e.swap.entries 0).isSome) ∧
    (e.pool.inUse 0 = true ↔ ∃! id, ∃ s, e.sessions.get id = some s ∧ s.slot = some 0) := by
  have hrun : ∃ outputs e, Reaches oneSlot (fun _ _ => True) blank
      [.request fineAdmit (ask [1, 2] 1), .step (fineStep 3), .request fineAdmit (ask [4] 1)] outputs e ∧
      (e.sessions.get 0).map Session.residency = some .swapped :=
    ⟨_, _, ((Runs.nil.snoc trivial rfl).snoc trivial rfl).snoc trivial rfl, rfl⟩
  obtain ⟨outputs, e, h, hswapped⟩ := hrun
  obtain ⟨hinUse, -, -, hstored, -⟩ := reachable_owned oneSlot blank _ outputs e h
  obtain ⟨s, hs, hres⟩ := Option.map_eq_some_iff.mp hswapped
  exact ⟨outputs, e, h, ⟨hswapped, hstored 0 s hs hres⟩, hinUse 0 (by decide)⟩

end Example
end Engine
end Hipscope.Serve
