import Hipscope.Serve.Batches
import Hipscope.Serve.Ownership

/-! The tokens of a session are authoritative: its slot holds what feeding them
from a fresh slot gives, as long as no row leaves its slab and no kernel fails
behind a forward that went through. -/
namespace Hipscope.Serve
open Machine

/-- The session being opened, whose recurrent state is not reset yet. -/
def Phase.Opens : Phase → ℕ → Prop
  | .opening id, x => x = id
  | .steady, _ | .reserved _, _ => False

section Mirrored
variable {Cell Rec : Type} {cfg : EngineConfig Cell Rec}

namespace Engine
variable {e : Engine Cell Rec} {exempt : ℕ → Prop}

/-- KV and recurrent states mirror the tokens, in slots and in snapshots, and
pending work is what the slot has not been fed yet. -/
structure Mirrored (cfg : EngineConfig Cell Rec) (exempt : ℕ → Prop) (e : Engine Cell Rec) : Prop where
  live : ∀ id s slot, e.sessions.sessions id = some s → s.slot = some slot → ¬exempt id →
    Mirrors cfg.model e.pool.capTokens slot e.memory (e.pool.seqLen slot) s.tokens
  parked : ∀ id s, e.sessions.sessions id = some s → s.residency = .swapped →
    ∀ snap, e.swap.lookup id = some snap → snap.Of cfg.model e.pool.capTokens s.tokens
  pending : ∀ slot f s, e.slots slot = some f → e.sessions.sessions f.session = some s →
    ¬exempt f.session → (e.work slot).nextPos = e.pool.seqLen slot ∧
      s.tokens.drop (e.pool.seqLen slot) = (e.work slot).remainingPrompt
  quiet : ∀ slot, e.slots slot = none → (e.work slot).remainingPrompt = []

theorem start_mirrored (memory : DeviceMemory Cell Rec) :
    Mirrored cfg (fun _ => False) (start cfg memory) where
  live id s slot h := by simp [start, SessionTable.empty] at h
  parked id s h := by simp [start, SessionTable.empty] at h
  pending slot f s h := by cases h
  quiet slot _ := rfl

/-- Sessions that keep their slot, tokens and snapshot keep their mirror. -/
private theorem Mirrored.frame (h : Mirrored cfg exempt e) {e' : Engine Cell Rec} {exempt' : ℕ → Prop}
    (hcap : e'.pool.capTokens = e.pool.capTokens)
    (hlive : ∀ id s' slot, e'.sessions.sessions id = some s' → s'.slot = some slot → ¬exempt' id →
      Mirrors cfg.model e.pool.capTokens slot e'.memory (e'.pool.seqLen slot) s'.tokens ∨
        ∃ s, e.sessions.sessions id = some s ∧ s.slot = some slot ∧ s'.tokens = s.tokens ∧
          ¬exempt id ∧ SlotFrame e.pool.capTokens slot e.memory e'.memory ∧
          e'.pool.seqLen slot = e.pool.seqLen slot)
    (hparked : ∀ id s', e'.sessions.sessions id = some s' → s'.residency = .swapped →
      (∀ snap, e'.swap.lookup id = some snap → snap.Of cfg.model e.pool.capTokens s'.tokens) ∨
        ∃ s, e.sessions.sessions id = some s ∧ s.residency = .swapped ∧ s'.tokens = s.tokens ∧
          e'.swap.lookup id = e.swap.lookup id)
    (hpending : ∀ slot f s', e'.slots slot = some f → e'.sessions.sessions f.session = some s' →
      ¬exempt' f.session → ((e'.work slot).nextPos = e'.pool.seqLen slot ∧
        s'.tokens.drop (e'.pool.seqLen slot) = (e'.work slot).remainingPrompt) ∨
        ∃ s, e.slots slot = some f ∧ e.sessions.sessions f.session = some s ∧
          s'.tokens = s.tokens ∧ ¬exempt f.session ∧
          e'.pool.seqLen slot = e.pool.seqLen slot ∧ e'.work slot = e.work slot)
    (hquiet : ∀ slot, e'.slots slot = none → (e'.work slot).remainingPrompt = []) :
    Mirrored cfg exempt' e' where
  live id s' slot hs' hslot hex := by
    rw [hcap]
    rcases hlive id s' slot hs' hslot hex with hm | ⟨s, hs, hsl, htokens, hex', hframe, hlen⟩
    · exact hm
    · rw [htokens, hlen]
      exact (h.live id s slot hs hsl hex').frame hframe
  parked id s' hs' hswapped := by
    rw [hcap]
    rcases hparked id s' hs' hswapped with hsnap | ⟨s, hs, hres, htokens, hlookup⟩
    · exact hsnap
    · rw [htokens, hlookup]
      exact h.parked id s hs hres
  pending slot f s' hf hs' hex := by
    rcases hpending slot f s' hf hs' hex with hp | ⟨s, hf', hs, htokens, hex', hlen, hwork⟩
    · exact hp
    · rw [htokens, hlen, hwork]
      exact h.pending slot f s hf' hs hex'
  quiet := hquiet

/-- A change to one session and one slot leaves the mirrors of all others. -/
private theorem Mirrored.elsewhere {reserved : Option ℕ} (ho : Owned cfg reserved e)
    (h : Mirrored cfg exempt e) {e' : Engine Cell Rec} {exempt' : ℕ → Prop} {id slot : ℕ}
    (hcap : e'.pool.capTokens = e.pool.capTokens)
    (hfree : ∀ x ≠ id, e.sessions.holder x ≠ some slot)
    (hexempt : ∀ x ≠ id, exempt x → exempt' x)
    (hothers : ∀ x ≠ id, e'.sessions.sessions x = e.sessions.sessions x ∧
      e'.swap.lookup x = e.swap.lookup x)
    (hdevice : ∀ sl ≠ slot, SlotFrame e.pool.capTokens sl e.memory e'.memory ∧
      e'.pool.seqLen sl = e.pool.seqLen sl ∧ e'.work sl = e.work sl)
    (hslots : ∀ sl f, f.session ≠ id → e'.slots sl = some f → e.slots sl = some f)
    (hlive : ∀ s' sl, e'.sessions.sessions id = some s' → s'.slot = some sl → ¬exempt' id →
      Mirrors cfg.model e.pool.capTokens sl e'.memory (e'.pool.seqLen sl) s'.tokens)
    (hparked : ∀ s', e'.sessions.sessions id = some s' → s'.residency = .swapped →
      ∀ snap, e'.swap.lookup id = some snap → snap.Of cfg.model e.pool.capTokens s'.tokens)
    (hpending : ∀ sl f s', e'.slots sl = some f → f.session = id →
      e'.sessions.sessions id = some s' → ¬exempt' id → (e'.work sl).nextPos = e'.pool.seqLen sl ∧
        s'.tokens.drop (e'.pool.seqLen sl) = (e'.work sl).remainingPrompt)
    (hquiet : ∀ sl, e'.slots sl = none → (e'.work sl).remainingPrompt = []) :
    Mirrored cfg exempt' e' := by
  refine h.frame hcap (fun x s' sl hs' hsl hex => ?_) (fun x s' hs' hswapped => ?_)
    (fun sl f s' hf hs' hex => ?_) hquiet
  · by_cases hx : x = id
    · subst hx
      exact .inl (hlive s' sl hs' hsl hex)
    · rw [(hothers x hx).1] at hs'
      have hne : sl ≠ slot := by
        rintro rfl
        exact hfree x hx (SessionTable.holder_eq_some.mpr ⟨s', hs', hsl⟩)
      obtain ⟨hframe, hlen, -⟩ := hdevice sl hne
      exact .inr ⟨s', hs', hsl, rfl, fun hx' => hex (hexempt x hx hx'), hframe, hlen⟩
  · by_cases hx : x = id
    · subst hx
      exact .inl (hparked s' hs' hswapped)
    · exact .inr ⟨s', (hothers x hx).1 ▸ hs', hswapped, rfl, (hothers x hx).2⟩
  · by_cases hx : f.session = id
    · rw [hx] at hs' hex
      exact .inl (hpending sl f s' hf hx hs' hex)
    · have hf' := hslots sl f hx hf
      have hne : sl ≠ slot := by
        rintro rfl
        exact hfree f.session hx (ho.flying sl f hf')
      obtain ⟨-, hlen, hwork⟩ := hdevice sl hne
      exact .inr ⟨s', hf', (hothers _ hx).1 ▸ hs', rfl, fun hx' => hex (hexempt _ hx hx'), hlen, hwork⟩

section Admission
variable {id slot : ℕ} {s : Session}

/-- The slots of other sessions. -/
private theorem Owned.others {reserved : Option ℕ} (ho : Owned cfg reserved e)
    (hs : e.sessions.sessions id = some s) (hslot : s.slot = some slot) :
    ∀ x ≠ id, e.sessions.holder x ≠ some slot := by
  intro x hx hheld
  exact hx (ho.leased.unique x id slot hheld (SessionTable.holder_eq_some.mpr ⟨s, hs, hslot⟩))

private theorem Owned.reserved (ho : Owned cfg (some slot) e) (x : ℕ) : e.sessions.holder x ≠ some slot :=
  fun hheld => (ho.leased.held x slot hheld).2.2 rfl

private theorem Owned.acquired (ho : Owned cfg none e) {pool : SlotPool}
    (hacquire : e.pool.acquire = some (slot, pool)) (x : ℕ) : e.sessions.holder x ≠ some slot := by
  obtain ⟨-, hfree, -⟩ := SlotPool.acquire_eq_some hacquire
  intro hheld
  simp [(ho.leased.held x slot hheld).2.1] at hfree

private theorem Owned.resident_of_slot {reserved : Option ℕ} (ho : Owned cfg reserved e)
    (hs : e.sessions.sessions id = some s) (hslot : s.slot = some slot) : s.residency = .resident :=
  (ho.resident id s hs).mpr (by rw [hslot]; rfl)

/-- A session without a slot that is not cold has been swapped out. -/
private theorem Owned.swapped {reserved : Option ℕ} (ho : Owned cfg reserved e)
    (hs : e.sessions.sessions id = some s) (hslot : s.slot = none) (hcold : s.residency ≠ .cold) :
    s.residency = .swapped := by
  have hres := ho.resident id s hs
  cases hr : s.residency with
  | resident => simp [hr, hslot] at hres
  | swapped => rfl
  | cold => exact absurd hr hcold

/-- No request belongs to a session without a slot. -/
private theorem Owned.grounded {reserved : Option ℕ} (ho : Owned cfg reserved e)
    (hs : e.sessions.sessions id = some s) (hslot : s.slot = none) : e.Idle id := by
  intro sl f hf hid
  have hflying := ho.flying sl f hf
  simp [hid, SessionTable.holder, hs, hslot] at hflying

/-- A turn keeps all the slot holds: it only ever appends to the tokens. -/
theorem Mirrored.reused (h : Mirrored cfg exempt e) {rest : List Token}
    {convo : List ℕ} {e' : Engine Cell Rec} {plan : TurnPlan} (hs : e.sessions.sessions id = some s)
    (hslot : s.slot = some slot) (hex : ¬exempt id) (hrest : rest ≠ [] ∨ s.tokens = [])
    (hbegin : e.beginTurn id (s.tokens ++ rest) convo = .ok (e', plan)) :
    plan.reused = e.pool.seqLen slot := by
  obtain ⟨s₀, slot₀, hs₀, hslot₀, rfl, -⟩ := beginTurn_ok hbegin
  obtain rfl := Option.some.inj (hs₀.symm.trans hs)
  obtain rfl := Option.some.inj (hslot₀.symm.trans hslot)
  have hheld := (h.live id s₀ slot₀ hs hslot hex).held
  rcases hrest with hrest | hempty
  · exact planTurn_append hheld hrest
  · rw [hempty, planTurn_nil]
    rw [hempty] at hheld
    exact (Nat.le_zero.mp hheld).symm

private theorem Mirrored.beginTurn {reserved : Option ℕ} (ho : Owned cfg reserved e)
    (h : Mirrored cfg exempt e) {rest : List Token} {convo : List ℕ} {e' : Engine Cell Rec}
    {plan : TurnPlan} (hs : e.sessions.sessions id = some s) (hslot : s.slot = some slot)
    (hidle : e.Idle id) (hex : ¬exempt id) (hrest : rest ≠ [] ∨ s.tokens = [])
    (hbegin : e.beginTurn id (s.tokens ++ rest) convo = .ok (e', plan)) : Mirrored cfg exempt e' := by
  have hreused := h.reused hs hslot hex hrest hbegin
  obtain ⟨s₀, slot₀, hs₀, hslot₀, -, rfl⟩ := beginTurn_ok hbegin
  obtain rfl := Option.some.inj (hs₀.symm.trans hs)
  obtain rfl := Option.some.inj (hslot₀.symm.trans hslot)
  rw [hreused]
  refine h.elsewhere ho rfl (ho.others hs hslot) (fun _ _ hx => hx)
    (fun x hx => ⟨SessionTable.modify_other _ hx, rfl⟩)
    (fun sl hne => ⟨.refl _, Function.update_of_ne hne _ _, rfl⟩) (fun _ _ _ hf => hf)
    (fun s' sl hs' hsl hex' => ?_) (fun s' hs' hswapped => ?_)
    (fun sl f s' hf hid => absurd hid (hidle sl f hf)) h.quiet
  · rw [SessionTable.modify_self hs] at hs'
    cases hs'
    obtain rfl := Option.some.inj (hslot.symm.trans hsl)
    dsimp only
    rw [Function.update_self]
    exact (h.live id s₀ slot₀ hs hslot hex).extend rest
  · rw [SessionTable.modify_self hs] at hs'
    cases hs'
    cases (ho.resident_of_slot hs hslot).symm.trans hswapped

/-- The slot reserved for a restore, or just taken from the pool, is nobody's. -/
private theorem Mirrored.unheld (h : Mirrored cfg exempt e) {pool : SlotPool}
    (hcap : pool.capTokens = e.pool.capTokens) (hfree : ∀ x, e.sessions.holder x ≠ some slot)
    (hpool : ∀ sl ≠ slot, pool.seqLen sl = e.pool.seqLen sl) {reserved : Option ℕ}
    (ho : Owned cfg reserved e) : Mirrored cfg exempt { e with pool } := by
  refine h.frame hcap (fun x s' sl hs' hsl hex => .inr ⟨s', hs', hsl, rfl, hex, .refl _, hpool sl ?_⟩)
    (fun x s' hs' hswapped => .inr ⟨s', hs', hswapped, rfl, rfl⟩)
    (fun sl f s' hf hs' hex => .inr ⟨s', hf, hs', rfl, hex, hpool sl ?_, rfl⟩) h.quiet
  · rintro rfl
    exact hfree x (SessionTable.holder_eq_some.mpr ⟨s', hs', hsl⟩)
  · rintro rfl
    exact hfree f.session (ho.flying sl f hf)

private theorem Mirrored.close {reserved : Option ℕ} (ho : Owned cfg reserved e)
    (h : Mirrored cfg exempt e) {exempt' : ℕ → Prop} (hs : e.sessions.sessions id = some s)
    (hslot : s.slot = some slot) (hidle : e.Idle id) (hexempt : ∀ x ≠ id, exempt x → exempt' x) :
    Mirrored cfg exempt' (e.close id) := by
  rw [close_eq hs hslot]
  refine h.elsewhere ho rfl (ho.others hs hslot) hexempt
    (fun x hx => ⟨Function.update_of_ne hx _ _, rfl⟩)
    (fun sl hne => ⟨.refl _, Function.update_of_ne hne _ _, rfl⟩) (fun _ _ _ hf => hf)
    (fun s' sl hs' => ?_) (fun s' hs' => ?_)
    (fun sl f s' hf hid => absurd hid (hidle sl f hf)) h.quiet
  · simp at hs'
  · simp at hs'

/-- When a session was last used is not part of its mirror. -/
private theorem Mirrored.touch (h : Mirrored cfg exempt e) (id : ℕ) :
    Mirrored cfg exempt { e with sessions := e.sessions.touch id } := by
  have hsame {x : ℕ} {s' : Session} (hs' : (e.sessions.touch id).sessions x = some s') :
      ∃ s, e.sessions.sessions x = some s ∧ s'.slot = s.slot ∧ s'.tokens = s.tokens ∧
        s'.residency = s.residency := by
    obtain ⟨s, hs, rfl⟩ := SessionTable.modify_eq_some hs'
    exact ⟨s, hs, by split <;> rfl, by split <;> rfl, by split <;> rfl⟩
  refine h.frame rfl (fun x s' sl hs' hsl hex => .inr ?_) (fun x s' hs' hswapped => .inr ?_)
    (fun sl f s' hf hs' hex => .inr ?_) h.quiet
  · obtain ⟨s, hs, hslot, htokens, -⟩ := hsame hs'
    exact ⟨s, hs, hslot ▸ hsl, htokens, hex, .refl _, rfl⟩
  · obtain ⟨s, hs, -, htokens, hres⟩ := hsame hs'
    exact ⟨s, hs, hres ▸ hswapped, htokens, rfl⟩
  · obtain ⟨s, hs, -, htokens, -⟩ := hsame hs'
    exact ⟨s, hf, hs, htokens, hex, rfl, rfl⟩

/-- A parked session keeps its mirror as a snapshot. -/
private theorem Mirrored.evict (ho : Owned cfg none e) (h : Mirrored cfg exempt e) {f : Session → Session}
    {swap : SwapStore (SlotSnapshot Cell Rec)} (hs : e.sessions.sessions id = some s)
    (hslot : s.slot = some slot) (hidle : e.Idle id) (hex : ¬exempt id)
    (hf : ∀ x, (f x).slot = none ∧ (f x).tokens = x.tokens ∧ (f x).grantedCtx = x.grantedCtx)
    (hothers : ∀ x ≠ id, swap.lookup x = e.swap.lookup x)
    (hparked : (∀ x, (f x).residency = .cold) ∨ (∀ x, (f x).residency = .swapped) ∧
      swap.lookup id = some (captureSlot e.pool e.memory slot s.tokens)) :
    Mirrored cfg exempt
      { e with sessions := e.sessions.modify id f, pool := e.pool.release slot, swap } := by
  refine h.elsewhere ho rfl (ho.others hs hslot) (fun _ _ hx => hx)
    (fun x hx => ⟨SessionTable.modify_other _ hx, hothers x hx⟩)
    (fun sl hne => ⟨.refl _, Function.update_of_ne hne _ _, rfl⟩) (fun _ _ _ hf => hf)
    (fun s' sl hs' hsl => ?_) (fun s' hs' hswapped snap hsnap => ?_)
    (fun sl f s' hf hid => absurd hid (hidle sl f hf)) h.quiet
  · rw [SessionTable.modify_self hs] at hs'
    cases hs'
    simp [(hf s).1] at hsl
  · rw [SessionTable.modify_self hs] at hs'
    cases hs'
    rcases hparked with hcold | ⟨-, hcaptured⟩
    · simp [hcold s] at hswapped
    · obtain rfl := Option.some.inj (hcaptured.symm.trans hsnap)
      rw [(hf s).2.1]
      exact (h.live id s slot hs hslot hex).capture s.tokens

/-- A restored snapshot is a mirror again, in whichever slot. -/
private theorem Mirrored.restore (ho : Owned cfg (some slot) e) (h : Mirrored cfg exempt e)
    {snap : SlotSnapshot Cell Rec} {swap : SwapStore (SlotSnapshot Cell Rec)}
    (hs : e.sessions.sessions id = some s) (hslot : s.slot = none) (hcold : s.residency ≠ .cold)
    (hsnap : e.swap.lookup id = some snap) (hothers : ∀ x ≠ id, swap.lookup x = e.swap.lookup x) :
    Mirrored cfg exempt { e with
      swap
      pool := { e.pool with seqLen := Function.update e.pool.seqLen slot snap.seqLen }
      memory := e.memory.load e.pool.capTokens slot snap
      sessions := e.sessions.markResident id slot snap.seqLen } := by
  have hof := h.parked id s hs (ho.swapped hs hslot hcold) snap hsnap
  refine h.elsewhere ho rfl (fun x _ => ho.reserved x) (fun _ _ hx => hx)
    (fun x hx => ⟨SessionTable.modify_other _ hx, hothers x hx⟩)
    (fun sl hne => ⟨.load_other (hof.length.trans_le hof.fits) hne _, Function.update_of_ne hne _ _, rfl⟩)
    (fun _ _ _ hf => hf) (fun s' sl hs' hsl _ => ?_) (fun s' hs' hres => ?_)
    (fun sl f s' hf hid => absurd hid (ho.grounded hs hslot sl f hf)) h.quiet
  · rw [SessionTable.markResident_sessions hs] at hs'
    cases hs'
    obtain rfl := Option.some.inj hsl
    dsimp only
    rw [Function.update_self]
    exact hof.mirrors _
  · rw [SessionTable.markResident_sessions hs] at hs'
    cases hs'
    cases hres

/-- A failed restore leaves a cold session and a slot that is nobody's. -/
private theorem Mirrored.chill (ho : Owned cfg (some slot) e) (h : Mirrored cfg exempt e)
    {memory : DeviceMemory Cell Rec} {swap : SwapStore (SlotSnapshot Cell Rec)}
    (hs : e.sessions.sessions id = some s) (hslot : s.slot = none) (hcold : s.residency ≠ .cold)
    (hmemory : (∀ snap, e.swap.lookup id = some snap → snap.kv.length ≤ e.pool.capTokens) →
      ∀ x ≠ slot, SlotFrame e.pool.capTokens x e.memory memory)
    (hothers : ∀ x ≠ id, swap.lookup x = e.swap.lookup x) :
    Mirrored cfg exempt { e with
      swap, memory
      sessions := e.sessions.modify id fun s =>
        { s with slot := none, residency := .cold, nextPos := 0 } } := by
  have hparked := h.parked id s hs (ho.swapped hs hslot hcold)
  have hframe := hmemory fun snap hsnap => (hparked snap hsnap).length.trans_le (hparked snap hsnap).fits
  refine h.elsewhere ho rfl (fun x _ => ho.reserved x) (fun _ _ hx => hx)
    (fun x hx => ⟨SessionTable.modify_other _ hx, hothers x hx⟩)
    (fun sl hne => ⟨hframe sl hne, rfl, rfl⟩)
    (fun _ _ _ hf => hf) (fun s' sl hs' hsl _ => ?_) (fun s' hs' hres => ?_)
    (fun sl f s' hf hid => absurd hid (ho.grounded hs hslot sl f hf)) h.quiet
  · rw [SessionTable.modify_self hs] at hs'
    cases hs'
    cases hsl
  · rw [SessionTable.modify_self hs] at hs'
    cases hs'
    cases hres

/-- A request that starts where its slot stands has the rest of the tokens to come. -/
private theorem Mirrored.turn {e1 : Engine Cell Rec} (ho : Owned cfg none e) (ho1 : Owned cfg none e1)
    (h : Mirrored cfg exempt e) {maxTokens : ℕ} {rest : List Token} {convo : List ℕ} {plan : TurnPlan}
    (hs : e.sessions.sessions id = some s) (hslot : s.slot = some slot) (hidle : e.Idle id) (hex : ¬exempt id)
    (hrest : rest ≠ [] ∨ s.tokens = []) (hbegin : e.beginTurn id (s.tokens ++ rest) convo = .ok (e1, plan)) :
    Mirrored cfg exempt (e1.launch slot id maxTokens (s.tokens ++ rest) plan) := by
  have h1 := h.beginTurn ho hs hslot hidle hex hrest hbegin
  obtain ⟨s₀, slot₀, hs₀, hslot₀, -, rfl⟩ := beginTurn_ok hbegin
  obtain rfl := Option.some.inj (hs₀.symm.trans hs)
  obtain rfl := Option.some.inj (hslot₀.symm.trans hslot)
  have hs1 := SessionTable.modify_self hs fun s =>
    { s with tokens := s₀.tokens ++ rest, convo, nextPos := plan.reused }
  refine h1.elsewhere ho1 rfl (ho1.others hs1 hslot) (fun _ _ hx => hx) (fun x hx => ⟨rfl, rfl⟩)
    (fun sl hne => ⟨.refl _, rfl, Function.update_of_ne hne _ _⟩) (fun sl f hid hf => ?_)
    (fun s' sl hs' hsl hex => h1.live id s' sl hs' hsl hex) (fun s' hs' => h1.parked id s' hs')
    (fun sl f s' hf hid hs' _ => ?_) (fun sl hnone => ?_)
  · simp only [Engine.launch, Function.update_apply] at hf
    split at hf
    · cases hf
      exact absurd rfl hid
    · exact hf
  · simp only [Engine.launch, Function.update_apply] at hf
    split at hf
    · rename_i hsl
      subst hsl
      obtain rfl := Option.some.inj (hs1.symm.trans hs')
      simp [Engine.launch]
    · exact absurd hid (hidle sl f hf)
  · simp only [Engine.launch, Function.update_apply] at hnone
    split at hnone
    · cases hnone
    · rename_i hne
      simp only [Engine.launch, Function.update_of_ne hne]
      exact h1.quiet sl hnone

/-- Until its recurrent state is reset, a new session is exempt. -/
private theorem Mirrored.opened (ho : Owned cfg none e) (h : Mirrored cfg (fun _ => False) e)
    {e' : Engine Cell Rec} (hopen : e.openSession cfg = (e', .ok id)) : Mirrored cfg (fun x => x = id) e' := by
  obtain ⟨slot, pool, adm, -, hacquire, rfl, rfl⟩ := openSession_ok hopen
  have hother : ∀ x ≠ e.sessions.nextId, e.sessions.holder x ≠ some slot :=
    fun x _ => ho.acquired hacquire x
  obtain ⟨-, -, rfl⟩ := SlotPool.acquire_eq_some hacquire
  refine h.elsewhere ho rfl hother (fun _ _ hx => hx.elim)
    (fun x hx => ⟨Function.update_of_ne hx _ _, rfl⟩)
    (fun sl hne => ⟨.refl _, Function.update_of_ne hne _ _, rfl⟩) (fun _ _ _ hf => hf)
    (fun s' sl hs' hsl hex => absurd rfl hex) (fun s' hs' hswapped => ?_)
    (fun sl f s' hf hid hs' hex => absurd rfl hex) h.quiet
  simp only [Function.update_self, Option.some.injEq] at hs'
  simp [← hs'] at hswapped

/-- A reset slot mirrors the tokens of its session from the first on. -/
private theorem Mirrored.reset (ho : Owned cfg none e) (h : Mirrored cfg (fun x => x = id) e)
    (hs : e.sessions.sessions id = some s) (hslot : s.slot = some slot) (hidle : e.Idle id)
    (hlen : e.pool.seqLen slot = 0) :
    Mirrored cfg (fun _ => False) { e with memory := e.memory.setDn slot cfg.model.fresh } := by
  refine h.elsewhere ho rfl (ho.others hs hslot) (fun _ hne hx => hne hx) (fun x hx => ⟨rfl, rfl⟩)
    (fun sl hne => ⟨.setDn_other hne _ _, rfl, rfl⟩) (fun _ _ _ hf => hf)
    (fun s' sl hs' hsl _ => ?_) (fun s' hs' => h.parked id s' hs')
    (fun sl f s' hf hid => absurd hid (hidle sl f hf)) h.quiet
  obtain rfl := Option.some.inj (hs.symm.trans hs')
  obtain rfl := Option.some.inj (hslot.symm.trans hsl)
  dsimp only
  rw [hlen]
  exact Mirrors.fresh _ (Function.update_self _ _ _) _

/-- A failed reset spoils the exempt session only. -/
private theorem Mirrored.spoil (ho : Owned cfg none e) (h : Mirrored cfg (fun x => x = id) e)
    (hs : e.sessions.sessions id = some s) (hslot : s.slot = some slot) (dn : Rec) :
    Mirrored cfg (fun x => x = id) { e with memory := e.memory.setDn slot dn } :=
  h.elsewhere ho rfl (ho.others hs hslot) (fun _ _ hx => hx) (fun _ _ => ⟨rfl, rfl⟩)
    (fun _ hne => ⟨.setDn_other hne _ _, rfl, rfl⟩) (fun _ _ _ hf => hf)
    (fun _ _ _ _ hex => absurd rfl hex) (h.parked id) (fun _ _ _ _ _ _ hex => absurd rfl hex) h.quiet

/-- Every part of an admission keeps the mirrors. -/
theorem Mirrored.move {phase next : Phase} {outputs : List Output} {e' : Engine Cell Rec}
    (ho : Owned cfg phase.slot e) (h : Mirrored cfg phase.Opens e)
    (hm : Move cfg phase e outputs next e') : Mirrored cfg next.Opens e' := by
  cases hm with
  | evict hs hslot hidle hf hothers hparked => exact h.evict ho hs hslot hidle id hf hothers hparked
  | acquire hacquire =>
    obtain ⟨-, -, rfl⟩ := SlotPool.acquire_eq_some hacquire
    exact h.unheld rfl (ho.acquired hacquire) (fun sl hne => Function.update_of_ne hne _ _) ho
  | release => exact h.unheld rfl ho.reserved (fun sl hne => Function.update_of_ne hne _ _) ho
  | restore hs hslot hcold hsnap hothers => exact h.restore ho hs hslot hcold hsnap hothers
  | chill hs hslot hcold hmemory hothers => exact h.chill ho hs hslot hcold hmemory hothers
  | beginTurn hs hidle hrest hbegin =>
    obtain ⟨s₀, slot, hs₀, hslot, -⟩ := beginTurn_ok hbegin
    obtain rfl := Option.some.inj (hs₀.symm.trans hs)
    exact h.beginTurn ho hs hslot hidle id hrest hbegin
  | turn hs hslot hidle hrest hbegin _ =>
    exact h.turn ho (ho.move (Move.beginTurn hs hidle hrest hbegin)) hs hslot hidle id hrest hbegin
  | touch => exact h.touch _
  | opened hopen => exact h.opened ho hopen
  | refuse hopen =>
    rcases openSession_error hopen with ⟨rfl, -⟩ | ⟨adm, -, -, rfl⟩
    · exact h
    · exact ⟨h.live, h.parked, h.pending, h.quiet⟩
  | reset hs hslot hidle _ hlen => exact h.reset ho hs hslot hidle hlen
  | spoil hs hslot => exact h.spoil ho hs hslot _
  | close hphase hs hslot hidle =>
    rcases hphase with rfl | rfl
    · exact h.close ho hs hslot hidle fun _ _ hx => hx
    · exact h.close ho hs hslot hidle fun _ hne hx => hne hx
  | reject => exact h

end Admission

/-- An idle slot contributes no row. -/
private theorem Mirrored.no_rows (h : Mirrored cfg exempt e) {slot : ℕ} (hnone : e.slots slot = none) :
    (e.batchRows cfg).filter (fun row => row.slot = slot) = [] := by
  rw [batchRows_filter]
  split
  · refine List.length_eq_zero_iff.mp ?_
    have hle := (e.work slot).taken_le (chunkSize cfg)
    rw [h.quiet slot hnone] at hle
    rw [PendingWork.rows_length]
    exact Nat.le_zero.mp hle
  · rfl

private theorem Mirrored.scheduled_quiet (h : Mirrored cfg exempt e) (slot : ℕ)
    (hnone : e.slots slot = none) : ((e.scheduled cfg).work slot).remainingPrompt = [] := by
  have hquiet := h.quiet slot hnone
  simp only [scheduled]
  split
  · simp [PendingWork.advance, hquiet]
  · exact hquiet

/-- The holder of an occupied slot is the session of its request. -/
private theorem Owned.flying_eq (ho : Owned cfg none e) {id slot : ℕ} {s : Session} {f : InFlight}
    (hs : e.sessions.sessions id = some s) (hslot : s.slot = some slot) (hf : e.slots slot = some f) :
    f.session = id :=
  ho.leased.unique _ _ slot (ho.flying slot f hf) (SessionTable.holder_eq_some.mpr ⟨s, hs, hslot⟩)

/-- A slab has room for the next chunk of every request, and the kernels of a
forward that goes through do not fail behind it. -/
def Contained (cfg : EngineConfig Cell Rec) (e : Engine Cell Rec) : Action Cell Rec → Prop
  | .request _ _ => True
  | .step io => (∀ slot < cfg.nSlots, (e.slots slot).isSome → (e.work slot).nextPos +
      min (e.work slot).remainingPrompt.length (chunkSize cfg) ≤ e.pool.capTokens) ∧
    (io.forward.isSome ∨ io.synchronize.isNone)

instance (cfg : EngineConfig Cell Rec) (e : Engine Cell Rec) :
    (action : Action Cell Rec) → Decidable (Contained cfg e action)
  | .request _ _ => inferInstanceAs (Decidable True)
  | .step _ => inferInstanceAs (Decidable (_ ∧ _))

/-- Then every row of the batch lies within its slab. -/
private theorem Mirrored.contained (h : Mirrored cfg exempt e) {io : StepIo Cell Rec}
    (hguard : Contained cfg e (.step io)) : ∀ row ∈ e.batchRows cfg, row.position < e.pool.capTokens := by
  intro row hrow
  obtain ⟨slot, hslot, hmem⟩ := List.mem_flatMap.mp hrow
  have hbelow := PendingWork.rows_position hmem
  have hle := (e.work slot).taken_le (chunkSize cfg)
  cases hf : e.slots slot with
  | none =>
    have htaken := List.length_pos_of_mem hmem
    rw [PendingWork.rows_length] at htaken
    rw [h.quiet slot hf, List.length_nil] at hle
    omega
  | some f =>
    have hroom := hguard.1 slot (List.mem_range.mp hslot) (by rw [hf]; rfl)
    have hchunk := (e.work slot).taken_le_chunk (chunkSize_pos cfg)
    omega

/-- A forward that goes through extends the mirrors by what it was given. -/
private theorem Mirrored.forward (ho : Owned cfg none e) (h : Mirrored cfg (fun _ => False) e)
    {io : StepIo Cell Rec} {e' : Engine Cell Rec} (hguard : Contained cfg e (.step io))
    (hforward : forward cfg io (e.scheduled cfg) (e.batchRows cfg) = some (e', true)) :
    Mirrored cfg (fun _ => False) e' := by
  have hfits := h.contained hguard
  have hcap : e'.pool.capTokens = e.pool.capTokens := forward_cap hforward
  obtain ⟨-, ⟨hsessions, hswap, hslots⟩, hwork, -⟩ := forward_frame hforward
  have hfed := forward_ok hforward hfits
  refine ⟨fun id s slot hs hslot _ => ?_, fun id s hs => ?_, fun slot f s hf hs _ => ?_,
    fun slot hnone => ?_⟩
  · rw [hsessions] at hs
    rw [hcap]
    have hlt := (ho.leased.held id slot (SessionTable.holder_eq_some.mpr ⟨s, hs, hslot⟩)).1
    have hmirror := h.live id s slot hs hslot fun hx => hx
    cases hf : e.slots slot with
    | none =>
      obtain ⟨hframe, hlen⟩ := forward_untouched hforward hfits (h.no_rows hf)
      rw [hlen]
      exact hmirror.frame hframe
    | some f =>
      obtain rfl := ho.flying_eq hs hslot hf
      obtain ⟨hpos, hdrop⟩ := h.pending slot f s hf hs fun hx => hx
      have hroom := hguard.1 slot hlt (by rw [hf]; rfl)
      have hchunk := (e.work slot).taken_le_chunk (chunkSize_pos cfg)
      have hle := (e.work slot).taken_le (chunkSize cfg)
      have htaken := List.length_take_of_le hle
      have hall := hmirror.writeAll ((e.work slot).remainingPrompt.take ((e.work slot).taken (chunkSize cfg)))
        (hdrop.trans (List.take_append_drop _ _).symm) (by omega)
      rw [htaken, ← hpos] at hall
      rw [(hfed slot hlt).2 hpos, ← hpos]
      exact hall.frame (hfed slot hlt).1
  · rw [hswap, hcap]
    exact h.parked id s (hsessions ▸ hs)
  · rw [hslots] at hf
    rw [hsessions] at hs
    have hlt := (ho.leased.held f.session slot (ho.flying slot f hf)).1
    obtain ⟨hpos, hdrop⟩ := h.pending slot f s hf hs fun hx => hx
    rw [hwork, (hfed slot hlt).2 hpos]
    simp only [scheduled, if_pos hlt, PendingWork.advance]
    exact ⟨by rw [hpos], by rw [← List.drop_drop, hdrop]⟩
  · rw [hwork]
    exact h.scheduled_quiet slot (hslots ▸ hnone)

/-- A failed forward spoils occupied slots only. -/
private theorem Mirrored.forward_failed (ho : Owned cfg none e) (h : Mirrored cfg (fun _ => False) e)
    {io : StepIo Cell Rec} {e' : Engine Cell Rec} {ok : Bool} (hguard : Contained cfg e (.step io))
    (hforward : Engine.forward cfg io (e.scheduled cfg) (e.batchRows cfg) = some (e', ok)) :
    Mirrored cfg (fun id => ¬e'.Idle id) e' := by
  have hfits := h.contained hguard
  have hcap : e'.pool.capTokens = e.pool.capTokens := forward_cap hforward
  obtain ⟨-, ⟨hsessions, hswap, hslots⟩, hwork, -⟩ := forward_frame hforward
  refine ⟨fun id s slot hs hslot hidle => ?_, fun id s hs => ?_, fun slot f s hf hs hidle => ?_,
    fun slot hnone => ?_⟩
  · rw [hsessions] at hs
    cases hf : e.slots slot with
    | none =>
      obtain ⟨hframe, hlen⟩ := forward_untouched hforward hfits (h.no_rows hf)
      rw [hlen, hcap]
      exact (h.live id s slot hs hslot fun hx => hx).frame hframe
    | some f =>
      have hf' : e'.slots slot = some f := (congrFun hslots slot).trans hf
      exact absurd (ho.flying_eq hs hslot hf) (not_not.mp hidle slot f hf')
  · rw [hswap, hcap]
    exact h.parked id s (hsessions ▸ hs)
  · exact absurd rfl (not_not.mp hidle slot f hf)
  · rw [hwork]
    exact h.scheduled_quiet slot (hslots ▸ hnone)

private theorem Mirrored.clearSlot (h : Mirrored cfg exempt e) (slot : ℕ) :
    Mirrored cfg exempt (e.clearSlot slot) := by
  refine h.frame rfl (fun x s' sl hs' hsl hex => .inr ⟨s', hs', hsl, rfl, hex, .refl _, rfl⟩)
    (fun x s' hs' hswapped => .inr ⟨s', hs', hswapped, rfl, rfl⟩) (fun sl f s' hf hs' hex => .inr ?_)
    fun sl hnone => ?_
  · obtain ⟨hne, hf'⟩ := clearSlot_eq_some hf
    exact ⟨s', hf', hs', rfl, hex, rfl, Function.update_of_ne hne _ _⟩
  · by_cases hsl : sl = slot
    · simp [Engine.clearSlot, hsl]
    · simp only [Engine.clearSlot, Function.update_of_ne hsl] at hnone ⊢
      exact h.quiet sl hnone

/-- Ending a request and closing its session. -/
private theorem Mirrored.closeSlot (ho : Owned cfg none e) (h : Mirrored cfg exempt e)
    {exempt' : ℕ → Prop} {slot : ℕ} {f : InFlight} (hf : e.slots slot = some f)
    (hexempt : ∀ x ≠ f.session, exempt x → exempt' x) :
    Mirrored cfg exempt' ((e.clearSlot slot).close f.session) := by
  obtain ⟨s, hs, hslot⟩ := ho.session hf
  exact (h.clearSlot slot).close (ho.clearSlot slot) hs hslot (ho.clearSlot_idle hf) hexempt

private theorem Mirrored.queueToken (ho : Owned cfg none e) (h : Mirrored cfg (fun _ => False) e)
    {slot : ℕ} {f : InFlight} (token : Token) (hf : e.slots slot = some f)
    (hrest : (e.work slot).remainingPrompt = []) :
    Mirrored cfg (fun _ => False) (e.queueToken slot f token) := by
  obtain ⟨s, hs, hslot⟩ := ho.session hf
  obtain ⟨hpos, hdrop⟩ := h.pending slot f s hf hs fun hx => hx
  have hmirror := h.live f.session s slot hs hslot fun hx => hx
  have hs' : (e.queueToken slot f token).sessions.sessions f.session = some { s with
      tokens := s.tokens ++ [token], lastUsed := e.sessions.clock + 1 } :=
    SessionTable.modify_self (SessionTable.modify_self hs _) _
  have hlater {sl : ℕ} {f' : InFlight} (hsession : f'.session = f.session)
      (hf' : (e.queueToken slot f token).slots sl = some f') : sl = slot := by
    by_contra hne
    simp only [Engine.queueToken, Function.update_of_ne hne] at hf'
    exact ho.flying_ne hf hf' hne hsession
  refine h.elsewhere ho rfl (ho.others hs hslot) (fun _ _ hx => hx) (fun x hx => ⟨?_, rfl⟩)
    (fun sl hne => ⟨.refl _, rfl, Function.update_of_ne hne _ _⟩) (fun sl f' hid hf' => ?_)
    (fun t sl ht hsl _ => ?_) (fun t ht hswapped => ?_) (fun sl f' t hf' hid ht _ => ?_)
    (fun sl hnone => ?_)
  · exact (SessionTable.modify_other _ hx).trans (SessionTable.modify_other _ hx)
  · simp only [Engine.queueToken, Function.update_apply] at hf'
    split at hf'
    · cases hf'
      exact absurd rfl hid
    · exact hf'
  · obtain rfl := Option.some.inj (hs'.symm.trans ht)
    obtain rfl := Option.some.inj (hslot.symm.trans hsl)
    exact hmirror.extend [token]
  · obtain rfl := Option.some.inj (hs'.symm.trans ht)
    cases (ho.resident_of_slot hs hslot).symm.trans hswapped
  · obtain rfl := hlater hid hf'
    obtain rfl := Option.some.inj (hs'.symm.trans ht)
    simp only [Engine.queueToken, Function.update_self]
    refine ⟨hpos, ?_⟩
    rw [List.drop_append_of_le_length hmirror.held, hdrop, hrest, List.nil_append]
  · simp only [Engine.queueToken, Function.update_apply] at hnone ⊢
    split at hnone
    · cases hnone
    · rename_i hne
      rw [if_neg hne]
      exact h.quiet sl hnone

private theorem Mirrored.sampleSlot (ho : Owned cfg none e) (h : Mirrored cfg (fun _ => False) e)
    (io : StepIo Cell Rec) (slot : ℕ) :
    Mirrored cfg (fun _ => False) (sampleSlot cfg io e slot).1 := by
  rcases sampleSlot_cases cfg io e slot with ⟨heq, -⟩ | ⟨f, e', outputs, hf, hrest, heq, hsampled⟩
  · rw [heq]
    exact h
  · rw [heq]
    cases hsampled with
    | gone => exact h.closeSlot ho hf fun _ _ hx => hx
    | eos | maxTokens => exact (h.clearSlot slot).touch f.session
    | queued => exact h.queueToken ho _ hf hrest

/-- Aborting a request takes its session out of the spoiled ones. -/
private theorem Mirrored.abortSlot (ho : Owned cfg none e) (h : Mirrored cfg (fun id => ¬e.Idle id) e)
    (slot : ℕ) : Mirrored cfg (fun id => ¬(abortSlot e slot).1.Idle id) (abortSlot e slot).1 := by
  rcases abortSlot_cases e slot with ⟨heq, -⟩ | ⟨f, hf, heq⟩
  · rw [heq]
    exact h
  · rw [heq]
    refine h.closeSlot ho hf fun x hx hbusy hidle => hbusy fun sl f' hf' hsame => ?_
    by_cases hsl : sl = slot
    · subst hsl
      obtain rfl := Option.some.inj (hf.symm.trans hf')
      exact hx hsame.symm
    · refine hidle sl f' ?_ hsame
      simpa only [Engine.close, Engine.clearSlot, Function.update_of_ne hsl] using hf'

/-- After a failed forward every request is gone, and with it every spoiled slot. -/
private theorem Mirrored.abortAll (ho : Owned cfg none e) (h : Mirrored cfg (fun id => ¬e.Idle id) e) :
    Mirrored cfg (fun _ => False) (forSlots Engine.abortSlot e (List.range cfg.nSlots)).1 := by
  have hswept := forSlots_invariant
    (P := fun _ e => Owned cfg none e ∧ Mirrored cfg (fun id => ¬e.Idle id) e)
    (fun _ _ slot h => ⟨h.1.abortSlot slot, h.2.abortSlot h.1 slot⟩) (List.range cfg.nSlots) [] ⟨ho, h⟩
  obtain ⟨-, hmirrored⟩ := hswept
  have hidle (id : ℕ) : (forSlots Engine.abortSlot e (List.range cfg.nSlots)).1.Idle id := by
    intro slot f hf
    rw [ho.aborted slot] at hf
    cases hf
  exact ⟨fun id s slot hs hslot _ => hmirrored.live id s slot hs hslot (not_not.mpr (hidle id)),
    hmirrored.parked,
    fun slot f s hf hs _ => hmirrored.pending slot f s hf hs (not_not.mpr (hidle f.session)),
    hmirrored.quiet⟩

/-- Turns begin where their slot stands. -/
def Resumes (outputs : List Output) : Prop :=
  ∀ id turn, Output.accepted id turn ∈ outputs → turn.held ≤ turn.reused

private theorem Mirrored.moves {outputs : List Output} {e' : Engine Cell Rec} (ho : Owned cfg none e)
    (h : Mirrored cfg (fun _ => False) e) (hm : Moves cfg .steady e outputs .steady e') :
    Mirrored cfg (fun _ => False) e' ∧ Resumes outputs := by
  have hall := hm.invariant (P := fun phase outputs e => Owned cfg phase.slot e ∧
      Mirrored cfg phase.Opens e ∧ Resumes outputs) (fun phase outputs e emitted next e' hp hm => ?_)
    [] ⟨ho, h, by simp [Resumes]⟩
  · exact hall.2
  · refine ⟨hp.1.move hm, hp.2.1.move hp.1 hm, fun id turn hmem => ?_⟩
    rcases List.mem_append.mp hmem with hold | hnew
    · exact hp.2.2 id turn hold
    · cases hm with
      | turn hs hslot hidle hrest hbegin hturn =>
        obtain ⟨rfl, rfl⟩ : id = _ ∧ turn = _ := by simpa using hnew
        rw [hturn.2.1, hturn.2.2, hp.2.1.reused hs hslot (fun hx => hx) hrest hbegin]
      | _ => simp at hnew

/-- A scheduling step begins no turn. -/
theorem step_accepts_none {io : StepIo Cell Rec} {e' : Engine Cell Rec} {outputs : List Output}
    (h : step cfg io e = some (e', outputs)) (id : ℕ) (turn : Turn) : .accepted id turn ∉ outputs := by
  have hsample (out : List Output) (e : Engine Cell Rec) (slot : ℕ)
      (hout : .accepted id turn ∉ out) :
      .accepted id turn ∉ out ++ (Engine.sampleSlot cfg io e slot).2 := by
    rcases sampleSlot_cases cfg io e slot with ⟨heq, -⟩ | ⟨f, e', outputs, -, -, heq, hsampled⟩
    · simpa [heq] using hout
    · rw [heq]
      cases hsampled <;> simpa using hout
  rcases step_cases h with ⟨-, -, rfl⟩ | ⟨-, e1, -, hslots⟩ | ⟨-, e1, -, ⟨-, rfl, -⟩ | ⟨-, hslots⟩⟩
  · exact List.not_mem_nil
  · intro hmem
    have haborted := forSlots_abort_outputs (List.range cfg.nSlots) e1
    rw [← hslots] at haborted
    cases haborted _ hmem
  · exact List.not_mem_nil
  · have hswept := forSlots_invariant (P := fun out _ => .accepted id turn ∉ out) hsample
      (e := e1) (List.range cfg.nSlots) [] List.not_mem_nil
    rwa [← hslots] at hswept

/-- Every action within the slabs keeps the mirrors, and its turns begin where their slot stands. -/
theorem Mirrored.act (ho : Owned cfg none e) (h : Mirrored cfg (fun _ => False) e)
    {action : Action Cell Rec} {e' : Engine Cell Rec} {outputs : List Output}
    (hguard : Contained cfg e action) (hact : act cfg e action = some (e', outputs)) :
    Mirrored cfg (fun _ => False) e' ∧ Resumes outputs := by
  cases action with
  | request io req =>
    have hmoves := admitRequest_moves ho io req
    rw [Option.some.inj hact] at hmoves
    exact h.moves ho hmoves
  | step io =>
    simp only [Engine.act] at hact
    split at hact
    · refine ⟨?_, fun id turn hmem => absurd hmem (step_accepts_none hact id turn)⟩
      rcases step_cases hact with ⟨hrows, rfl, -⟩ | ⟨-, e1, hforward, hslots⟩ | ⟨-, e1, hforward, hrest⟩
      · rw [scheduled_eq hrows]
        exact h
      · have hswept := (h.forward_failed ho hguard hforward).abortAll (ho.forward hforward)
        rw [← hslots] at hswept
        exact hswept
      · have h1 := h.forward ho hguard hforward
        rcases hrest with ⟨rfl, -⟩ | ⟨-, hslots⟩
        · have hsynced := hguard.2.resolve_left (by rw [forward_ok_io hforward]; simp)
          rw [synchronize_fine (Option.isNone_iff_eq_none.mp hsynced)]
          exact h1
        · have hswept := forSlots_invariant
            (P := fun _ e => Owned cfg none e ∧ Mirrored cfg (fun _ => False) e)
            (fun _ _ slot h => ⟨h.1.sampleSlot io slot, h.2.sampleSlot h.1 io slot⟩)
            (List.range cfg.nSlots) [] ⟨ho.forward hforward, h1⟩
          rw [← hslots] at hswept
          exact hswept.2
    · cases hact

theorem Reaches.mirrored {memory : DeviceMemory Cell Rec} {actions : List (Action Cell Rec)}
    {outputs : List Output} (h : Reaches cfg (Contained cfg) memory actions outputs e) :
    Mirrored cfg (fun _ => False) e ∧ Resumes outputs := by
  have hall := Runs.invariant (P := fun outputs e => Owned cfg none e ∧
      Mirrored cfg (fun _ => False) e ∧ Resumes outputs)
    ⟨start_owned memory, start_mirrored memory, by simp [Resumes]⟩
    (fun outputs e action e' emitted hp hguard hact => ?_) h
  · exact hall.2
  · obtain ⟨hmirrored, hresumes⟩ := hp.2.1.act hp.1 hguard hact
    refine ⟨hp.1.act hact, hmirrored, fun id turn hmem => ?_⟩
    exact (List.mem_append.mp hmem).elim (hp.2.2 id turn) (hresumes id turn)

/-- The slot of a resident session holds what feeding its tokens to a fresh slot
gives. -/
def Faithful (cfg : EngineConfig Cell Rec) (e : Engine Cell Rec) (s : Session) : Prop :=
  s.residency = .resident → ∃ slot, s.slot = some slot ∧ e.pool.seqLen slot ≤ s.tokens.length ∧
    (e.memory.kvBefore e.pool.capTokens slot (e.pool.seqLen slot), e.memory.dnStates slot) =
      cfg.model.fed (s.tokens.take (e.pool.seqLen slot))

theorem Faithful.kv {s : Session} {slot : ℕ} (h : Faithful cfg e s) (hres : s.residency = .resident)
    (hslot : s.slot = some slot) : e.memory.kvBefore e.pool.capTokens slot (e.pool.seqLen slot) =
      (cfg.model.fed (s.tokens.take (e.pool.seqLen slot))).1 := by
  obtain ⟨slot', hslot', -, hfed⟩ := h hres
  obtain rfl := Option.some.inj (hslot.symm.trans hslot')
  rw [← hfed]

/-- Tokens are authoritative in every run that stays within the slabs and whose
kernels do not fail behind a forward that went through, whatever else fails on
the way: the slot of a resident session holds what feeding its tokens to a fresh
slot gives, and no turn resumes below what its slot holds unless the recurrent
state was reset. -/
theorem contained_mirrors (cfg : EngineConfig Cell Rec) (memory : DeviceMemory Cell Rec)
    (actions : List (Action Cell Rec)) (outputs : List Output) (e : Engine Cell Rec)
    (h : Reaches cfg (Contained cfg) memory actions outputs e) :
    (∀ id s, e.sessions.get id = some s → Faithful cfg e s) ∧
    (∀ id turn, .accepted id turn ∈ outputs → turn.reused < turn.held → turn.reset = true) := by
  obtain ⟨hmirrored, hresumes⟩ := h.mirrored
  refine ⟨fun id s hs hres => ?_, fun id turn hmem hlt => ?_⟩
  · have hsome := (h.owned.resident id s hs).mp hres
    obtain ⟨slot, hslot⟩ := Option.isSome_iff_exists.mp hsome
    have hlive := hmirrored.live id s slot hs hslot fun hx => hx
    exact ⟨slot, hslot, hlive.held, hlive.fed⟩
  · exact absurd (hresumes id turn hmem) (Nat.not_le.mpr hlt)

section Example

/-- The same conversation, asked to go on. -/
def followUp (rest : List Token) (maxTokens : ℕ) : SubmitRequest := ⟨rest, [7, 8], rest, maxTokens⟩

def other : SubmitRequest := ⟨[4], [9], [], 1⟩

/-- A conversation is evicted, restored and continued. -/
theorem restoredConversation_mirrors : ∃ outputs e, Reaches oneSlot (Contained oneSlot) blank
      [.request fineAdmit (ask [1, 2] 1), .step (fineStep 3), .request fineAdmit other,
        .step (fineStep 0), .request fineAdmit (followUp [5] 2), .step (fineStep 6)] outputs e ∧
    ∃ s, e.sessions.get 0 = some s ∧ s.residency = .resident ∧ s.tokens = [1, 2, 5, 6] ∧
      e.pool.seqLen 0 = 3 ∧ Faithful oneSlot e s := by
  have hrun : ∃ outputs e, Reaches oneSlot (Contained oneSlot) blank
      [.request fineAdmit (ask [1, 2] 1), .step (fineStep 3), .request fineAdmit other,
        .step (fineStep 0), .request fineAdmit (followUp [5] 2), .step (fineStep 6)] outputs e ∧
      ∃ s, e.sessions.get 0 = some s ∧ s.residency = .resident ∧ s.tokens = [1, 2, 5, 6] ∧
        e.pool.seqLen 0 = 3 :=
    ⟨_, _, (((((Runs.nil.snoc trivial rfl).snoc (by decide) rfl).snoc trivial rfl).snoc (by decide) rfl).snoc
      trivial rfl).snoc (by decide) rfl, _, rfl, rfl, rfl, rfl⟩
  obtain ⟨outputs, e, h, s, hs, hres, htokens, hlen⟩ := hrun
  exact ⟨outputs, e, h, s, hs, hres, htokens, hlen, (contained_mirrors oneSlot blank _ outputs e h).1 0 s hs⟩

/-- Two slots of one page. -/
def twoSlots : EngineConfig ℕ ℕ := { oneSlot with nSlots := 2, capTokens := 128 }

set_option maxRecDepth 4000 in
/-- The slab of the session in slot 1 is overwritten by the 129th token of slot 0,
and a slot whose kernels failed behind the forward keeps its new length. -/
theorem overrun_and_unsynchronized :
    (∃ outputs e, Reaches twoSlots (fun _ _ => True) blank
        [.request fineAdmit (ask [1] 1), .request fineAdmit other, .step (fineStep 3),
          .request fineAdmit (followUp (List.replicate 128 5) 1), .step (fineStep 3)] outputs e ∧
      ∃ s, e.sessions.get 1 = some s ∧ ¬Faithful twoSlots e s) ∧
    ∃ outputs e, Reaches oneSlot (fun _ _ => True) blank
        [.request fineAdmit (ask [1, 2] 1), .step { fineStep 3 with synchronize := some blank }] outputs e ∧
      ∃ s, e.sessions.get 0 = some s ∧ ¬Faithful oneSlot e s := by
  refine ⟨?_, ?_⟩
  · have hrun : ∃ outputs e, Reaches twoSlots (fun _ _ => True) blank
        [.request fineAdmit (ask [1] 1), .request fineAdmit other, .step (fineStep 3),
          .request fineAdmit (followUp (List.replicate 128 5) 1), .step (fineStep 3)] outputs e ∧
        ∃ s, e.sessions.get 1 = some s ∧ s.residency = .resident ∧ s.slot = some 1 ∧ s.tokens = [4] ∧
          e.pool.seqLen 1 = 1 ∧ e.memory.kvBefore e.pool.capTokens 1 1 = [133] :=
      ⟨_, _, ((((Runs.nil.snoc trivial rfl).snoc trivial rfl).snoc trivial rfl).snoc trivial rfl).snoc
        trivial rfl, _, rfl, rfl, rfl, rfl, rfl, rfl⟩
    obtain ⟨outputs, e, h, s, hs, hres, hslot, htokens, hlen, hkv⟩ := hrun
    refine ⟨outputs, e, h, s, hs, fun hfaithful => ?_⟩
    have hfed := hfaithful.kv hres hslot
    rw [hlen, hkv, htokens] at hfed
    cases hfed
  · have hrun : ∃ outputs e, Reaches oneSlot (fun _ _ => True) blank
        [.request fineAdmit (ask [1, 2] 1), .step { fineStep 3 with synchronize := some blank }] outputs e ∧
        ∃ s, e.sessions.get 0 = some s ∧ s.residency = .resident ∧ s.slot = some 0 ∧ s.tokens = [1, 2] ∧
          e.pool.seqLen 0 = 2 ∧ e.memory.kvBefore e.pool.capTokens 0 2 = [0, 0] :=
      ⟨_, _, (Runs.nil.snoc trivial rfl).snoc trivial rfl, _, rfl, rfl, rfl, rfl, rfl, rfl⟩
    obtain ⟨outputs, e, h, s, hs, hres, hslot, htokens, hlen, hkv⟩ := hrun
    refine ⟨outputs, e, h, s, hs, fun hfaithful => ?_⟩
    have hfed := hfaithful.kv hres hslot
    rw [hlen, hkv, htokens] at hfed
    cases hfed

end Example

end Engine
end Mirrored
end Hipscope.Serve
