import Mathlib.Algebra.Group.Nat.Defs
import Mathlib.Data.List.Basic
import Mathlib.Data.Option.Basic
import Hipscope.Machine.Runs

/-! The pool of equal KV slabs and the descriptor table the device reads. `none` is a panic; `usize`
arithmetic wraps. -/
namespace Hipscope.Residency
open Machine

structure KvSlotDesc where
  kBase : ℕ
  vBase : ℕ
  seqLen : Int32
  cap : Int32
  deriving DecidableEq

/-- Why a pool is refused. -/
inductive PoolError where
  | overflows
  | overBudget (planned budget : ℕ)
  | noHeadroom (planned available : ℕ)
  | unreadable (planned : ℕ)
  deriving DecidableEq

def pageTokens : ℕ := 128

/-- 32 GiB -/
def r9700VramBytes : ℕ := 32 * 1024 * 1024 * 1024

/-- 8 GiB -/
def headroomBytes : ℕ := 8 * 1024 * 1024 * 1024

/-- A planned allocation against the target's budget and the memory the system has left. -/
def preflightAlloc (memAvailable : Option ℕ) (plannedBytes budget : ℕ) : Except PoolError Unit :=
  if plannedBytes > budget then .error (.overBudget plannedBytes budget)
  else
    match memAvailable with
    | some available =>
      if min (plannedBytes + headroomBytes) (2 ^ 64 - 1) > available then .error (.noHeadroom plannedBytes available)
      else .ok ()
    | none => .error (.unreadable plannedBytes)

def checkedMul (x y : ℕ) : Option ℕ := if x * y < 2 ^ 64 then some (x * y) else none

structure SlotPool where
  descs : List KvSlotDesc
  inUse : List Bool
  capTokens : ℕ
  perPosBytes : ℕ
  dirty : Bool

/-- The capacity in whole pages. -/
def roundedCap (capTokens : ℕ) : ℕ :=
  (capTokens / pageTokens + if capTokens % pageTokens = 0 then 0 else 1) * pageTokens % 2 ^ 64

namespace SlotPool

def new (memAvailable : Option ℕ) (nSlots capTokens perPosBytes : ℕ) : Option (Except PoolError SlotPool) :=
  if nSlots = 0 ∨ perPosBytes = 0 then none
  else
    let cap := roundedCap capTokens
    let slabBytes := cap * perPosBytes % 2 ^ 64
    match (checkedMul slabBytes nSlots).bind (checkedMul · 2) with
    | none => some (.error .overflows)
    | some total => some (do
      preflightAlloc memAvailable total r9700VramBytes
      let descs := (List.range nSlots).map fun i =>
        let base := i * slabBytes % 2 ^ 64
        ⟨base, base, 0, Int32.ofNat cap⟩
      return ⟨descs, List.replicate nSlots false, cap, perPosBytes, true⟩)

def reset (pool : SlotPool) (id : ℕ) : Option SlotPool := do
  let desc ← pool.descs[id]?
  if desc.seqLen ≠ 0 then
    some { pool with descs := pool.descs.set id { desc with seqLen := 0 }, dirty := true }
  else some pool

/-- Takes a free slot, if there is one. -/
def acquire (pool : SlotPool) : Option (Option ℕ × SlotPool) :=
  match pool.inUse.findIdx? (!·) with
  | none => some (none, pool)
  | some i => (reset { pool with inUse := pool.inUse.set i true } i).map fun pool => (some i, pool)

def release (pool : SlotPool) (id : ℕ) : Option SlotPool :=
  (pool.reset id).map fun pool => { pool with inUse := pool.inUse.set id false }

def setSeqLen (pool : SlotPool) (id seqLen : ℕ) : Option (Except String Unit × SlotPool) :=
  if seqLen > pool.capTokens then
    some (.error s!"SlotPool: slot {id} seq_len {seqLen} exceeds cap {pool.capTokens}", pool)
  else do
    let desc ← pool.descs[id]?
    if desc.seqLen ≠ Int32.ofNat seqLen then
      some (.ok (), { pool with descs := pool.descs.set id { desc with seqLen := Int32.ofNat seqLen }, dirty := true })
    else some (.ok (), pool)

def markUploaded (pool : SlotPool) : SlotPool := { pool with dirty := false }

/-- Bytes in one arena. -/
def arenaBytes (pool : SlotPool) : ℕ := pool.descs.length * pool.capTokens % 2 ^ 64 * pool.perPosBytes % 2 ^ 64

inductive Call where
  | acquire
  | release (id : ℕ)
  | setSeqLen (id seqLen : ℕ)
  | reset (id : ℕ)
  | markUploaded

/-- One call; an upload emits the table it uploads. -/
def step (pool : SlotPool) : Call → Option (SlotPool × List (List KvSlotDesc))
  | .acquire => pool.acquire.map fun out => (out.2, [])
  | .release id => (pool.release id).map fun pool => (pool, [])
  | .setSeqLen id seqLen => (pool.setSeqLen id seqLen).map fun out => (out.2, [])
  | .reset id => (pool.reset id).map fun pool => (pool, [])
  | .markUploaded => some (pool.markUploaded, [pool.descs])

/-- The slab of a slot, from its base. -/
def slabBytes (pool : SlotPool) : ℕ := pool.capTokens * pool.perPosBytes

/-- What the table promises the device, `uploads` being the tables it was given. -/
structure Represents (pool : SlotPool) (uploads : List (List KvSlotDesc)) : Prop where
  disjoint : ∀ (i j : ℕ) (d e : KvSlotDesc), i < j → pool.descs[i]? = some d → pool.descs[j]? = some e →
    d.kBase + pool.slabBytes ≤ e.kBase ∧ d.vBase + pool.slabBytes ≤ e.vBase
  inside : ∀ d ∈ pool.descs, d.kBase + pool.slabBytes ≤ pool.arenaBytes ∧ d.vBase + pool.slabBytes ≤ pool.arenaBytes
  lengths : ∀ d ∈ pool.descs, 0 ≤ d.seqLen ∧ d.seqLen ≤ d.cap
  fresh : ∀ i next, pool.acquire = some (some i, next) → ∃ d, next.descs[i]? = some d ∧ d.seqLen = 0
  honest : pool.dirty = false → uploads.getLast? = some pool.descs

/-- Slab after slab, with lengths that the device reads as they are. -/
structure Laid (pool : SlotPool) : Prop where
  fits : pool.descs.length * pool.slabBytes < 2 ^ 64
  small : pool.capTokens < 2 ^ 31
  at_index : ∀ (i : ℕ) (d : KvSlotDesc), pool.descs[i]? = some d → d.kBase = i * pool.slabBytes ∧
    d.vBase = i * pool.slabBytes ∧ d.cap = Int32.ofNat pool.capTokens ∧
    ∃ s ≤ pool.capTokens, d.seqLen = Int32.ofNat s

section Steps
variable {pool next : SlotPool} {id s : ℕ} {d : KvSlotDesc} {uploads : List (List KvSlotDesc)}

/-- The pool with one length written. -/
def writeLen (pool : SlotPool) (id : ℕ) (d : KvSlotDesc) (s : ℕ) : SlotPool :=
  { pool with descs := pool.descs.set id { d with seqLen := Int32.ofNat s }, dirty := true }

theorem Laid.writeLen (h : pool.Laid) (hd : pool.descs[id]? = some d) (hs : s ≤ pool.capTokens) :
    (pool.writeLen id d s).Laid := by
  refine ⟨?_, h.small, fun i e he => ?_⟩
  · rw [SlotPool.writeLen, List.length_set]
    exact h.fits
  · rw [SlotPool.writeLen] at he
    by_cases hi : id = i
    · subst hi
      have hlt := (List.getElem?_eq_some_iff.1 hd).1
      rw [List.getElem?_set_self hlt] at he
      obtain rfl := Option.some.inj he
      obtain ⟨hk, hv, hcap, -⟩ := h.at_index _ _ hd
      exact ⟨hk, hv, hcap, s, hs, rfl⟩
    · rw [List.getElem?_set_ne hi] at he
      exact h.at_index i e he

theorem Laid.congr (h : pool.Laid) (hdescs : next.descs = pool.descs) (hcap : next.capTokens = pool.capTokens)
    (hper : next.perPosBytes = pool.perPosBytes) : next.Laid := by
  have hslab : next.slabBytes = pool.slabBytes := by rw [slabBytes, slabBytes, hcap, hper]
  refine ⟨by rw [hdescs, hslab]; exact h.fits, by rw [hcap]; exact h.small, fun i e he => ?_⟩
  rw [hdescs] at he
  rw [hslab, hcap]
  exact h.at_index i e he

/-- A reset writes a zero, or finds one. -/
theorem reset_cases (h : pool.reset id = some next) :
    ∃ d, pool.descs[id]? = some d ∧ (next = pool.writeLen id d 0 ∨ (next = pool ∧ d.seqLen = 0)) := by
  rw [reset] at h
  obtain ⟨d, hd, h⟩ := Option.bind_eq_some_iff.1 h
  refine ⟨d, hd, ?_⟩
  split at h
  · cases h
    exact .inl rfl
  · next hzero =>
    cases h
    exact .inr ⟨rfl, not_not.1 hzero⟩

theorem setSeqLen_cases {out : Except String Unit} (h : pool.setSeqLen id s = some (out, next)) :
    next = pool ∨ ∃ d, pool.descs[id]? = some d ∧ s ≤ pool.capTokens ∧ next = pool.writeLen id d s := by
  rw [setSeqLen] at h
  split at h
  · cases h
    exact .inl rfl
  · next hle =>
    obtain ⟨d, hd, h⟩ := Option.bind_eq_some_iff.1 h
    split at h
    · cases h
      exact .inr ⟨d, hd, Nat.le_of_not_lt hle, rfl⟩
    · cases h
      exact .inl rfl

/-- What a call leaves of the table: the same, one length written, or an upload. -/
theorem step_cases {c : Call} {emitted : List (List KvSlotDesc)} (h : pool.step c = some (next, emitted)) :
    next.capTokens = pool.capTokens ∧ next.perPosBytes = pool.perPosBytes ∧
      ((next.descs = pool.descs ∧ next.dirty = pool.dirty ∧ emitted = []) ∨
        (∃ id d s, pool.descs[id]? = some d ∧ s ≤ pool.capTokens ∧ next.descs = (pool.writeLen id d s).descs ∧
          next.dirty = true ∧ emitted = []) ∨
        (next.descs = pool.descs ∧ next.dirty = false ∧ emitted = [pool.descs])) := by
  have hreset : ∀ {p q : SlotPool} {id : ℕ}, p.reset id = some q → q.capTokens = p.capTokens ∧
      q.perPosBytes = p.perPosBytes ∧ ((q.descs = p.descs ∧ q.dirty = p.dirty) ∨
        ∃ d, p.descs[id]? = some d ∧ q.descs = (p.writeLen id d 0).descs ∧ q.dirty = true) := by
    intro p q id hq
    obtain ⟨d, hd, rfl | ⟨rfl, -⟩⟩ := reset_cases hq
    · exact ⟨rfl, rfl, .inr ⟨d, hd, rfl, rfl⟩⟩
    · exact ⟨rfl, rfl, .inl ⟨rfl, rfl⟩⟩
  cases c with
  | acquire =>
    obtain ⟨⟨slot, after⟩, hacquire, heq⟩ := Option.map_eq_some_iff.1 h
    obtain ⟨rfl, rfl⟩ := Prod.mk.inj heq
    rw [acquire] at hacquire
    split at hacquire
    · cases hacquire
      exact ⟨rfl, rfl, .inl ⟨rfl, rfl, rfl⟩⟩
    · obtain ⟨q, hq, heq⟩ := Option.map_eq_some_iff.1 hacquire
      obtain ⟨rfl, rfl⟩ := Prod.mk.inj heq
      obtain ⟨hcap, hper, ⟨hdescs, hdirty⟩ | ⟨d, hd, hdescs, hdirty⟩⟩ := hreset hq
      · exact ⟨hcap, hper, .inl ⟨hdescs, hdirty, rfl⟩⟩
      · exact ⟨hcap, hper, .inr (.inl ⟨_, d, 0, hd, Nat.zero_le _, hdescs, hdirty, rfl⟩)⟩
  | release id =>
    obtain ⟨after, hrelease, heq⟩ := Option.map_eq_some_iff.1 h
    obtain ⟨rfl, rfl⟩ := Prod.mk.inj heq
    obtain ⟨q, hq, rfl⟩ := Option.map_eq_some_iff.1 hrelease
    obtain ⟨hcap, hper, ⟨hdescs, hdirty⟩ | ⟨d, hd, hdescs, hdirty⟩⟩ := hreset hq
    · exact ⟨hcap, hper, .inl ⟨hdescs, hdirty, rfl⟩⟩
    · exact ⟨hcap, hper, .inr (.inl ⟨id, d, 0, hd, Nat.zero_le _, hdescs, hdirty, rfl⟩)⟩
  | setSeqLen id s =>
    obtain ⟨⟨out, after⟩, hset, heq⟩ := Option.map_eq_some_iff.1 h
    obtain ⟨rfl, rfl⟩ := Prod.mk.inj heq
    obtain rfl | ⟨d, hd, hs, rfl⟩ := setSeqLen_cases hset
    · exact ⟨rfl, rfl, .inl ⟨rfl, rfl, rfl⟩⟩
    · exact ⟨rfl, rfl, .inr (.inl ⟨id, d, s, hd, hs, rfl, rfl, rfl⟩)⟩
  | reset id =>
    obtain ⟨after, hreset', heq⟩ := Option.map_eq_some_iff.1 h
    obtain ⟨rfl, rfl⟩ := Prod.mk.inj heq
    obtain ⟨hcap, hper, ⟨hdescs, hdirty⟩ | ⟨d, hd, hdescs, hdirty⟩⟩ := hreset hreset'
    · exact ⟨hcap, hper, .inl ⟨hdescs, hdirty, rfl⟩⟩
    · exact ⟨hcap, hper, .inr (.inl ⟨id, d, 0, hd, Nat.zero_le _, hdescs, hdirty, rfl⟩)⟩
  | markUploaded =>
    obtain ⟨rfl, rfl⟩ := Prod.mk.inj (Option.some.inj h)
    exact ⟨rfl, rfl, .inr (.inr ⟨rfl, rfl, rfl⟩)⟩

/-- A clean table is the one uploaded last. -/
def Honest (pool : SlotPool) (uploads : List (List KvSlotDesc)) : Prop :=
  pool.dirty = false → uploads.getLast? = some pool.descs

theorem step_keeps {c : Call} {emitted : List (List KvSlotDesc)} (h : pool.step c = some (next, emitted))
    (hlaid : pool.Laid) (hhonest : pool.Honest uploads) : next.Laid ∧ next.Honest (uploads ++ emitted) := by
  obtain ⟨hcap, hper, ⟨hdescs, hdirty, rfl⟩ | ⟨id, d, s, hd, hs, hdescs, hdirty, rfl⟩ | ⟨hdescs, hdirty, rfl⟩⟩ :=
    step_cases h
  · refine ⟨hlaid.congr hdescs hcap hper, fun hclean => ?_⟩
    rw [List.append_nil, hdescs]
    exact hhonest (hdirty ▸ hclean)
  · refine ⟨(hlaid.writeLen hd hs).congr hdescs hcap hper, fun hclean => ?_⟩
    rw [hdirty] at hclean
    cases hclean
  · refine ⟨hlaid.congr hdescs hcap hper, fun _ => ?_⟩
    rw [List.getLast?_concat, hdescs]

theorem acquire_fresh {i : ℕ} (h : pool.acquire = some (some i, next)) :
    ∃ d, next.descs[i]? = some d ∧ d.seqLen = 0 := by
  rw [acquire] at h
  split at h
  · cases h
  · obtain ⟨q, hq, heq⟩ := Option.map_eq_some_iff.1 h
    obtain ⟨hi, rfl⟩ := Prod.mk.inj heq
    obtain rfl := Option.some.inj hi
    obtain ⟨d, hd, rfl | ⟨rfl, hzero⟩⟩ := reset_cases hq
    · have hlt := (List.getElem?_eq_some_iff.1 hd).1
      exact ⟨_, List.getElem?_set_self hlt, rfl⟩
    · exact ⟨d, hd, hzero⟩

theorem Laid.represents (h : pool.Laid) (hhonest : pool.Honest uploads) : pool.Represents uploads := by
  have hat : ∀ d ∈ pool.descs, ∃ i < pool.descs.length, pool.descs[i]? = some d := by
    intro d hd
    obtain ⟨i, hi⟩ := List.mem_iff_getElem?.1 hd
    exact ⟨i, (List.getElem?_eq_some_iff.1 hi).1, hi⟩
  have harena : pool.arenaBytes = pool.descs.length * pool.slabBytes := by
    rw [arenaBytes, Nat.mod_mul_mod, slabBytes, ← Nat.mul_assoc]
    refine Nat.mod_eq_of_lt ?_
    rw [Nat.mul_assoc]
    exact h.fits
  have hnext : ∀ {i j : ℕ}, i < j → i * pool.slabBytes + pool.slabBytes ≤ j * pool.slabBytes := fun hij =>
    Nat.succ_mul _ _ ▸ Nat.mul_le_mul_right _ hij
  refine ⟨fun i j d e hij hi hj => ?_, fun d hd => ?_, fun d hd => ?_, fun _ _ => acquire_fresh, hhonest⟩
  · obtain ⟨hk, hv, -⟩ := h.at_index i d hi
    obtain ⟨hk', hv', -⟩ := h.at_index j e hj
    rw [hk, hv, hk', hv']
    exact ⟨hnext hij, hnext hij⟩
  · obtain ⟨i, hlt, hi⟩ := hat d hd
    obtain ⟨hk, hv, -⟩ := h.at_index i d hi
    rw [hk, hv, harena]
    exact ⟨hnext hlt, hnext hlt⟩
  · obtain ⟨i, -, hi⟩ := hat d hd
    obtain ⟨-, -, hcap, s, hs, hlen⟩ := h.at_index i d hi
    have hsmall := Nat.lt_of_le_of_lt hs h.small
    rw [hlen, hcap]
    exact ⟨Int32.zero_le_ofNat_of_lt hsmall, (Int32.ofNat_le_iff_le hsmall h.small).2 hs⟩

end Steps

section Construction
variable {memAvailable : Option ℕ} {nSlots capTokens perPosBytes : ℕ} {pool : SlotPool}

theorem new_ok (h : new memAvailable nSlots capTokens perPosBytes = some (.ok pool)) :
    0 < nSlots ∧ roundedCap capTokens * perPosBytes % 2 ^ 64 * nSlots < 2 ^ 64 ∧
      pool = ⟨(List.range nSlots).map fun i =>
        let base := i * (roundedCap capTokens * perPosBytes % 2 ^ 64) % 2 ^ 64
        ⟨base, base, 0, Int32.ofNat (roundedCap capTokens)⟩,
        List.replicate nSlots false, roundedCap capTokens, perPosBytes, true⟩ := by
  rw [new] at h
  split at h
  · cases h
  next hpos =>
  cases htotal : (checkedMul (roundedCap capTokens * perPosBytes % 2 ^ 64) nSlots).bind (checkedMul · 2) with
  | none =>
    simp only [htotal] at h
    cases h
  | some total =>
    simp only [htotal] at h
    obtain ⟨arena, harena, -⟩ := Option.bind_eq_some_iff.1 htotal
    rw [checkedMul] at harena
    split at harena
    · next hfits =>
      cases hpre : preflightAlloc memAvailable total r9700VramBytes with
      | error e =>
        rw [hpre] at h
        cases h
      | ok u =>
        rw [hpre] at h
        cases h
        exact ⟨Nat.pos_of_ne_zero fun h => hpos (.inl h), hfits, rfl⟩
    · cases harena

theorem new_laid (h : new memAvailable nSlots capTokens perPosBytes = some (.ok pool))
    (hcap : roundedCap capTokens < 2 ^ 31) (hslab : roundedCap capTokens * perPosBytes < 2 ^ 64) :
    pool.Laid ∧ pool.Honest [] := by
  obtain ⟨-, hfits, rfl⟩ := new_ok h
  rw [Nat.mod_eq_of_lt hslab, Nat.mul_comm] at hfits
  refine ⟨⟨?_, hcap, fun i d hd => ?_⟩, fun hclean => by cases hclean⟩
  · rw [List.length_map, List.length_range]
    exact hfits
  · rw [List.getElem?_map, Option.map_eq_some_iff] at hd
    obtain ⟨j, hj, rfl⟩ := hd
    obtain ⟨hlt, hj⟩ := List.getElem?_eq_some_iff.1 hj
    rw [List.getElem_range] at hj
    rw [List.length_range] at hlt
    subst hj
    have hbase : i * (roundedCap capTokens * perPosBytes % 2 ^ 64) % 2 ^ 64 =
        i * (roundedCap capTokens * perPosBytes) := by
      rw [Nat.mod_eq_of_lt hslab]
      exact Nat.mod_eq_of_lt (Nat.lt_of_le_of_lt (Nat.mul_le_mul_right _ (Nat.le_of_lt hlt)) hfits)
    exact ⟨hbase, hbase, rfl, 0, Nat.zero_le _, rfl⟩

private theorem roundedCap_dvd (capTokens : ℕ) : 128 ∣ roundedCap capTokens := by
  rw [roundedCap, pageTokens]
  exact (Nat.dvd_mod_iff (by decide)).2 (Nat.dvd_mul_left _ _)

/-- Read as an `i32`, a capacity from 2^31 on is negative or can be exceeded. -/
private theorem narrowed_cap {cap : ℕ} (hpage : 128 ∣ cap) (hbig : 2 ^ 31 ≤ cap) (h0 : 0 ≤ Int32.ofNat cap) :
    ∃ x ≤ cap, ¬ Int32.ofNat x ≤ Int32.ofNat cap := by
  rw [Int32.le_iff_toInt_le, Int32.toInt_ofNat', Int.bmod_def] at h0
  have hzero : (0 : Int32).toInt = 0 := rfl
  rw [hzero] at h0
  refine ⟨cap % 2 ^ 32 + 1, by simp only [Int32.size] at h0; omega, fun hle => ?_⟩
  rw [Int32.le_iff_toInt_le, Int32.toInt_ofNat', Int32.toInt_ofNat', Int.bmod_def, Int.bmod_def] at hle
  simp only [Int32.size] at h0 hle
  omega

/-- An accepted pool represents its slots in every run exactly when the capacity is an `i32` and one
slab's size a `usize`. -/
theorem represents_iff (h : new memAvailable nSlots capTokens perPosBytes = some (.ok pool)) :
    (∀ calls uploads reached, Runs step (fun _ _ => True) pool calls uploads reached → reached.Represents uploads) ↔
      roundedCap capTokens < 2 ^ 31 ∧ roundedCap capTokens * perPosBytes < 2 ^ 64 := by
  constructor
  · intro hall
    obtain ⟨hpos, -, hpool⟩ := new_ok h
    have hfirst : ∃ d, pool.descs[0]? = some d ∧ d.cap = Int32.ofNat (roundedCap capTokens) := by
      refine ⟨⟨0, 0, 0, Int32.ofNat (roundedCap capTokens)⟩, ?_, rfl⟩
      rw [hpool, List.getElem?_map, List.getElem?_range hpos]
      simp
    obtain ⟨d, hd, hdcap⟩ := hfirst
    have hcaps : pool.capTokens = roundedCap capTokens := by rw [hpool]
    have hstart := hall [] [] pool .nil
    constructor
    · by_contra hbig
      have h0 : 0 ≤ Int32.ofNat (roundedCap capTokens) := by
        obtain ⟨hlow, hhigh⟩ := hstart.lengths d (List.mem_of_getElem? hd)
        rw [← hdcap]
        exact Int32.le_trans hlow hhigh
      obtain ⟨x, hx, hover⟩ := narrowed_cap (roundedCap_dvd capTokens) (Nat.le_of_not_lt hbig) h0
      have hlt := (List.getElem?_eq_some_iff.1 hd).1
      have hset : ∃ e next, pool.step (.setSeqLen 0 x) = some (next, []) ∧ next.descs[0]? = some e ∧
          e.seqLen = Int32.ofNat x ∧ e.cap = d.cap := by
        rw [step, setSeqLen, if_neg (by rw [hcaps]; exact Nat.not_lt.2 hx), hd]
        by_cases hsame : d.seqLen = Int32.ofNat x
        · exact ⟨d, pool, by simp [hsame], hd, hsame, rfl⟩
        · exact ⟨_, pool.writeLen 0 d x, by simp [hsame, writeLen], List.getElem?_set_self hlt, rfl, rfl⟩
      obtain ⟨e, next, hnext, he, hlen, hecap⟩ := hset
      have hrun : Runs step (fun _ _ => True) pool ([] ++ [.setSeqLen 0 x]) ([] ++ []) next := .snoc .nil trivial hnext
      have hle := ((hall _ _ _ hrun).lengths e (List.mem_of_getElem? he)).2
      rw [hlen, hecap, hdcap] at hle
      exact hover hle
    · have hin := (hstart.inside d (List.mem_of_getElem? hd)).1
      have harena : pool.arenaBytes < 2 ^ 64 := Nat.mod_lt _ (Nat.two_pow_pos 64)
      have hslab : pool.slabBytes = roundedCap capTokens * perPosBytes := by rw [slabBytes, hpool]
      rw [← hslab]
      omega
  · rintro ⟨hcap, hslab⟩ calls uploads reached hrun
    obtain ⟨hlaid, hhonest⟩ := new_laid h hcap hslab
    have hinv := hrun.invariant (P := fun uploads p => p.Laid ∧ p.Honest uploads) ⟨hlaid, hhonest⟩
      fun uploads p c next emitted hp _ hstep => step_keeps hstep hp.1 hp.2
    exact hinv.1.represents hinv.2

theorem represents_iff_small :
    ∃ pool, new (some (64 * 1024 * 1024 * 1024)) 2 100 4 = some (.ok pool) ∧
      ∀ calls uploads reached, Runs step (fun _ _ => True) pool calls uploads reached → reached.Represents uploads := by
  have hnew : ∃ pool, new (some (64 * 1024 * 1024 * 1024)) 2 100 4 = some (.ok pool) := ⟨_, rfl⟩
  obtain ⟨pool, hpool⟩ := hnew
  exact ⟨pool, hpool, (represents_iff hpool).2 ⟨by decide, by decide⟩⟩

/-- A slab of 2^31 one-byte positions is accepted; its descriptor's capacity is negative. -/
theorem negative_capacity :
    ∃ pool, new (some (64 * 1024 * 1024 * 1024)) 1 (2 ^ 31) 1 = some (.ok pool) ∧ ¬ pool.Represents [] := by
  refine ⟨_, rfl, fun h => ?_⟩
  have hlen := (h.lengths _ List.mem_cons_self).2
  exact absurd hlen (by decide +kernel)

end Construction

end SlotPool
end Hipscope.Residency
