import Hipscope.Lru.Cache
import Mathlib.Data.List.Induction
import Mathlib.Logic.Function.Basic

/-! The weight pager: which weights are in device memory, in what order they were used, and what they weigh. -/
namespace Hipscope.Residency
open Lru

inductive ExpertRole where
  | gateUp
  | down
  deriving DecidableEq

inductive SharedRole where
  | gate
  | up
  | down
  | sigmoidGate
  deriving DecidableEq

inductive AttnRole where
  | q
  | k
  | v
  | o
  | qkv
  deriving DecidableEq

inductive NormKind where
  | attn
  | ffn
  | final
  deriving DecidableEq

/-- A weight that moves between host and device. -/
inductive WeightId where
  | expert (layer expert : UInt16) (role : ExpertRole)
  | sharedExpert (layer : UInt16) (role : SharedRole)
  | router (layer : UInt16)
  | denseAttn (layer : UInt16) (role : AttnRole)
  | norm (layer : UInt16) (kind : NormKind)
  | embed
  | lmHead
  deriving DecidableEq

structure ByteRange where
  offset : ℕ
  len : ℕ
  deriving DecidableEq

structure PagerConfig where
  vramBudgetBytes : ℕ

/-- The device address of a weight and its bytes. -/
structure Resident where
  tensor : ℕ
  bytes : ℕ
  deriving DecidableEq

inductive WeightPagerError where
  | notRegistered (id : WeightId)
  | hip (message : String)
  | budgetExhausted (needBytes inUse budget : ℕ)
  deriving DecidableEq

def u64Max : ℕ := 2 ^ 64 - 1

/-- `cache` is the resident map, the recency queue and `vram_used_bytes`. -/
structure WeightPager where
  cache : Cache WeightId Resident
  catalog : WeightId → Option ByteRange
  config : PagerConfig

namespace WeightPager

def new (config : PagerConfig) : WeightPager := ⟨⟨∅, [], 0⟩, fun _ => none, config⟩

def register (p : WeightPager) (id : WeightId) (range : ByteRange) : WeightPager :=
  { p with catalog := Function.update p.catalog id (some range) }

def wouldFit (p : WeightPager) (need : ℕ) : Except WeightPagerError Unit :=
  let budget := p.config.vramBudgetBytes
  if budget ≠ u64Max ∧ need > budget then .error (.budgetExhausted need p.cache.used budget) else .ok ()

def evictLruUntil (p : WeightPager) (need : ℕ) : Except WeightPagerError Unit × WeightPager :=
  match p.wouldFit need with
  | .error e => (.error e, p)
  | .ok () =>
    let budget := p.config.vramBudgetBytes
    let (done, cache) := p.cache.evictUntil Resident.bytes (budget - need)
    (if done then .ok () else .error (.budgetExhausted need cache.used budget), { p with cache })

def touchLru (p : WeightPager) (id : WeightId) : WeightPager := { p with cache := p.cache.touch id }

/-- The weight and a count that saturates. -/
def admitWeight (p : WeightPager) (id : WeightId) (tensor bytes : ℕ) : WeightPager :=
  { p with cache := p.cache.push Resident.bytes u64Max id ⟨tensor, bytes⟩ }

/-- Room for a weight that is about to be fetched. -/
def makeRoom (p : WeightPager) (need : ℕ) : Except WeightPagerError Unit × WeightPager :=
  let budget := p.config.vramBudgetBytes
  if budget ≠ u64Max ∧ min (p.cache.used + need) u64Max > budget then p.evictLruUntil need else (.ok (), p)

/-- `fetched` is what the transport answers: an address, or its error. -/
def ensureResident (p : WeightPager) (id : WeightId) (fetched : Except String ℕ) :
    Except WeightPagerError Unit × WeightPager :=
  if id ∈ p.cache.resident then (.ok (), p.touchLru id)
  else
    match p.catalog id with
    | none => (.error (.notRegistered id), p)
    | some range =>
      match p.wouldFit range.len with
      | .error e => (.error e, p)
      | .ok () =>
        match p.makeRoom range.len with
        | (.error e, p) => (.error e, p)
        | (.ok (), p) =>
          match fetched with
          | .error message => (.error (.hip message), p)
          | .ok tensor => (.ok (), p.admitWeight id tensor range.len)

def insertResident (p : WeightPager) (id : WeightId) (tensor bytes : ℕ) : WeightPager :=
  { p with cache := p.cache.remove Resident.bytes id }.admitWeight id tensor bytes

def freeAll (p : WeightPager) : WeightPager := { p with cache := ⟨∅, [], 0⟩ }

inductive Call where
  | register (id : WeightId) (range : ByteRange)
  | ensureResident (id : WeightId) (fetched : Except String ℕ)
  | insertResident (id : WeightId) (tensor bytes : ℕ)
  | touchLru (id : WeightId)
  | evictLruUntil (need : ℕ)
  | freeAll

def call (p : WeightPager) : Call → Except WeightPagerError Unit × WeightPager
  | .register id range => (.ok (), p.register id range)
  | .ensureResident id fetched => p.ensureResident id fetched
  | .insertResident id tensor bytes => (.ok (), p.insertResident id tensor bytes)
  | .touchLru id => (.ok (), p.touchLru id)
  | .evictLruUntil need => p.evictLruUntil need
  | .freeAll => (.ok (), p.freeAll)

/-- The pager after any sequence of calls. -/
def run (config : PagerConfig) (calls : List Call) : WeightPager :=
  calls.foldl (fun p c => (p.call c).2) (new config)

/-- The bytes of everything resident. -/
def residentBytes (p : WeightPager) : ℕ := total Resident.bytes p.cache.resident

/-- The recency queue lists the resident keys; the counter is at most what they weigh. -/
def Balanced (p : WeightPager) : Prop := p.cache.Balanced Resident.bytes

section Calls
variable {p next : WeightPager} {id : WeightId} {need : ℕ} {outcome : Except WeightPagerError Unit}

theorem wouldFit_cases (p : WeightPager) (need : ℕ) :
    (p.wouldFit need = .ok () ∧ (p.config.vramBudgetBytes = u64Max ∨ need ≤ p.config.vramBudgetBytes)) ∨
    (p.wouldFit need = .error (.budgetExhausted need p.cache.used p.config.vramBudgetBytes) ∧
      p.config.vramBudgetBytes ≠ u64Max ∧ p.config.vramBudgetBytes < need) := by
  unfold wouldFit
  dsimp only
  split_ifs with h
  · exact .inr ⟨rfl, h⟩
  · refine .inl ⟨rfl, ?_⟩
    rw [not_and_or, not_not, not_lt] at h
    exact h

/-- An eviction is refused before it starts, or frees what is needed. -/
theorem evictLruUntil_cases (h : p.Balanced) (hcall : p.evictLruUntil need = (outcome, next)) :
    (outcome = .error (.budgetExhausted need p.cache.used p.config.vramBudgetBytes) ∧ next = p ∧
      p.config.vramBudgetBytes < need) ∨
    (outcome = .ok () ∧ (p.config.vramBudgetBytes = u64Max ∨ need ≤ p.config.vramBudgetBytes) ∧
      ∃ cache, next = { p with cache } ∧
        Cache.Evicted Resident.bytes (p.config.vramBudgetBytes - need) p.cache true cache) := by
  unfold evictLruUntil at hcall
  obtain ⟨hfit, hle⟩ | ⟨hfit, -, hlt⟩ := p.wouldFit_cases need
  · have hevicted := Cache.Balanced.evictUntil h (p.config.vramBudgetBytes - need)
    rw [hfit] at hcall
    have hdone := hevicted.succeeds
    rw [hdone] at hevicted
    simp only [hdone, if_true] at hcall
    obtain ⟨rfl, rfl⟩ := Prod.mk.inj hcall
    exact .inr ⟨rfl, hle, _, rfl, hevicted⟩
  · rw [hfit] at hcall
    obtain ⟨rfl, rfl⟩ := Prod.mk.inj hcall
    exact .inl ⟨rfl, rfl, hlt⟩

/-- For a weight that fits the budget there is always room, after evictions or without. -/
theorem makeRoom_spec (h : p.Balanced) (hfit : p.wouldFit need = .ok ()) :
    ∃ cache, p.makeRoom need = (.ok (), { p with cache }) ∧
      (p.config.vramBudgetBytes ≠ u64Max → min (cache.used + need) u64Max ≤ p.config.vramBudgetBytes) ∧
      (cache = p.cache ∨
        Cache.Evicted Resident.bytes (p.config.vramBudgetBytes - need) p.cache true cache) := by
  unfold makeRoom
  dsimp only
  split_ifs with hfull
  · cases hcall : p.evictLruUntil need with
    | mk outcome next =>
      obtain ⟨-, -, hlt⟩ | ⟨rfl, hle, cache, rfl, hevicted⟩ := evictLruUntil_cases h hcall
      · obtain ⟨-, hle⟩ | ⟨hno, -⟩ := p.wouldFit_cases need
        · omega
        · rw [hfit] at hno
          cases hno
      · refine ⟨cache, rfl, fun hfinite => ?_, .inr hevicted⟩
        have hused := hevicted.used_le
        omega
  · refine ⟨p.cache, rfl, fun hfinite => ?_, .inl rfl⟩
    rw [not_and, not_lt] at hfull
    exact hfull hfinite

/-- The branches of a request. -/
theorem ensureResident_cases (h : p.Balanced) {fetched : Except String ℕ}
    (hcall : p.ensureResident id fetched = (outcome, next)) :
    (id ∈ p.cache.resident ∧ outcome = .ok () ∧ next = p.touchLru id) ∨
    (id ∉ p.cache.resident ∧ p.catalog id = none ∧ outcome = .error (.notRegistered id) ∧ next = p) ∨
    ∃ range, id ∉ p.cache.resident ∧ p.catalog id = some range ∧
      ((outcome = .error (.budgetExhausted range.len p.cache.used p.config.vramBudgetBytes) ∧ next = p ∧
        p.config.vramBudgetBytes < range.len) ∨
      ∃ cache, p.makeRoom range.len = (.ok (), { p with cache }) ∧ p.wouldFit range.len = .ok () ∧
        ((∃ message, fetched = .error message ∧ outcome = .error (.hip message) ∧ next = { p with cache }) ∨
        ∃ tensor, fetched = .ok tensor ∧ outcome = .ok () ∧
          next = { p with cache }.admitWeight id tensor range.len)) := by
  unfold ensureResident at hcall
  split_ifs at hcall with hresident
  · obtain ⟨rfl, rfl⟩ := Prod.mk.inj hcall
    exact .inl ⟨hresident, rfl, rfl⟩
  right
  cases hrange : p.catalog id with
  | none =>
    rw [hrange] at hcall
    obtain ⟨rfl, rfl⟩ := Prod.mk.inj hcall
    exact .inl ⟨hresident, rfl, rfl, rfl⟩
  | some range =>
    right
    refine ⟨range, hresident, rfl, ?_⟩
    obtain ⟨hfit, -⟩ | ⟨hfit, -, hlt⟩ := p.wouldFit_cases range.len
    · obtain ⟨cache, hroom, -⟩ := makeRoom_spec h hfit
      right
      refine ⟨cache, hroom, hfit, ?_⟩
      simp only [hrange, hfit, hroom] at hcall
      cases fetched with
      | error message =>
        obtain ⟨rfl, rfl⟩ := Prod.mk.inj hcall
        exact .inl ⟨message, rfl, rfl, rfl⟩
      | ok tensor =>
        obtain ⟨rfl, rfl⟩ := Prod.mk.inj hcall
        exact .inr ⟨tensor, rfl, rfl, rfl⟩
    · left
      simp only [hrange, hfit] at hcall
      obtain ⟨rfl, rfl⟩ := Prod.mk.inj hcall
      exact ⟨rfl, rfl, hlt⟩

/-- Making room keeps the books and brings nothing in. -/
theorem makeRoom_keeps (h : p.Balanced) {cache : Cache WeightId Resident} (hfit : p.wouldFit need = .ok ())
    (hroom : p.makeRoom need = (.ok (), { p with cache })) :
    cache.Balanced Resident.bytes ∧ (p.cache.used = p.residentBytes → cache.used = total Resident.bytes cache.resident) ∧
      (∀ k ∈ cache.resident, k ∈ p.cache.resident) ∧
      (p.config.vramBudgetBytes ≠ u64Max → min (cache.used + need) u64Max ≤ p.config.vramBudgetBytes) := by
  obtain ⟨cache', hroom', hlimit, hcases⟩ := makeRoom_spec h hfit
  rw [hroom] at hroom'
  obtain rfl : cache = cache' := congrArg WeightPager.cache (Prod.mk.inj hroom').2
  obtain rfl | hevicted := hcases
  · exact ⟨h, id, fun _ hk => hk, hlimit⟩
  · refine ⟨hevicted.balanced, hevicted.used_eq, fun k hk => ?_, hlimit⟩
    exact h.mem_iff.1 (hevicted.suffix.subset (hevicted.balanced.mem_iff.2 hk))

theorem Balanced.insertResident (h : p.Balanced) (id : WeightId) (tensor bytes : ℕ) :
    (p.insertResident id tensor bytes).Balanced :=
  (Cache.Balanced.remove h id).push (Cache.notMem_remove id)

theorem Balanced.ensureResident (h : p.Balanced) (id : WeightId) (fetched : Except String ℕ) :
    (p.ensureResident id fetched).2.Balanced := by
  cases hcall : p.ensureResident id fetched with
  | mk outcome next =>
    obtain ⟨-, -, rfl⟩ | ⟨-, -, -, rfl⟩ | ⟨range, hcold, -, hcases⟩ := ensureResident_cases h hcall
    · exact Cache.Balanced.touch h id
    · exact h
    obtain ⟨-, rfl, -⟩ | ⟨cache, hroom, hfit, hcases⟩ := hcases
    · exact h
    obtain ⟨hbalanced, -, hsubset, -⟩ := makeRoom_keeps h hfit hroom
    obtain ⟨-, -, -, rfl⟩ | ⟨tensor, -, -, rfl⟩ := hcases
    · exact hbalanced
    · exact Cache.Balanced.push hbalanced fun hk => hcold (hsubset id hk)

theorem Balanced.evictLruUntil (h : p.Balanced) (need : ℕ) : (p.evictLruUntil need).2.Balanced := by
  cases hcall : p.evictLruUntil need with
  | mk outcome next =>
    obtain ⟨-, rfl, -⟩ | ⟨-, -, cache, rfl, hevicted⟩ := evictLruUntil_cases h hcall
    · exact h
    · exact hevicted.balanced

theorem Balanced.call (h : p.Balanced) (c : Call) : (p.call c).2.Balanced := by
  cases c with
  | register id range => exact h
  | ensureResident id fetched => exact h.ensureResident id fetched
  | insertResident id tensor bytes => exact h.insertResident id tensor bytes
  | touchLru id => exact Cache.Balanced.touch h id
  | evictLruUntil need => exact h.evictLruUntil need
  | freeAll => exact Cache.empty_balanced

/-- A call keeps the counter exact unless what is resident outgrows it. -/
theorem call_used_eq (h : p.Balanced) (hused : p.cache.used = p.residentBytes) (c : Call)
    (hsmall : (p.call c).2.residentBytes < 2 ^ 64) : (p.call c).2.cache.used = (p.call c).2.residentBytes := by
  have hmax : ∀ n < 2 ^ 64, n ≤ u64Max := fun n hn => Nat.le_sub_one_of_lt hn
  cases c with
  | register id range => exact hused
  | ensureResident id fetched =>
    simp only [call] at hsmall ⊢
    cases hcall : p.ensureResident id fetched with
    | mk outcome next =>
      rw [hcall] at hsmall
      obtain ⟨-, -, rfl⟩ | ⟨-, -, -, rfl⟩ | ⟨range, hcold, -, hcases⟩ := ensureResident_cases h hcall
      · simp only [touchLru, Cache.touch, residentBytes]
        split_ifs <;> exact hused
      · exact hused
      obtain ⟨-, rfl, -⟩ | ⟨cache, hroom, hfit, hcases⟩ := hcases
      · exact hused
      obtain ⟨-, hkeeps, hsubset, -⟩ := makeRoom_keeps h hfit hroom
      obtain ⟨-, -, -, rfl⟩ | ⟨tensor, -, -, rfl⟩ := hcases
      · exact hkeeps hused
      · exact Cache.push_used_eq (hkeeps hused) (fun hk => hcold (hsubset id hk)) (hmax _ hsmall)
  | insertResident id tensor bytes =>
    exact Cache.push_used_eq (Cache.remove_used_eq hused id) (Cache.notMem_remove id) (hmax _ hsmall)
  | touchLru id =>
    simp only [call, touchLru, Cache.touch, residentBytes]
    split_ifs <;> exact hused
  | evictLruUntil need =>
    simp only [call]
    cases hcall : p.evictLruUntil need with
    | mk outcome next =>
      obtain ⟨-, rfl, -⟩ | ⟨-, -, cache, rfl, hevicted⟩ := evictLruUntil_cases h hcall
      · exact hused
      · exact hevicted.used_eq hused
  | freeAll => rfl

theorem call_config (h : p.Balanced) (c : Call) : (p.call c).2.config = p.config := by
  cases c with
  | ensureResident id fetched =>
    simp only [call]
    cases hcall : p.ensureResident id fetched with
    | mk outcome next =>
      obtain ⟨-, -, rfl⟩ | ⟨-, -, -, rfl⟩ | ⟨range, -, -, hcases⟩ := ensureResident_cases h hcall
      · rfl
      · rfl
      obtain ⟨-, rfl, -⟩ | ⟨cache, -, -, ⟨-, -, -, rfl⟩ | ⟨-, -, -, rfl⟩⟩ := hcases <;> rfl
  | evictLruUntil need =>
    simp only [call]
    cases hcall : p.evictLruUntil need with
    | mk outcome next =>
      obtain ⟨-, rfl, -⟩ | ⟨-, -, cache, rfl, -⟩ := evictLruUntil_cases h hcall <;> rfl
  | _ => rfl

end Calls

section Runs
variable {config : PagerConfig} {calls : List Call} {c : Call}

theorem run_snoc : run config (calls ++ [c]) = ((run config calls).call c).2 := by
  rw [run, List.foldl_append]
  rfl

theorem run_balanced (config : PagerConfig) (calls : List Call) : (run config calls).Balanced := by
  induction calls using List.reverseRecOn with
  | nil => exact Cache.empty_balanced
  | append_singleton calls c ih =>
    rw [run_snoc]
    exact ih.call c

theorem run_config (config : PagerConfig) (calls : List Call) : (run config calls).config = config := by
  induction calls using List.reverseRecOn with
  | nil => rfl
  | append_singleton calls c ih => rw [run_snoc, call_config (run_balanced config calls), ih]

theorem run_used_eq (h : ∀ n, (run config (calls.take n)).residentBytes < 2 ^ 64) :
    (run config calls).cache.used = (run config calls).residentBytes := by
  induction calls using List.reverseRecOn with
  | nil => rfl
  | append_singleton calls c ih =>
    have hbefore : ∀ n, (run config (calls.take n)).residentBytes < 2 ^ 64 := by
      intro n
      have hprefix := h (min n calls.length)
      rwa [List.take_append_of_le_length (Nat.min_le_right _ _), ← List.take_eq_take_min] at hprefix
    have hlast := h (calls.length + 1)
    rw [List.take_of_length_le (by rw [List.length_append, List.length_singleton])] at hlast
    rw [run_snoc] at hlast ⊢
    exact call_used_eq (run_balanced config calls) (ih hbefore) c hlast

end Runs

/-- The weight a call asks room for. -/
def requested (p : WeightPager) : Call → Option ℕ
  | .ensureResident id _ => (p.catalog id).map ByteRange.len
  | .evictLruUntil need => some need
  | _ => none

/-- What holds after any calls. -/
structure BooksKept (config : PagerConfig) (calls : List Call) : Prop where
  nodup : (run config calls).cache.lru.Nodup
  perm : (run config calls).cache.lru.Perm (run config calls).cache.resident.keys
  used_le : (run config calls).cache.used ≤ (run config calls).residentBytes
  used_eq : (∀ n, (run config (calls.take n)).residentBytes < 2 ^ 64) →
    (run config calls).cache.used = (run config calls).residentBytes
  within : ∀ id fetched, id ∉ (run config calls).cache.resident →
    ((run config calls).ensureResident id fetched).1 = .ok () → config.vramBudgetBytes ≠ u64Max →
    ((run config calls).ensureResident id fetched).2.cache.used ≤ config.vramBudgetBytes
  exhausted : ∀ c needBytes inUse budget,
    ((run config calls).call c).1 = .error (.budgetExhausted needBytes inUse budget) →
    (run config calls).requested c = some needBytes ∧ budget = config.vramBudgetBytes ∧ budget < needBytes

/-- Queue and map agree, the counter never counts more than is held and counts all of it while the sum has stayed
below 2^64, and only what alone exceeds the budget is refused. -/
theorem books_kept (config : PagerConfig) (calls : List Call) : BooksKept config calls := by
  have h := run_balanced config calls
  have hconfig := run_config config calls
  constructor
  case nodup => exact h.nodup
  case perm => exact h.perm
  case used_le => exact h.used_le
  case used_eq => exact run_used_eq
  case within =>
    intro id fetched hcold hok hfinite
    cases hcall : (run config calls).ensureResident id fetched with
    | mk outcome next =>
      rw [hcall] at hok
      obtain rfl := hok
      obtain ⟨hk, -⟩ | ⟨-, -, hno, -⟩ | ⟨range, -, -, hcases⟩ := ensureResident_cases h hcall
      · exact absurd hk hcold
      · cases hno
      obtain ⟨hno, -⟩ | ⟨cache, hroom, hfit, ⟨_, -, hno, -⟩ | ⟨tensor, -, -, rfl⟩⟩ := hcases
      · cases hno
      · cases hno
      · have hle := (makeRoom_keeps h hfit hroom).2.2.2
        rw [hconfig] at hle
        exact hle hfinite
  case exhausted =>
    intro c needBytes inUse budget herror
    cases c with
    | ensureResident id fetched =>
      simp only [call] at herror
      cases hcall : (run config calls).ensureResident id fetched with
      | mk outcome next =>
        rw [hcall] at herror
        obtain rfl := herror
        obtain ⟨-, hno, -⟩ | ⟨-, -, hno, -⟩ | ⟨range, -, hrange, hcases⟩ := ensureResident_cases h hcall
        · cases hno
        · cases hno
        obtain ⟨hout, -, hlt⟩ | ⟨cache, -, -, ⟨_, -, hno, -⟩ | ⟨_, -, hno, -⟩⟩ := hcases
        · cases hout
          exact ⟨by rw [requested, hrange]; rfl, by rw [hconfig], hlt⟩
        · cases hno
        · cases hno
    | evictLruUntil need =>
      simp only [call] at herror
      cases hcall : (run config calls).evictLruUntil need with
      | mk outcome next =>
        rw [hcall] at herror
        obtain rfl := herror
        obtain ⟨hout, -, hlt⟩ | ⟨hno, -⟩ := evictLruUntil_cases h hcall
        · cases hout
          exact ⟨rfl, by rw [hconfig], hlt⟩
        · cases hno
    | _ => cases herror

/-- The counter saturates where the sum does not. -/
theorem counter_saturates : ∃ calls, (run ⟨u64Max⟩ calls).cache.used ≠ (run ⟨u64Max⟩ calls).residentBytes :=
  ⟨[.insertResident .embed 0 u64Max, .insertResident .lmHead 0 u64Max], by decide⟩

end WeightPager
end Hipscope.Residency
