import Mathlib.Algebra.BigOperators.Group.List.Basic
import Mathlib.Algebra.GroupWithZero.Nat
import Mathlib.Data.List.AList

/-! A cache of weighted values with a recency order and a running total. -/
namespace Hipscope.Lru
variable {κ ν : Type} [DecidableEq κ]

/-- Values by key, the keys from least to most recently used, and the weight counted so far. -/
structure Cache (κ ν : Type) where
  resident : AList fun _ : κ => ν
  lru : List κ
  used : ℕ

section Weights
variable (weight : ν → ℕ)

/-- The weight of all that is held. -/
def total (held : AList fun _ : κ => ν) : ℕ := (held.entries.map fun e => weight e.2).sum

/-- The weight under a key, zero for none. -/
def weightOf (held : AList fun _ : κ => ν) (k : κ) : ℕ := (held.lookup k).elim 0 weight

private theorem sum_kerase {l : List (Sigma fun _ : κ => ν)} {k : κ} {v : ν} (h : l.dlookup k = some v) :
    (l.map fun e => weight e.2).sum = weight v + ((l.kerase k).map fun e => weight e.2).sum := by
  induction l with
  | nil => cases h
  | cons e l ih =>
    obtain ⟨k', v'⟩ := e
    by_cases hk : k' = k
    · subst hk
      rw [List.dlookup_cons_eq] at h
      obtain rfl := Option.some.inj h
      have hrest : List.kerase k' (⟨k', v'⟩ :: l) = l := List.kerase_cons_eq rfl
      rw [hrest, List.map_cons, List.sum_cons]
    · rw [List.dlookup_cons_ne l ⟨k', v'⟩ (Ne.symm hk)] at h
      rw [List.kerase_cons_ne (Ne.symm hk), List.map_cons, List.map_cons, List.sum_cons, List.sum_cons, ih h]
      omega

variable {held : AList fun _ : κ => ν} {k : κ} {v : ν}

theorem total_of_lookup (h : held.lookup k = some v) :
    total weight held = weight v + total weight (held.erase k) := sum_kerase weight h

theorem erase_of_lookup_none (h : held.lookup k = none) : held.erase k = held := by
  apply AList.ext
  exact List.kerase_of_notMem_keys (AList.lookup_eq_none.1 h)

theorem total_insert : total weight (held.insert k v) = weight v + total weight (held.erase k) := by
  rw [total, AList.entries_insert, List.map_cons, List.sum_cons]
  rfl

/-- The total is the sum over the keys, in any order. -/
theorem total_eq_sum {keys : List κ} (h : keys.Perm held.keys) :
    total weight held = (keys.map (weightOf weight held)).sum := by
  have hentries : held.entries.map (fun e => weight e.2) = held.keys.map (weightOf weight held) := by
    rw [AList.keys, List.keys, List.map_map]
    refine List.map_congr_left fun e he => ?_
    have hlookup : held.lookup e.1 = some e.2 := List.mem_dlookup held.nodupKeys he
    rw [Function.comp_apply, weightOf, hlookup]
    rfl
  rw [total, hentries]
  exact (h.map _).sum_eq.symm

end Weights

namespace Cache

/-- The key moves to the recent end, if it is in the order. -/
def touch (c : Cache κ ν) (k : κ) : Cache κ ν :=
  if k ∈ c.lru then { c with lru := c.lru.erase k ++ [k] } else c

/-- From the front on, until the count is at most the target; false when the order runs out. -/
def evictLoop (weight : ν → ℕ) (target : ℕ) : List κ → (AList fun _ : κ => ν) → ℕ → Bool × Cache κ ν
  | [], held, used => (decide (used ≤ target), ⟨held, [], used⟩)
  | k :: lru, held, used =>
    if used ≤ target then (true, ⟨held, k :: lru, used⟩)
    else
      match held.lookup k with
      | some v => evictLoop weight target lru (held.erase k) (used - weight v)
      | none => evictLoop weight target lru held used

def evictUntil (weight : ν → ℕ) (target : ℕ) (c : Cache κ ν) : Bool × Cache κ ν :=
  evictLoop weight target c.lru c.resident c.used

/-- A new key at the recent end; the count saturates at `max`. -/
def push (weight : ν → ℕ) (max : ℕ) (c : Cache κ ν) (k : κ) (v : ν) : Cache κ ν :=
  ⟨c.resident.insert k v, c.lru ++ [k], min (c.used + weight v) max⟩

/-- The key, if it is held, is taken out. -/
def remove (weight : ν → ℕ) (c : Cache κ ν) (k : κ) : Cache κ ν :=
  match c.resident.lookup k with
  | some v => ⟨c.resident.erase k, c.lru.filter (· != k), c.used - weight v⟩
  | none => c

/-- The order lists the keys that are held, and no more is counted than they weigh. -/
structure Balanced (weight : ν → ℕ) (c : Cache κ ν) : Prop where
  nodup : c.lru.Nodup
  perm : c.lru.Perm c.resident.keys
  used_le : c.used ≤ total weight c.resident

section Lemmas
variable {weight : ν → ℕ} {c : Cache κ ν} {k : κ} {v : ν} {target limit : ℕ}

omit [DecidableEq κ] in
theorem Balanced.mem_iff (h : c.Balanced weight) : k ∈ c.lru ↔ k ∈ c.resident := h.perm.mem_iff

omit [DecidableEq κ] in
theorem empty_balanced : (⟨∅, [], 0⟩ : Cache κ ν).Balanced weight := ⟨.nil, .nil, Nat.zero_le _⟩

theorem Balanced.touch (h : c.Balanced weight) (k : κ) : (c.touch k).Balanced weight := by
  unfold Cache.touch
  split_ifs with hk
  · have hmoved : (c.lru.erase k ++ [k]).Perm c.lru :=
      List.perm_append_comm.trans (List.perm_cons_erase hk).symm
    exact ⟨hmoved.nodup_iff.2 h.nodup, hmoved.trans h.perm, h.used_le⟩
  · exact h

theorem total_push (hk : k ∉ c.resident) :
    total weight (c.push weight limit k v).resident = weight v + total weight c.resident := by
  rw [Cache.push, total_insert, erase_of_lookup_none (AList.lookup_eq_none.2 hk)]

theorem Balanced.push (h : c.Balanced weight) (hk : k ∉ c.resident) :
    (c.push weight limit k v).Balanced weight := by
  have hlru : (c.lru ++ [k]).Perm (k :: c.lru) := List.perm_append_comm
  have hnew : k ∉ c.lru := fun hmem => hk (h.mem_iff.1 hmem)
  refine ⟨hlru.nodup_iff.2 (List.nodup_cons.2 ⟨hnew, h.nodup⟩), ?_, ?_⟩
  · rw [Cache.push, AList.keys_insert, List.erase_of_not_mem hk]
    exact hlru.trans (h.perm.cons k)
  · rw [total_push hk]
    have hused := h.used_le
    have hmin : (c.push weight limit k v).used ≤ c.used + weight v := Nat.min_le_left _ _
    omega

theorem push_used_eq (h : c.used = total weight c.resident) (hk : k ∉ c.resident)
    (hlimit : total weight (c.push weight limit k v).resident ≤ limit) :
    (c.push weight limit k v).used = total weight (c.push weight limit k v).resident := by
  rw [total_push hk] at hlimit ⊢
  rw [Cache.push, h, Nat.min_eq_left (by omega)]
  exact Nat.add_comm _ _

theorem remove_of_lookup (h : c.resident.lookup k = some v) : c.remove weight k =
    ⟨c.resident.erase k, c.lru.filter (· != k), c.used - weight v⟩ := by
  rw [Cache.remove, h]

theorem remove_of_none (h : c.resident.lookup k = none) : c.remove weight k = c := by
  rw [Cache.remove, h]

theorem Balanced.remove (h : c.Balanced weight) (k : κ) : (c.remove weight k).Balanced weight := by
  cases hv : c.resident.lookup k with
  | none =>
    rw [remove_of_none hv]
    exact h
  | some v =>
    rw [remove_of_lookup hv]
    refine ⟨h.nodup.filter _, ?_, ?_⟩
    · rw [AList.keys_erase, ← h.nodup.erase_eq_filter]
      exact h.perm.erase k
    · have hused := h.used_le
      rw [total_of_lookup weight hv] at hused
      exact Nat.sub_le_iff_le_add'.2 hused

theorem notMem_remove (k : κ) : k ∉ (c.remove weight k).resident := by
  cases hv : c.resident.lookup k with
  | none =>
    rw [remove_of_none hv]
    exact AList.lookup_eq_none.1 hv
  | some v =>
    rw [remove_of_lookup hv]
    exact fun hmem => (AList.mem_erase.1 hmem).1 rfl

theorem remove_used_eq (h : c.used = total weight c.resident) (k : κ) :
    (c.remove weight k).used = total weight (c.remove weight k).resident := by
  cases hv : c.resident.lookup k with
  | none =>
    rw [remove_of_none hv]
    exact h
  | some v =>
    rw [remove_of_lookup hv]
    rw [total_of_lookup weight hv] at h
    exact Nat.sub_eq_of_eq_add' h

/-- What one eviction after another leaves of a balanced cache. -/
structure Evicted (weight : ν → ℕ) (target : ℕ) (c : Cache κ ν) (done : Bool) (next : Cache κ ν) : Prop where
  balanced : next.Balanced weight
  succeeds : done = true
  used_le : next.used ≤ target
  suffix : next.lru <:+ c.lru
  lookup_eq : ∀ k ∈ next.lru, next.resident.lookup k = c.resident.lookup k
  used_eq : c.used = total weight c.resident → next.used = total weight next.resident
  keeps : ∀ kept, kept <:+ c.lru → (kept.map (weightOf weight c.resident)).sum ≤ target → kept <:+ next.lru

/-- Nothing is evicted below the target, and no more than what lies before a suffix that fits. -/
theorem Balanced.evictUntil (h : c.Balanced weight) (target : ℕ) :
    Evicted weight target c (c.evictUntil weight target).1 (c.evictUntil weight target).2 := by
  obtain ⟨held, lru, used⟩ := c
  unfold Cache.evictUntil
  dsimp only
  induction lru generalizing held used with
  | nil =>
    have hzero : used = 0 := by
      have hused := h.used_le
      rw [total_eq_sum weight h.perm] at hused
      exact Nat.le_zero.1 hused
    have hle : used ≤ target := by omega
    exact ⟨h, decide_eq_true hle, hle, List.suffix_rfl, fun _ _ => rfl, id, fun _ hk _ => hk⟩
  | cons k lru ih =>
    rw [evictLoop]
    by_cases hfits : used ≤ target
    · rw [if_pos hfits]
      exact ⟨h, rfl, hfits, List.suffix_rfl, fun _ _ => rfl, id, fun _ hk _ => hk⟩
    · rw [if_neg hfits]
      have hk : k ∈ held := h.mem_iff.1 List.mem_cons_self
      obtain ⟨v, hv⟩ := Option.isSome_iff_exists.1 (AList.lookup_isSome.2 hk)
      have hnext : (⟨held.erase k, lru, used - weight v⟩ : Cache κ ν).Balanced weight := by
        have hremove := h.remove k
        rw [remove_of_lookup hv] at hremove
        have hfilter : (k :: lru).filter (· != k) = lru := by
          have hnot := (List.nodup_cons.1 h.nodup).1
          rw [List.filter_cons_of_neg (by simp), List.filter_eq_self]
          intro a ha
          exact bne_iff_ne.2 fun heq => hnot (heq ▸ ha)
        rwa [hfilter] at hremove
      have hrec := ih _ _ hnext
      simp only [hv]
      have hother : ∀ a ∈ lru, (held.erase k).lookup a = held.lookup a := by
        intro a ha
        apply AList.lookup_erase_ne
        rintro rfl
        exact (List.nodup_cons.1 h.nodup).1 ha
      refine ⟨hrec.balanced, hrec.succeeds, hrec.used_le, hrec.suffix.trans (List.suffix_cons k lru), ?_, ?_, ?_⟩
      · intro a ha
        rw [hrec.lookup_eq a ha]
        exact hother a (hrec.suffix.subset ha)
      · intro hused
        refine hrec.used_eq ?_
        have htotal := total_of_lookup weight hv
        simp only at hused ⊢
        omega
      · intro kept hkept hweight
        obtain rfl | hkept := List.suffix_cons_iff.1 hkept
        · have hused := h.used_le
          rw [total_eq_sum weight h.perm] at hused
          exact absurd (hused.trans hweight) hfits
        · refine hrec.keeps kept hkept ?_
          have hsame : kept.map (weightOf weight (held.erase k)) = kept.map (weightOf weight held) := by
            apply List.map_congr_left
            intro a ha
            rw [weightOf, weightOf, hother a (hkept.subset ha)]
          rw [hsame]
          exact hweight

end Lemmas

end Cache
end Hipscope.Lru
