import Mathlib.Algebra.Order.BigOperators.Group.List
import Mathlib.Algebra.Order.Ring.Nat
import Hipscope.Residency.WeightPager

/-! Weights that fit the budget together stay resident while they are requested one after another. -/
namespace Hipscope.Residency
open Lru

namespace WeightPager

/-- The weights one after another, none of the transfers failing. -/
def ensureAll (tensors : WeightId → ℕ) : List WeightId → WeightPager → Except WeightPagerError WeightPager
  | [], p => .ok p
  | id :: ids, p =>
    match p.ensureResident id (.ok (tensors id)) with
    | (.error e, _) => .error e
    | (.ok (), p) => ensureAll tensors ids p

/-- What is written into the two tables: the slot's offset and both addresses. `none` is the panic on a weight
that is not resident; device copies succeed. -/
def patchExpertPtrTable (p : WeightPager) (layer : UInt16) (topIndices : List UInt16) : Option (List (ℕ × ℕ × ℕ)) :=
  topIndices.mapM fun idx => do
    let gateUp ← p.cache.resident.lookup (.expert layer idx .gateUp)
    let down ← p.cache.resident.lookup (.expert layer idx .down)
    some (idx.toNat * 8, gateUp.tensor, down.tensor)

/-- What a weight takes: its registered length, or its bytes where those that are resident are more. -/
def sizeOf (p : WeightPager) (id : WeightId) : ℕ :=
  max ((p.catalog id).elim 0 ByteRange.len) (weightOf Resident.bytes p.cache.resident id)

/-- After `done` was requested of the list `ids`: its weights are the most recently used. -/
structure Serving (start : WeightPager) (ids done : List WeightId) (p : WeightPager) : Prop where
  balanced : p.Balanced
  catalog_eq : p.catalog = start.catalog
  config_eq : p.config = start.config
  recent : done <:+ p.cache.lru
  light : ∀ id ∈ ids, weightOf Resident.bytes p.cache.resident id ≤ start.sizeOf id

section Serving
variable {start p : WeightPager} {ids done : List WeightId} {id : WeightId}

private theorem suffix_touch {lru : List WeightId} (h : done <:+ lru) (hid : id ∉ done) (hmem : id ∈ lru) :
    done ++ [id] <:+ lru.erase id ++ [id] := by
  obtain ⟨front, rfl⟩ := h
  have hfront : id ∈ front := (List.mem_append.1 hmem).resolve_right hid
  rw [List.erase_append_left _ hfront, List.append_assoc]
  exact List.suffix_append _ _

private theorem weightOf_insert {held : AList fun _ : WeightId => Resident} {k : WeightId} {v : Resident} :
    weightOf Resident.bytes (held.insert k v) id = if id = k then v.bytes else weightOf Resident.bytes held id := by
  split_ifs with hk
  · rw [weightOf, hk, AList.lookup_insert]
    rfl
  · rw [weightOf, AList.lookup_insert_ne hk, weightOf]

theorem Serving.hit (h : Serving start ids done p) (hid : id ∉ done) (hresident : id ∈ p.cache.resident) :
    Serving start ids (done ++ [id]) (p.touchLru id) := by
  have hmem := h.balanced.mem_iff.2 hresident
  refine ⟨Cache.Balanced.touch h.balanced id, h.catalog_eq, h.config_eq, ?_, ?_⟩
  · rw [touchLru, Cache.touch, if_pos hmem]
    exact suffix_touch h.recent hid hmem
  · rw [touchLru, Cache.touch, if_pos hmem]
    exact h.light

/-- Making room for one more weight of the set takes nothing that was requested before. -/
theorem Serving.makeRoom (h : Serving start ids done p) (need : ℕ) (hsub : ∀ k ∈ done, k ∈ ids)
    (hfits : (done.map start.sizeOf).sum + need ≤ start.config.vramBudgetBytes) :
    ∃ cache, p.makeRoom need = (.ok (), { p with cache }) ∧ Serving start ids done { p with cache } ∧
      ∀ k ∈ cache.resident, k ∈ p.cache.resident := by
  have hbudget : need ≤ p.config.vramBudgetBytes := by
    rw [h.config_eq]
    omega
  obtain ⟨hfit, -⟩ | ⟨-, -, hlt⟩ := p.wouldFit_cases need
  case inr => omega
  obtain ⟨cache, hroom, -, hcases⟩ := makeRoom_spec h.balanced hfit
  obtain ⟨hbalanced, -, hsubset, -⟩ := makeRoom_keeps h.balanced hfit hroom
  refine ⟨cache, hroom, ⟨hbalanced, h.catalog_eq, h.config_eq, ?_, ?_⟩, hsubset⟩
  · obtain rfl | hevicted := hcases
    · exact h.recent
    · refine hevicted.keeps done h.recent ?_
      have hweights : (done.map (weightOf Resident.bytes p.cache.resident)).sum ≤ (done.map start.sizeOf).sum :=
        List.sum_le_sum fun k hk => h.light k (hsub k hk)
      rw [h.config_eq]
      omega
  · intro k hk
    obtain rfl | hevicted := hcases
    · exact h.light k hk
    · by_cases hheld : k ∈ cache.resident
      · have hlookup := hevicted.lookup_eq k (hevicted.balanced.mem_iff.2 hheld)
        rw [weightOf, hlookup]
        exact h.light k hk
      · rw [weightOf, AList.lookup_eq_none.2 hheld]
        exact Nat.zero_le _

/-- One more weight of the set is served, from the device or from the transport. -/
theorem Serving.ensureResident (h : Serving start ids done p) (tensor : ℕ) (hsub : ∀ k ∈ done, k ∈ ids) (hid : id ∉ done)
    (hmem : id ∈ ids) (hregistered : (start.catalog id).isSome)
    (hfits : (done.map start.sizeOf).sum + start.sizeOf id ≤ start.config.vramBudgetBytes) :
    ∃ next, p.ensureResident id (.ok tensor) = (.ok (), next) ∧ Serving start ids (done ++ [id]) next := by
  by_cases hresident : id ∈ p.cache.resident
  · refine ⟨p.touchLru id, ?_, h.hit hid hresident⟩
    rw [WeightPager.ensureResident, if_pos hresident]
  · obtain ⟨range, hrange⟩ := Option.isSome_iff_exists.1 hregistered
    have hsize : range.len ≤ start.sizeOf id := by
      rw [sizeOf, hrange]
      exact Nat.le_max_left _ _
    obtain ⟨cache, hroom, hserving, hsubset⟩ := h.makeRoom range.len hsub (by omega)
    have hfit : p.wouldFit range.len = .ok () := by
      obtain ⟨hfit, -⟩ | ⟨-, -, hlt⟩ := p.wouldFit_cases range.len
      · exact hfit
      · rw [h.config_eq] at hlt
        omega
    have hcold : id ∉ cache.resident := fun hk => hresident (hsubset id hk)
    refine ⟨{ p with cache }.admitWeight id tensor range.len, ?_, ?_⟩
    · have hlisted : p.catalog id = some range := by rw [h.catalog_eq, hrange]
      unfold WeightPager.ensureResident
      rw [if_neg hresident]
      simp only [hlisted, hfit, hroom]
    · refine ⟨Cache.Balanced.push hserving.balanced hcold, h.catalog_eq, h.config_eq, ?_, fun k hk => ?_⟩
      · obtain ⟨front, hfront⟩ := hserving.recent
        exact ⟨front, by rw [← List.append_assoc, hfront]; rfl⟩
      · rw [admitWeight, Cache.push, weightOf_insert]
        split_ifs with hsame
        · subst hsame
          exact hsize
        · exact hserving.light k hk

/-- The whole list, from any point of it on. -/
theorem Serving.ensureAll {rest : List WeightId} (h : Serving start ids done p) (tensors : WeightId → ℕ)
    (hids : done ++ rest = ids) (hnodup : ids.Nodup) (hregistered : ∀ k ∈ ids, (start.catalog k).isSome)
    (hfits : (ids.map start.sizeOf).sum ≤ start.config.vramBudgetBytes) :
    ∃ next, WeightPager.ensureAll tensors rest p = .ok next ∧ Serving start ids ids next := by
  induction rest generalizing done p with
  | nil =>
    rw [List.append_nil] at hids
    subst hids
    exact ⟨p, rfl, h⟩
  | cons id rest ih =>
    have hsub : ∀ k ∈ done, k ∈ ids := fun k hk => hids ▸ List.mem_append_left _ hk
    have hmem : id ∈ ids := hids ▸ List.mem_append_right _ List.mem_cons_self
    have hid : id ∉ done := by
      rw [← hids, List.nodup_append] at hnodup
      exact fun hk => hnodup.2.2 id hk id List.mem_cons_self rfl
    have hsum : (done.map start.sizeOf).sum + start.sizeOf id ≤ start.config.vramBudgetBytes := by
      rw [← hids, List.map_append, List.sum_append, List.map_cons, List.sum_cons] at hfits
      omega
    obtain ⟨next, hnext, hserving⟩ := h.ensureResident (tensors id) hsub hid hmem (hregistered id hmem) hsum
    rw [WeightPager.ensureAll, hnext]
    exact ih hserving (by rw [List.append_assoc]; exact hids)

end Serving

theorem patchExpertPtrTable_isSome {p : WeightPager} {layer : UInt16} {topIndices : List UInt16}
    (h : ∀ idx ∈ topIndices, .expert layer idx .gateUp ∈ p.cache.resident ∧ .expert layer idx .down ∈ p.cache.resident) :
    (p.patchExpertPtrTable layer topIndices).isSome := by
  induction topIndices with
  | nil => rfl
  | cons idx rest ih =>
    obtain ⟨hgate, hdown⟩ := h idx List.mem_cons_self
    obtain ⟨gateUp, hgateUp⟩ := Option.isSome_iff_exists.1 (AList.lookup_isSome.2 hgate)
    obtain ⟨down, hdown⟩ := Option.isSome_iff_exists.1 (AList.lookup_isSome.2 hdown)
    obtain ⟨writes, hwrites⟩ := Option.isSome_iff_exists.1 (ih fun k hk => h k (List.mem_cons_of_mem _ hk))
    rw [patchExpertPtrTable] at hwrites ⊢
    rw [List.mapM_cons, hgateUp, hdown, hwrites]
    rfl

/-- A working set that fits is resident as a whole once each of its weights was requested, in any order. -/
theorem working_set_resident (config : PagerConfig) (calls : List Call) (tensors : WeightId → ℕ)
    (ids : List WeightId) (hnodup : ids.Nodup) (hregistered : ∀ id ∈ ids, ((run config calls).catalog id).isSome)
    (hfits : (ids.map (run config calls).sizeOf).sum ≤ config.vramBudgetBytes) :
    ∃ p, (run config calls).ensureAll tensors ids = .ok p ∧ (∀ id ∈ ids, id ∈ p.cache.resident) ∧
      ∀ layer topIndices, (∀ idx ∈ topIndices, .expert layer idx .gateUp ∈ ids ∧ .expert layer idx .down ∈ ids) →
        (p.patchExpertPtrTable layer topIndices).isSome := by
  have hstart : Serving (run config calls) ids [] (run config calls) :=
    ⟨run_balanced config calls, rfl, rfl, List.nil_suffix, fun id _ => Nat.le_max_right _ _⟩
  have hbudget : (ids.map (run config calls).sizeOf).sum ≤ (run config calls).config.vramBudgetBytes := by
    rw [run_config]
    exact hfits
  obtain ⟨p, hall, hserving⟩ := hstart.ensureAll tensors (List.nil_append ids) hnodup hregistered hbudget
  have hresident : ∀ id ∈ ids, id ∈ p.cache.resident := fun id hid =>
    hserving.balanced.mem_iff.1 (hserving.recent.subset hid)
  refine ⟨p, hall, hresident, fun layer topIndices hlisted => ?_⟩
  apply patchExpertPtrTable_isSome
  intro idx hidx
  obtain ⟨hgate, hdown⟩ := hlisted idx hidx
  exact ⟨hresident _ hgate, hresident _ hdown⟩

/-- Both matrices of one expert, under a budget they fill. -/
theorem working_set_resident_expert : ∃ p,
    (run ⟨60⟩ [.register (.expert 0 3 .gateUp) ⟨0, 40⟩, .register (.expert 0 3 .down) ⟨40, 20⟩,
      .insertResident .embed 9 30]).ensureAll (fun _ => 7) [.expert 0 3 .gateUp, .expert 0 3 .down] = .ok p ∧
    (p.patchExpertPtrTable 0 [3]).isSome := by
  obtain ⟨p, hall, -, hpatch⟩ := working_set_resident ⟨60⟩
    [.register (.expert 0 3 .gateUp) ⟨0, 40⟩, .register (.expert 0 3 .down) ⟨40, 20⟩, .insertResident .embed 9 30]
    (fun _ => 7) [.expert 0 3 .gateUp, .expert 0 3 .down] (by decide) (by decide) (by decide)
  exact ⟨p, hall, hpatch 0 [3] (by simp)⟩

/-- Registered with one byte, inserted with a hundred: the second weight of the set evicts the first. -/
theorem inserted_larger_than_registered :
    let start := run ⟨60⟩ [.register .embed ⟨0, 1⟩, .register .lmHead ⟨1, 50⟩, .insertResident .embed 9 100]
    (([WeightId.embed, .lmHead].map fun id => (start.catalog id).elim 0 ByteRange.len).sum ≤ 60) ∧
      ∃ p, start.ensureAll (fun _ => 7) [.embed, .lmHead] = .ok p ∧ WeightId.embed ∉ p.cache.resident :=
  ⟨by decide, _, rfl, by decide⟩

end WeightPager
end Hipscope.Residency
