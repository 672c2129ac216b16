import Hipscope.Cask.Groups
import Mathlib.Data.Finset.Card
import Mathlib.Data.Finset.Image

/-! The table of a layer is well-formed: every slot filled, no position in two of them. -/
namespace Hipscope.Cask
open Hipscope.Lists

section Blocks
variable {m physical count : ℕ} {blocks blocks' : List (List UInt32)}

/-- The positions of each slot: `m` entries below the physical length, no position in two slots. -/
structure Blocks (m physical count : ℕ) (blocks : List (List UInt32)) : Prop where
  size : ∀ b ∈ blocks, b.length = m
  below : ∀ b ∈ blocks, ∀ p ∈ b, p.toNat < physical
  apart : blocks.Pairwise List.Disjoint
  count : blocks.flatten.toFinset.card = count

theorem Blocks.perm (h : Blocks m physical count blocks) (hperm : blocks.Perm blocks') : Blocks m physical count blocks' := by
  refine ⟨fun b hb => h.size b (hperm.mem_iff.mpr hb), fun b hb => h.below b (hperm.mem_iff.mpr hb), ?_, ?_⟩
  · exact (hperm.pairwise_iff fun hab => hab.symm).mp h.apart
  · rw [← h.count, List.toFinset_eq_of_perm _ _ hperm.flatten]

/-- The entries of a core and of the groups of a scratch list. -/
def slotPositions (m : ℕ) (coreIdx scratchIdx : List UInt32) (groups : List (List ℕ)) : List (List UInt32) :=
  coreIdx.map (List.replicate m) ++ groups.map fun g => g.map fun gi => scratchIdx.getD gi 0

section Positions
variable {coreIdx scratchIdx : List UInt32} {groups : List (List ℕ)}

private theorem getD_of_lt {gi : ℕ} (h : gi < scratchIdx.length) : scratchIdx.getD gi 0 = scratchIdx[gi] := by
  rw [List.getD_eq_getElem?_getD, List.getElem?_eq_getElem h, Option.getD_some]

theorem Splits.lt {n : ℕ} (h : Splits n m groups) {g : List ℕ} (hg : g ∈ groups) {gi : ℕ} (hgi : gi ∈ g) : gi < n :=
  List.mem_range.mp (h.cover.mem_iff.mp (List.mem_flatten.mpr ⟨g, hg, hgi⟩))

theorem mem_core (hm : 0 < m) (p : UInt32) : p ∈ (coreIdx.map (List.replicate m)).flatten ↔ p ∈ coreIdx := by
  rw [List.mem_flatten]
  constructor
  · rintro ⟨b, hb, hp⟩
    obtain ⟨q, hq, rfl⟩ := List.mem_map.mp hb
    exact List.eq_of_mem_replicate hp ▸ hq
  · intro hp
    exact ⟨_, List.mem_map_of_mem hp, List.mem_replicate.mpr ⟨hm.ne', rfl⟩⟩

theorem mem_scratch (hgroups : Splits scratchIdx.length m groups) (p : UInt32) :
    p ∈ (groups.map fun g => g.map fun gi => scratchIdx.getD gi 0).flatten ↔ p ∈ scratchIdx := by
  rw [List.mem_flatten]
  constructor
  · rintro ⟨b, hb, hp⟩
    obtain ⟨g, hg, rfl⟩ := List.mem_map.mp hb
    obtain ⟨gi, hgi, rfl⟩ := List.mem_map.mp hp
    rw [getD_of_lt (hgroups.lt hg hgi)]
    exact List.getElem_mem _
  · intro hp
    obtain ⟨gi, hgi, rfl⟩ := List.mem_iff_getElem.mp hp
    obtain ⟨g, hg, hin⟩ := List.mem_flatten.mp (hgroups.cover.mem_iff.mpr (List.mem_range.mpr hgi))
    exact ⟨_, List.mem_map_of_mem hg, List.mem_map.mpr ⟨gi, hin, getD_of_lt hgi⟩⟩

/-- Every position of the core and the scratch list has an entry, and no other. -/
theorem mem_slotPositions (hm : 0 < m) (hgroups : Splits scratchIdx.length m groups) (p : UInt32) :
    p ∈ (slotPositions m coreIdx scratchIdx groups).flatten ↔ p ∈ coreIdx ++ scratchIdx := by
  rw [slotPositions, List.flatten_append, List.mem_append, List.mem_append, mem_core hm, mem_scratch hgroups]

/-- Different positions give well-formed slots. -/
theorem blocks_of_splits (hm : 0 < m) (hgroups : Splits scratchIdx.length m groups) (hnodup : (coreIdx ++ scratchIdx).Nodup)
    (hbelow : ∀ p ∈ coreIdx ++ scratchIdx, p.toNat < physical) :
    Blocks m physical (coreIdx.length + scratchIdx.length) (slotPositions m coreIdx scratchIdx groups) := by
  obtain ⟨hcore, hscratch, hapart⟩ := List.nodup_append.mp hnodup
  refine ⟨?_, ?_, ?_, ?_⟩
  · refine List.forall_mem_append.mpr ⟨?_, ?_⟩
    · intro b hb
      obtain ⟨p, -, rfl⟩ := List.mem_map.mp hb
      exact List.length_replicate
    · intro b hb
      obtain ⟨g, hg, rfl⟩ := List.mem_map.mp hb
      rw [List.length_map, hgroups.size g hg]
  · intro b hb p hp
    exact hbelow p ((mem_slotPositions hm hgroups p).mp (List.mem_flatten.mpr ⟨b, hb, hp⟩))
  · rw [slotPositions, List.pairwise_append, List.pairwise_map, List.pairwise_map]
    refine ⟨?_, ?_, ?_⟩
    · refine hcore.imp fun hne p hp hp' => hne ?_
      exact (List.eq_of_mem_replicate hp).symm.trans (List.eq_of_mem_replicate hp')
    · have hgroupsApart := (List.nodup_flatten.mp (hgroups.cover.nodup_iff.mpr List.nodup_range)).2
      refine hgroupsApart.imp_of_mem fun {g g'} hg hg' hdisjoint p hp hp' => ?_
      obtain ⟨gi, hgi, rfl⟩ := List.mem_map.mp hp
      obtain ⟨gi', hgi', heq⟩ := List.mem_map.mp hp'
      rw [getD_of_lt (hgroups.lt hg hgi), getD_of_lt (hgroups.lt hg' hgi'), hscratch.getElem_inj_iff] at heq
      exact hdisjoint hgi (heq ▸ hgi')
    · intro b hb b' hb' p hp hp'
      have hpcore := (mem_core hm p).mp (List.mem_flatten.mpr ⟨b, hb, hp⟩)
      have hpscratch := (mem_scratch hgroups p).mp (List.mem_flatten.mpr ⟨b', hb', hp'⟩)
      exact hapart p hpcore p hpscratch rfl
  · rw [← List.length_append, ← List.toFinset_card_of_nodup hnodup]
    apply congrArg Finset.card
    ext p
    rw [List.mem_toFinset, List.mem_toFinset, mem_slotPositions hm hgroups]

end Positions

end Blocks

section Entries
variable {F : Type} (a : Arithmetic F) {m : ℕ}

/-- The first `m` entries of the slot have the positions. -/
def Holds (m : ℕ) (positions : List UInt32) (entry : UInt32 × Slot F) : Prop :=
  m ≤ entry.2.length ∧ (entry.2.take m).map Prod.fst = positions

theorem coreSlot_holds (hm : 1 ≤ m) (hmax : m ≤ maxFoldM) (pos : UInt32) :
    ∃ slot, coreSlot a m pos = some slot ∧ Holds m (List.replicate m pos) (pos, slot) := by
  refine ⟨_, if_pos ⟨hm, hmax⟩, ?_, ?_⟩
  · rw [List.length_append, List.length_cons, List.length_replicate]
    omega
  · obtain ⟨w, rfl⟩ := Nat.exists_eq_succ_of_ne_zero (Nat.one_le_iff_ne_zero.mp hm)
    have hlength : ((pos, a.one) :: List.replicate w (pos, a.zero)).length = w + 1 := by
      rw [List.length_cons, List.length_replicate]
    rw [Nat.succ_sub_one, List.take_left' hlength, List.map_cons, List.map_replicate, List.replicate_succ]

theorem mergeSlot_holds (hmax : m ≤ maxFoldM) {positions : List UInt32} {weights : List F} (hpositions : positions.length = m)
    (hweights : weights.length = m) :
    ∃ slot, mergeSlot a m positions weights = some slot ∧ m ≤ slot.length ∧ (slot.take m).map Prod.fst = positions := by
  have hinit : (List.replicate maxFoldM ((0 : UInt32), a.zero)).length = maxFoldM ∧
      ((List.replicate maxFoldM ((0 : UInt32), a.zero)).take 0).map Prod.fst = positions.take 0 :=
        ⟨List.length_replicate, rfl⟩
  obtain ⟨slot, hslot, hlength, htake⟩ := foldlM_range
    (P := fun i (slot : Slot F) => slot.length = maxFoldM ∧ (slot.take i).map Prod.fst = positions.take i)
    (t := fun slot i => do store slot i (← positions[i]?, ← weights[i]?)) (n := m) (by
      rintro i hi slot ⟨hlength, htake⟩
      rw [List.getElem?_eq_getElem (hpositions.symm ▸ hi), List.getElem?_eq_getElem (hweights.symm ▸ hi)]
      refine ⟨slot.set i (positions[i], weights[i]), store_of_lt (by omega), by rw [List.length_set, hlength], ?_⟩
      rw [List.take_succ_eq_append_getElem (by rw [List.length_set]; omega), List.take_set_of_le (le_refl i),
        List.getElem_set_self, List.map_append, htake, List.take_succ_eq_append_getElem (hpositions.symm ▸ hi)]
      rfl) hinit
  refine ⟨slot, hslot, hlength ▸ hmax, ?_⟩
  rw [htake, ← hpositions, List.take_length]

theorem softmax_length (xs : List F) : (softmax a xs).length = xs.length := by
  rw [softmax, List.length_map, List.length_map]

theorem mergeEntry_holds (hmax : m ≤ maxFoldM) {scratchIdx : List UInt32} {scratchScores : List F}
    (hscores : scratchScores.length = scratchIdx.length) {group : List ℕ} (hsize : group.length = m)
    (hlt : ∀ gi ∈ group, gi < scratchIdx.length) :
    ∃ entry, mergeEntry a m scratchIdx scratchScores group = some entry ∧
      Holds m (group.map fun gi => scratchIdx.getD gi 0) entry := by
  have hpositions : (group.mapM fun gi => scratchIdx[gi]?) = some (group.map fun gi => scratchIdx.getD gi 0) := by
    apply mapM_some
    intro gi hgi
    rw [List.getD_eq_getElem?_getD, List.getElem?_eq_getElem (hlt gi hgi), Option.getD_some]
  obtain ⟨rawScores, hraw, hcount, -⟩ := mapM_all (P := fun _ : F => True) (f := fun gi => scratchScores[gi]?) group
    fun gi hgi => ⟨_, List.getElem?_eq_getElem (hscores.symm ▸ hlt gi hgi), trivial⟩
  have hlength : (group.map fun gi => scratchIdx.getD gi 0).length = m := (List.length_map _).trans hsize
  obtain ⟨slot, hslot, hheld⟩ := mergeSlot_holds a hmax hlength ((softmax_length a rawScores).trans (hcount.trans hsize))
  suffices hentry : ∃ centroid, mergeEntry a m scratchIdx scratchScores group = some (centroid, slot) from
    hentry.elim fun centroid h => ⟨(centroid, slot), h, hheld⟩
  simp only [mergeEntry, hpositions, hraw, Option.bind_eq_bind, Option.bind_some, hslot]
  exact ⟨_, rfl⟩

end Entries

section Slots
variable {c : CaskCtx} {physical : ℕ}

/-- The slots add up to the budget, and what they use to no more than there is. -/
theorem CaskCtx.slots_spec (hfold : 2 ≤ c.foldM) (hphysical : c.budget ≤ physical) (htarget : c.targetCore ≤ c.budget) :
    ∃ coreSlots mergeSlots, c.slots physical = some (coreSlots, mergeSlots) ∧ coreSlots + mergeSlots = c.budget ∧
      coreSlots + mergeSlots * c.foldM ≤ physical := by
  obtain ⟨merge, hmerge, hle, hused⟩ : ∃ merge, c.mergeSlots (c.budget - c.targetCore) physical = some merge ∧
      merge ≤ c.budget ∧ c.budget + merge * (c.foldM - 1) ≤ physical := by
    rw [mergeSlots]
    split
    · next hsurplus =>
      refine ⟨min (c.budget - c.targetCore) ((physical - c.budget) / (c.foldM - 1)), ?_,
        (min_le_left _ _).trans (Nat.sub_le _ _), ?_⟩
      · rw [subUsize, if_pos hphysical, subUsize, if_pos (Nat.le_of_lt hsurplus.1)]
        rfl
      · have hmost : min (c.budget - c.targetCore) ((physical - c.budget) / (c.foldM - 1)) * (c.foldM - 1) ≤
            physical - c.budget :=
          (Nat.mul_le_mul_right _ (min_le_right _ _)).trans (Nat.div_mul_le_self _ _)
        omega
    · exact ⟨0, rfl, Nat.zero_le _, by omega⟩
  have hfolds : merge * c.foldM = merge * (c.foldM - 1) + merge := by
    rw [← Nat.mul_succ, Nat.succ_eq_add_one, Nat.sub_add_cancel (by omega)]
  refine ⟨c.budget - merge, merge, ?_, Nat.sub_add_cancel hle, by omega⟩
  rw [slots, subUsize, if_pos htarget]
  change (c.mergeSlots (c.budget - c.targetCore) physical).bind _ = _
  rw [hmerge, Option.bind_some, subUsize, if_pos hle]
  rfl

/-- Without a core inside the budget the first subtraction fails. -/
theorem CaskCtx.target_le_of_slots {slots : ℕ × ℕ} (h : c.slots physical = some slots) : c.targetCore ≤ c.budget := by
  by_contra hgt
  rw [CaskCtx.slots, subUsize, if_neg hgt] at h
  cases h

/-- The table is well-formed: `m` entries for each slot of the budget, positions of the cache, none of them in two slots,
and as many as the core and the groups have. -/
structure WellFormed (c : CaskCtx) (physical coreSlots mergeSlots : ℕ) (indices : List ℤ) : Prop where
  length : indices.length = c.budget * c.foldM
  below : ∀ p ∈ indices, 0 ≤ p ∧ p < physical
  apart : ∀ k k' p, indices[k]? = some p → indices[k']? = some p → k / c.foldM = k' / c.foldM
  used : indices.toFinset.card = coreSlots + c.foldM * mergeSlots
  enough : coreSlots + c.foldM * mergeSlots ≤ physical

theorem wellFormed_of_blocks {coreSlots mergeSlots : ℕ} {rows : List (List UInt32)} (hm : 0 < c.foldM)
    (hwide : physical ≤ 2 ^ 31) (hrows : Blocks c.foldM physical (coreSlots + mergeSlots * c.foldM) rows)
    (hlength : rows.length = c.budget) (henough : coreSlots + mergeSlots * c.foldM ≤ physical) :
    WellFormed c physical coreSlots mergeSlots (rows.flatten.map fun p => Kv.asI32 p.toNat) := by
  have hbelow : ∀ p ∈ rows.flatten, p.toNat < physical := by
    intro p hp
    obtain ⟨row, hrow, hin⟩ := List.mem_flatten.mp hp
    exact hrows.below row hrow p hin
  have hcast : ∀ p ∈ rows.flatten, Kv.asI32 p.toNat = p.toNat := fun p hp => Kv.asI32_of_lt ((hbelow p hp).trans_le hwide)
  have hinj : ∀ p ∈ rows.flatten, ∀ q ∈ rows.flatten, Kv.asI32 p.toNat = Kv.asI32 q.toNat → p = q := by
    intro p hp q hq heq
    rw [hcast p hp, hcast q hq] at heq
    exact UInt32.toNat_inj.mp (Int.ofNat_inj.mp heq)
  refine ⟨?_, ?_, ?_, ?_, Nat.mul_comm c.foldM _ ▸ henough⟩
  · rw [List.length_map, List.length_flatten, List.map_congr_left hrows.size, List.map_const', List.sum_replicate, hlength]
    rfl
  · intro p hp
    obtain ⟨q, hq, rfl⟩ := List.mem_map.mp hp
    rw [hcast q hq]
    exact ⟨Int.natCast_nonneg _, by exact_mod_cast hbelow q hq⟩
  · intro k k' p hk hk'
    rw [List.getElem?_map, Option.map_eq_some_iff] at hk hk'
    obtain ⟨q, hq, rfl⟩ := hk
    obtain ⟨q', hq', heq⟩ := hk'
    obtain rfl := hinj q' (List.mem_of_getElem? hq') q (List.mem_of_getElem? hq) heq
    rw [getElem?_flatten_of_size hm hrows.size] at hq hq'
    obtain ⟨row, hrow, hin⟩ := Option.bind_eq_some_iff.mp hq
    obtain ⟨row', hrow', hin'⟩ := Option.bind_eq_some_iff.mp hq'
    by_contra hne
    have hdisjoint : ∀ (i j : ℕ) (r r' : List UInt32), rows[i]? = some r → rows[j]? = some r' → i ≠ j → r.Disjoint r' := by
      intro i j r r' hi hj hij
      obtain ⟨hli, rfl⟩ := List.getElem?_eq_some_iff.mp hi
      obtain ⟨hlj, rfl⟩ := List.getElem?_eq_some_iff.mp hj
      obtain hlt | hgt := Nat.lt_or_gt_of_ne hij
      · exact List.pairwise_iff_getElem.mp hrows.apart i j hli hlj hlt
      · exact (List.pairwise_iff_getElem.mp hrows.apart j i hlj hli hgt).symm
    exact hdisjoint _ _ row row' hrow hrow' hne (List.mem_of_getElem? hin) (List.mem_of_getElem? hin')
  · have himage : (rows.flatten.map fun p => Kv.asI32 p.toNat).toFinset =
        rows.flatten.toFinset.image fun p => Kv.asI32 p.toNat := by
      ext p
      rw [List.mem_toFinset, List.mem_map, Finset.mem_image]
      exact exists_congr fun q => and_congr_left' List.mem_toFinset.symm
    rw [Nat.mul_comm c.foldM, ← hrows.count, himage]
    apply Finset.card_image_of_injOn
    intro p hp q hq heq
    exact hinj p (List.mem_toFinset.mp hp) q (List.mem_toFinset.mp hq) heq

end Slots

section Table
variable {F : Type} (a : Arithmetic F) {c : CaskCtx} {physical : ℕ} {tier : KTier} {ranked : List (F × ℕ)}
  {kAll : List UInt8}

theorem slice_eq {α : Type} {xs : List α} {start stop : ℕ} (hle : start ≤ stop) (hstop : stop ≤ xs.length) :
    slice xs start stop = some ((xs.drop start).take (stop - start)) := if_pos ⟨hle, hstop⟩

/-- The merge slots hold the groups of the scratch positions. -/
theorem mergeEntries_hold (hfold : 0 < c.foldM) (hmax : c.foldM ≤ maxFoldM) {mergeSlots : ℕ} {scratchIdx : List UInt32}
    {scratchScores : List F} (hlength : scratchIdx.length = mergeSlots * c.foldM)
    (hscores : scratchScores.length = scratchIdx.length) (hbelow : ∀ p ∈ scratchIdx, p.toNat < physical)
    (hrows : tier.isQ8 = true → kAll.length = physical * (c.nKvHeads * (c.headDim / 32) * 34))
    (hordered : tier.isQ8 = true → OrderedRows a (RowOf a kAll c.nKvHeads c.headDim)) :
    ∃ groups entries, Splits scratchIdx.length c.foldM groups ∧
      c.mergeEntries a tier kAll mergeSlots scratchIdx scratchScores = some entries ∧
      List.Forall₂ (Holds c.foldM) (groups.map fun g => g.map fun gi => scratchIdx.getD gi 0) entries := by
  rw [CaskCtx.mergeEntries]
  split
  · obtain ⟨groups, hgroups, hsplits⟩ : ∃ groups, c.scratchGroups a tier kAll scratchIdx = some groups ∧
        Splits scratchIdx.length c.foldM groups := by
      rw [CaskCtx.scratchGroups]
      split
      · next hq8 =>
        apply greedyGroupByL2_splits a hfold (hordered hq8) (hlength ▸ Nat.dvd_mul_left _ _)
        intro pos hpos
        rw [hrows hq8]
        exact Nat.mul_le_mul_right _ (hbelow pos hpos)
      · refine ⟨_, rfl, ?_⟩
        rw [hlength]
        exact rankGroups_splits hfold mergeSlots
    have hentries : ∀ g ∈ groups, ∃ entry, mergeEntry a c.foldM scratchIdx scratchScores g = some entry ∧
        Holds c.foldM (g.map fun gi => scratchIdx.getD gi 0) entry := by
      intro g hg
      apply mergeEntry_holds a hmax hscores (hsplits.size g hg)
      intro gi hgi
      exact List.mem_range.mp (hsplits.cover.mem_iff.mp (List.mem_flatten.mpr ⟨g, hg, hgi⟩))
    obtain ⟨entries, hall, hheld⟩ := mapM_rel groups hentries
    refine ⟨groups, entries, hsplits, ?_, List.forall₂_map_left_iff.mpr hheld⟩
    rw [hgroups]
    exact hall
  · next hnone =>
    obtain rfl : scratchIdx = [] :=
      List.eq_nil_of_length_eq_zero (by rw [hlength, Nat.eq_zero_of_not_pos hnone, Nat.zero_mul])
    exact ⟨[], [], ⟨List.Perm.refl _, fun g hg => absurd hg List.not_mem_nil⟩, rfl, .nil⟩

private theorem take_eq {α : Type} {xs : List α} {m : ℕ} (h : m ≤ xs.length) :
    ((List.range m).mapM fun i => xs[i]?) = some (xs.take m) := by
  induction m with
  | zero => rw [List.range_zero, List.mapM_nil, List.take_zero]; rfl
  | succ m ih =>
    rw [List.range_succ, List.mapM_append, ih (Nat.le_of_succ_le h), List.mapM_cons, List.mapM_nil,
      List.getElem?_eq_getElem h, List.take_succ_eq_append_getElem h]
    rfl

private theorem holds_map {m : ℕ} {blocks : List (List UInt32)} {entries : List (UInt32 × Slot F)}
    (h : List.Forall₂ (Holds m) blocks entries) :
    entries.map (fun e => (e.2.take m).map Prod.fst) = blocks ∧ ∀ e ∈ entries, m ≤ e.2.length := by
  induction h with
  | nil => exact ⟨rfl, fun e he => absurd he List.not_mem_nil⟩
  | cons hheld _ ih => exact ⟨by rw [List.map_cons, hheld.2, ih.1], List.forall_mem_cons.mpr ⟨hheld.1, ih.2⟩⟩

/-- Sorted by position and cut to `m` places, the entries give the rows of the table. -/
private theorem sortedRows {m : ℕ} {blocks : List (List UInt32)} {entries : List (UInt32 × Slot F)}
    (h : List.Forall₂ (Holds m) blocks entries) :
    ∃ (cut : List (Slot F)) (rows : List (List UInt32)),
      ((entries.mergeSort fun x y => decide (x.1 ≤ y.1)).mapM fun entry => (List.range m).mapM fun i => entry.2[i]?) =
        some cut ∧ rows.Perm blocks ∧
      cut.flatten.map (fun p => Kv.asI32 p.1.toNat) = rows.flatten.map (fun p => Kv.asI32 p.toNat) := by
  obtain ⟨rfl, hlong⟩ := holds_map h
  have hperm := List.mergeSort_perm entries fun x y => decide (x.1 ≤ y.1)
  refine ⟨_, _, mapM_some fun e he => take_eq (hlong e (hperm.mem_iff.mp he)), hperm.map _, ?_⟩
  simp only [List.map_flatten, List.map_map, Function.comp_def]

/-- The positions that a ranking gives to the slots. -/
def used (ranked : List (F × ℕ)) (n : ℕ) : List UInt32 := ((ranked.map Prod.snd).take n).map UInt32.ofNat

/-- With a fold that fits its slots and a core inside the budget the table holds the first positions of the ranking. -/
theorem layerTable_some (hfold : 2 ≤ c.foldM) (hmax : c.foldM ≤ maxFoldM) (hphysical : c.budget ≤ physical)
    (htarget : c.targetCore ≤ c.budget) (hranked : (ranked.map Prod.snd).Perm (List.range physical))
    (hrows : tier.isQ8 = true → kAll.length = physical * (c.nKvHeads * (c.headDim / 32) * 34))
    (hordered : tier.isQ8 = true → OrderedRows a (RowOf a kAll c.nKvHeads c.headDim)) :
    ∃ (coreIdx scratchIdx : List UInt32) (mergeSlots : ℕ) (groups : List (List ℕ)) (rows : List (List UInt32))
      (weights : List F), c.slots physical = some (coreIdx.length, mergeSlots) ∧
      c.layerTable a tier physical ranked kAll = some (rows.flatten.map fun p => Kv.asI32 p.toNat, weights) ∧
      weights.length = rows.flatten.length ∧ coreIdx.length + mergeSlots = c.budget ∧
      coreIdx.length + scratchIdx.length ≤ physical ∧ scratchIdx.length = mergeSlots * c.foldM ∧
      coreIdx ++ scratchIdx = used ranked (coreIdx.length + scratchIdx.length) ∧
      Splits scratchIdx.length c.foldM groups ∧ rows.Perm (slotPositions c.foldM coreIdx scratchIdx groups) := by
  obtain ⟨coreSlots, mergeSlots, hslots, hbudget, henough⟩ := c.slots_spec hfold hphysical htarget
  have hlength : ranked.length = physical := by
    rw [← List.length_map (f := Prod.snd), hranked.length_eq, List.length_range]
  have hm : 0 < c.foldM := by omega
  have hcoreSlice := slice_eq (Nat.zero_le coreSlots) (show coreSlots ≤ ranked.length by omega)
  have hscratchSlice := slice_eq (Nat.le_add_right coreSlots (mergeSlots * c.foldM)) (hlength.symm ▸ henough)
  rw [List.drop_zero, Nat.sub_zero] at hcoreSlice
  rw [Nat.add_sub_cancel_left] at hscratchSlice
  generalize hcore : (ranked.take coreSlots).map (fun p => UInt32.ofNat p.2) = coreIdx
  generalize hscratch : ((ranked.drop coreSlots).take (mergeSlots * c.foldM)).map (fun p => UInt32.ofNat p.2) = scratchIdx
  have hcoreLength : coreIdx.length = coreSlots := by
    rw [← hcore, List.length_map, List.length_take]
    omega
  have hscratchLength : scratchIdx.length = mergeSlots * c.foldM := by
    rw [← hscratch, List.length_map, List.length_take, List.length_drop]
    omega
  have hbelow : ∀ p ∈ scratchIdx, p.toNat < physical := by
    rw [← hscratch]
    intro p hp
    obtain ⟨q, hq, rfl⟩ := List.mem_map.mp hp
    have hin := hranked.mem_iff.mp (List.mem_map_of_mem (List.mem_of_mem_drop (List.mem_of_mem_take hq)))
    rw [UInt32.toNat_ofNat']
    exact (Nat.mod_le _ _).trans_lt (List.mem_range.mp hin)
  have hscores : (((ranked.drop coreSlots).take (mergeSlots * c.foldM)).map Prod.fst).length = scratchIdx.length := by
    rw [← hscratch, List.length_map, List.length_map]
  obtain ⟨coreEntries, hcoreEntries, hcoreHeld⟩ := mapM_rel (f := fun pos => do return (pos, ← coreSlot a c.foldM pos))
    (R := fun pos e => Holds c.foldM (List.replicate c.foldM pos) e) coreIdx fun pos _ => by
      obtain ⟨slot, hslot, hheld⟩ := coreSlot_holds a hm hmax pos
      exact ⟨(pos, slot), by rw [hslot]; rfl, hheld⟩
  obtain ⟨groups, mergeEntries, hsplits, hmergeEntries, hmergeHeld⟩ := mergeEntries_hold a hm hmax hscratchLength hscores
    hbelow hrows hordered
  have hall : List.Forall₂ (Holds c.foldM) (slotPositions c.foldM coreIdx scratchIdx groups) (coreEntries ++ mergeEntries) :=
    List.rel_append (List.forall₂_map_left_iff.mpr hcoreHeld) hmergeHeld
  obtain ⟨cut, rows, hcut, hperm, hindices⟩ := sortedRows hall
  refine ⟨coreIdx, scratchIdx, mergeSlots, groups, rows, cut.flatten.map Prod.snd, hcoreLength.symm ▸ hslots, ?_, ?_,
    hcoreLength.symm ▸ hbudget, by omega, hscratchLength, ?_, hsplits, hperm⟩
  · rw [← hindices, CaskCtx.layerTable, hslots]
    change (slice ranked 0 coreSlots).bind _ = _
    rw [hcoreSlice]
    change (slice ranked coreSlots (coreSlots + mergeSlots * c.foldM)).bind _ = _
    rw [hscratchSlice]
    change Option.bind (List.mapM _ ((ranked.take coreSlots).map fun p : F × ℕ => UInt32.ofNat p.2)) _ = _
    rw [hcore, hcoreEntries]
    change (c.mergeEntries a tier kAll mergeSlots (((ranked.drop coreSlots).take (mergeSlots * c.foldM)).map
      fun p : F × ℕ => UInt32.ofNat p.2) _).bind _ = _
    rw [hscratch, hmergeEntries]
    change Option.bind (List.mapM _ ((coreEntries ++ mergeEntries).mergeSort fun x y => decide (x.1 ≤ y.1))) _ = _
    rw [hcut]
    rfl
  · have hcounts := congrArg List.length hindices
    rw [List.length_map, List.length_map] at hcounts
    rw [List.length_map, hcounts]
  · rw [hcoreLength, hscratchLength, used, ← hcore, ← hscratch, ← List.map_append, ← List.take_add, ← List.map_take,
      List.map_map]
    rfl

/-- Positions of 31 bits stay different, and the table is well-formed. -/
theorem layerTable_wellFormed (hfold : 2 ≤ c.foldM) (hmax : c.foldM ≤ maxFoldM) (hphysical : c.budget ≤ physical)
    (htarget : c.targetCore ≤ c.budget) (hwide : physical ≤ 2 ^ 31)
    (hranked : (ranked.map Prod.snd).Perm (List.range physical))
    (hrows : tier.isQ8 = true → kAll.length = physical * (c.nKvHeads * (c.headDim / 32) * 34))
    (hordered : tier.isQ8 = true → OrderedRows a (RowOf a kAll c.nKvHeads c.headDim)) :
    ∃ coreSlots mergeSlots indices weights, c.slots physical = some (coreSlots, mergeSlots) ∧
      c.layerTable a tier physical ranked kAll = some (indices, weights) ∧ weights.length = indices.length ∧
      WellFormed c physical coreSlots mergeSlots indices := by
  obtain ⟨coreIdx, scratchIdx, mergeSlots, groups, rows, weights, hslots, htable, hweights, hbudget, henough, hscratch, hused,
    hsplits, hperm⟩ := layerTable_some a hfold hmax hphysical htarget hranked hrows hordered
  have hm : 0 < c.foldM := by omega
  have hin : ∀ i ∈ (ranked.map Prod.snd).take (coreIdx.length + scratchIdx.length), i < physical := fun i hi =>
    List.mem_range.mp (hranked.mem_iff.mp (List.mem_of_mem_take hi))
  have hcast : ∀ i ∈ (ranked.map Prod.snd).take (coreIdx.length + scratchIdx.length), (UInt32.ofNat i).toNat = i := by
    intro i hi
    apply UInt32.toNat_ofNat_of_lt'
    have hlt := hin i hi
    rw [UInt32.size]
    omega
  have hnodup : (coreIdx ++ scratchIdx).Nodup := by
    rw [hused]
    apply List.Nodup.map_on
    · intro i hi j hj heq
      rw [← hcast i hi, heq, hcast j hj]
    · exact (hranked.nodup_iff.mpr List.nodup_range).sublist (List.take_sublist _ _)
  have hbelow : ∀ p ∈ coreIdx ++ scratchIdx, p.toNat < physical := by
    rw [hused]
    intro p hp
    obtain ⟨i, hi, rfl⟩ := List.mem_map.mp hp
    rw [hcast i hi]
    exact hin i hi
  have hblocks := (blocks_of_splits hm hsplits hnodup hbelow).perm hperm.symm
  rw [hscratch] at hblocks hsplits henough
  have hcount : rows.length = c.budget := by
    rw [hperm.length_eq, slotPositions, List.length_append, List.length_map,
      List.length_map, Splits.length hm hsplits, hbudget]
  exact ⟨coreIdx.length, mergeSlots, _, weights, hslots, htable, by rw [hweights, List.length_map],
    wellFormed_of_blocks hm hwide hblocks hcount henough⟩

theorem store_length {α : Type} {xs ys : List α} {i : ℕ} {x : α} (h : store xs i x = some ys) : ys.length = xs.length := by
  rw [store] at h
  split at h
  · cases h
    exact List.length_set
  · cases h

/-- Every slot has the fixed number of entries. -/
theorem mergeEntry_length {m : ℕ} {scratchIdx : List UInt32} {scratchScores : List F} {group : List ℕ}
    {entry : UInt32 × Slot F} (h : mergeEntry a m scratchIdx scratchScores group = some entry) :
    entry.2.length = maxFoldM := by
  rw [mergeEntry] at h
  obtain ⟨positions, -, h⟩ := Option.bind_eq_some_iff.mp h
  obtain ⟨scores, -, h⟩ := Option.bind_eq_some_iff.mp h
  obtain ⟨slot, hslot, h⟩ := Option.bind_eq_some_iff.mp h
  cases h
  refine foldlM_keeps (P := fun slot : Slot F => slot.length = maxFoldM) ?_ List.length_replicate hslot
  intro slot i next hlength hnext
  obtain ⟨p, -, hnext⟩ := Option.bind_eq_some_iff.mp hnext
  obtain ⟨w, -, hnext⟩ := Option.bind_eq_some_iff.mp hnext
  rw [store_length hnext, hlength]

/-- A table with an entry has a slot that the fold fits. -/
theorem fold_le_of_layerTable {table : List ℤ × List F} (h : c.layerTable a tier physical ranked kAll = some table)
    (hentry : table.1 ≠ []) : c.foldM ≤ maxFoldM := by
  rw [CaskCtx.layerTable] at h
  obtain ⟨slots, -, h⟩ := Option.bind_eq_some_iff.mp h
  obtain ⟨coreRanked, -, h⟩ := Option.bind_eq_some_iff.mp h
  obtain ⟨scratchRanked, -, h⟩ := Option.bind_eq_some_iff.mp h
  obtain ⟨coreEntries, hcore, h⟩ := Option.bind_eq_some_iff.mp h
  obtain ⟨mergeEntries, hmerge, h⟩ := Option.bind_eq_some_iff.mp h
  obtain ⟨flat, hflat, h⟩ := Option.bind_eq_some_iff.mp h
  cases h
  by_contra hwide
  have hslots : ∀ e ∈ coreEntries ++ mergeEntries, e.2.length = maxFoldM := by
    refine List.forall_mem_append.mpr ⟨fun e he => ?_, fun e he => ?_⟩
    · obtain ⟨pos, -, hone⟩ := mapM_mem hcore he
      obtain ⟨slot, hslot, -⟩ := Option.bind_eq_some_iff.mp hone
      rw [coreSlot, if_neg fun h => hwide h.2] at hslot
      cases hslot
    · rw [CaskCtx.mergeEntries] at hmerge
      split at hmerge
      · obtain ⟨groups, -, hgroups⟩ := Option.bind_eq_some_iff.mp hmerge
        obtain ⟨group, -, hone⟩ := mapM_mem hgroups he
        exact mergeEntry_length a hone
      · cases hmerge
        cases he
  have hempty : flat = [] := by
    by_contra hne
    obtain ⟨row, hrow⟩ := List.exists_mem_of_ne_nil flat hne
    obtain ⟨e, he, hone⟩ := mapM_mem hflat hrow
    obtain ⟨p, -, hp⟩ := mapM_defined hone (List.mem_range.mpr (Nat.not_le.mp hwide))
    rw [List.getElem?_eq_none (hslots e ((List.mergeSort_perm _ _).mem_iff.mp he)).le] at hp
    cases hp
  exact hentry (by rw [hempty]; rfl)

end Table
end Hipscope.Cask

/-! For which budgets, fractions, folds and lengths the fold table is well-formed, whatever the ranking. -/
namespace Hipscope.Cask
open Hipscope.Lists Floats

/-- A fold does what it should with a buffer: for every ranking the table is built and well-formed, and every scratch
list of whole groups is split. -/
structure FoldsWell {F : Type} (a : Arithmetic F) (kAll : List UInt8) (c : CaskCtx) (physical : ℕ) : Prop where
  table : ∀ (tier : KTier) (ranked : List (F × ℕ)), (ranked.map Prod.snd).Perm (List.range physical) →
    (tier.isQ8 = true → kAll.length = physical * (c.nKvHeads * (c.headDim / 32) * 34)) →
    ∃ coreSlots mergeSlots indices weights, c.slots physical = some (coreSlots, mergeSlots) ∧
      c.layerTable a tier physical ranked kAll = some (indices, weights) ∧ weights.length = indices.length ∧
      WellFormed c physical coreSlots mergeSlots indices
  groups : ∀ scratchIdx : List UInt32, c.foldM ∣ scratchIdx.length →
    (∀ pos ∈ scratchIdx, (pos.toNat + 1) * (c.nKvHeads * (c.headDim / 32) * 34) ≤ kAll.length) →
    ∃ groups, greedyGroupByL2 a kAll scratchIdx c.nKvHeads c.headDim c.foldM = some groups ∧
      Splits scratchIdx.length c.foldM groups

section Fold
variable {budget beta nKvHeads headDim foldM physical : ℕ} {coreFrac : ℚ} {c : CaskCtx}
variable {F : Type} (a : Arithmetic F) {kAll : List UInt8}

theorem new_spec (h : CaskCtx.new budget beta nKvHeads headDim coreFrac foldM = some c) :
    0 ≤ coreFrac ∧ coreFrac ≤ 1 ∧ 2 ≤ foldM ∧ c = ⟨budget, beta, nKvHeads, headDim, coreFrac, foldM⟩ := by
  rw [CaskCtx.new] at h
  split at h
  · next hok =>
    cases h
    exact ⟨hok.1.1, hok.1.2, hok.2, rfl⟩
  · cases h

/-- The core is inside the budget where the rounded product is. -/
theorem targetCore_le_iff (hwide : budget < 2 ^ 64 - 1) :
    (CaskCtx.mk budget beta nKvHeads headDim coreFrac foldM).targetCore ≤ budget ↔
      roundSingle (roundSingle budget * coreFrac) < budget + 1 := by
  have hfloor : ⌊roundSingle (roundSingle budget * coreFrac)⌋ < (budget : ℤ) + 1 ↔
      roundSingle (roundSingle budget * coreFrac) < (((budget : ℤ) + 1 : ℤ) : ℚ) := Int.floor_lt
  push_cast at hfloor
  rw [CaskCtx.targetCore, min_le_iff, or_iff_left (Nat.not_le.mpr hwide), Int.toNat_le, ← hfloor, Int.lt_add_one_iff]

/-- Up to `2 ^ 24` slots no fraction puts the core past the budget. -/
theorem product_lt (hfrac : 0 ≤ coreFrac) (hone : coreFrac ≤ 1) (hbudget : budget ≤ 2 ^ 24) :
    roundSingle (roundSingle budget * coreFrac) < budget + 1 := by
  have hnonneg : (0 : ℚ) ≤ roundSingle budget := roundSingle_nonneg (Nat.cast_nonneg budget)
  have hround : roundSingle budget ≤ budget := roundSingle_le (Nat.cast_nonneg budget) (le_refl _) hbudget
  have hproduct : roundSingle budget * coreFrac ≤ budget := (mul_le_of_le_one_right hnonneg hone).trans hround
  have hle : roundSingle (roundSingle budget * coreFrac) ≤ budget :=
    roundSingle_le (mul_nonneg hnonneg hfrac) hproduct hbudget
  linarith

/-- Without a budget the table is empty. -/
theorem layerTable_empty (tier : KTier) (ranked : List (F × ℕ)) (kAll : List UInt8)
    (hbudget : c.budget = 0) : c.slots physical = some (0, 0) ∧ c.layerTable a tier physical ranked kAll = some ([], []) := by
  have htarget : c.targetCore = 0 := by
    rw [CaskCtx.targetCore, hbudget, Nat.cast_zero, roundSingle_zero, zero_mul, roundSingle_zero, Int.floor_zero]
    rfl
  have hmerge : c.mergeSlots 0 physical = some 0 := by
    rw [CaskCtx.mergeSlots]
    split
    · next h =>
      rw [subUsize, if_pos h.2.le, subUsize, if_pos h.1.le]
      exact congrArg some (Nat.zero_min _)
    · rfl
  have hslots : c.slots physical = some (0, 0) := by
    rw [CaskCtx.slots, htarget, hbudget]
    change (c.mergeSlots 0 physical).bind _ = _
    rw [hmerge]
    rfl
  refine ⟨hslots, ?_⟩
  have hslice : slice ranked 0 0 = some [] := by rw [slice_eq (le_refl 0) (Nat.zero_le _), Nat.sub_zero, List.take_zero]
  have hmerge : c.mergeEntries a tier kAll 0 [] [] = some [] := rfl
  simp only [CaskCtx.layerTable, hslots, Option.bind_eq_bind, Option.bind_some, Nat.zero_mul, Nat.add_zero, hslice,
    List.map_nil, List.mapM_nil, Option.pure_def, hmerge, List.append_nil, List.mergeSort_nil, List.flatten_nil]

theorem wellFormed_empty (hbudget : c.budget = 0) : WellFormed c physical 0 0 [] := by
  refine ⟨?_, fun p hp => absurd hp List.not_mem_nil, fun k k' p hk => ?_, rfl, Nat.zero_le _⟩
  · rw [hbudget, Nat.zero_mul]
    rfl
  · cases hk

/-- Rows that can be read have positions that they are read from. -/
theorem positions_of_rows {nKv headDim : ℕ} {feats : List (List F)} (h : ∀ feat ∈ feats, RowOf a kAll nKv headDim feat) :
    ∃ scratchIdx : List UInt32, scratchIdx.mapM (rowFeat a kAll nKv headDim) = some feats := by
  induction feats with
  | nil => exact ⟨[], rfl⟩
  | cons feat feats ih =>
    obtain ⟨⟨pos, hpos⟩, hrest⟩ := List.forall_mem_cons.mp h
    obtain ⟨scratchIdx, hscratch⟩ := ih hrest
    refine ⟨pos :: scratchIdx, ?_⟩
    rw [List.mapM_cons, hpos, hscratch]
    rfl

/-- A fold that splits every scratch list sorts the distances of every list of rows. -/
theorem FoldsWell.ordered (hfold : 2 ≤ c.foldM) (h : FoldsWell a kAll c physical) :
    OrderedRows a (RowOf a kAll c.nKvHeads c.headDim) := by
  rintro feat ⟨pos, hpos⟩ others hothers
  obtain ⟨scratchIdx, hscratch⟩ := positions_of_rows a hothers
  -- The list is filled up with the anchor's own row to whole groups.
  have hfilled : ∀ other ∈ others ++ List.replicate ((scratchIdx.length + 1) * (c.foldM - 1)) feat,
      RowOf a kAll c.nKvHeads c.headDim other :=
    List.forall_mem_append.mpr ⟨hothers, fun other hother => List.eq_of_mem_replicate hother ▸ ⟨pos, hpos⟩⟩
  obtain ⟨filled, hread⟩ := positions_of_rows a hfilled
  have hlength : filled.length = scratchIdx.length + (scratchIdx.length + 1) * (c.foldM - 1) := by
    rw [(mapM_forall₂_some hread).length_eq, List.length_append, List.length_replicate,
      (mapM_forall₂_some hscratch).length_eq]
  have hdvd : c.foldM ∣ (pos :: filled).length := by
    refine ⟨scratchIdx.length + 1, ?_⟩
    have hm : c.foldM = c.foldM - 1 + 1 := by omega
    rw [List.length_cons, hlength, Nat.mul_comm c.foldM]
    conv_rhs => rw [hm, Nat.mul_succ]
    omega
  have hinside : ∀ p ∈ pos :: filled, (p.toNat + 1) * (c.nKvHeads * (c.headDim / 32) * 34) ≤ kAll.length := by
    refine List.forall_mem_cons.mpr ⟨rowFeat_inside a hpos, fun p hp => ?_⟩
    obtain ⟨other, -, hother⟩ := mapM_defined hread hp
    exact rowFeat_inside a hother
  obtain ⟨groups, hgroups, -⟩ := h.groups (pos :: filled) hdvd hinside
  refine (ordered_of_greedyGroupByL2 a hfold hdvd hpos hread hgroups).mono fun x hx => ?_
  rw [List.map_append]
  exact List.mem_append_left _ hx

theorem map_snd_scored (score : F) (l : List ℕ) : ((l.map fun i => (score, i)).map Prod.snd) = l := by
  rw [List.map_map]
  exact List.map_id l

/-- A position past 31 bits is written as a negative number. -/
theorem narrow_of_foldsWell (hfold : 2 ≤ c.foldM) (hmax : c.foldM ≤ maxFoldM) (hphysical : c.budget ≤ physical)
    (htarget : c.targetCore ≤ c.budget) (hpos : 0 < c.budget) (h : FoldsWell a kAll c physical) : physical ≤ 2 ^ 31 := by
  by_contra hwide
  have hin : 2 ^ 31 ∈ List.range physical := List.mem_range.mpr (Nat.not_le.mp hwide)
  -- The ranking that starts with the first position of 32 bits.
  have hranked : (((2 ^ 31 :: (List.range physical).erase (2 ^ 31)).map fun i => (a.zero, i)).map Prod.snd).Perm
      (List.range physical) := by
    rw [map_snd_scored]
    exact (List.perm_cons_erase hin).symm
  have hrows : KTier.f32.isQ8 = true → kAll.length = physical * (c.nKvHeads * (c.headDim / 32) * 34) := by
    intro hq8
    cases hq8
  have hordered := fun _ : KTier.f32.isQ8 = true => h.ordered a hfold
  obtain ⟨coreIdx, scratchIdx, mergeSlots, groups, rows, weights, -, htable, -, hbudget, henough, hscratch, hused, hsplits,
    hperm⟩ := layerTable_some a hfold hmax hphysical htarget hranked hrows hordered
  obtain ⟨coreSlots', mergeSlots', indices, weights', -, htable', -, hwell⟩ := h.table .f32 _ hranked hrows
  rw [htable'] at htable
  obtain ⟨rfl, -⟩ := Prod.mk.inj (Option.some.inj htable)
  have hcount : 0 < coreIdx.length + scratchIdx.length := by
    rw [hscratch]
    have := Nat.le_mul_of_pos_right mergeSlots (show 0 < c.foldM by omega)
    omega
  have hfirst : UInt32.ofNat (2 ^ 31) ∈ coreIdx ++ scratchIdx := by
    rw [hused, used, map_snd_scored]
    obtain ⟨n, hn⟩ := Nat.exists_eq_succ_of_ne_zero hcount.ne'
    rw [hn, List.take_succ_cons, List.map_cons]
    exact List.mem_cons_self
  have hentry : UInt32.ofNat (2 ^ 31) ∈ rows.flatten := by
    rw [hperm.flatten.mem_iff]
    exact (mem_slotPositions (by omega) hsplits _).mpr hfirst
  have hneg := (hwell.below _ (List.mem_map_of_mem hentry)).1
  exact absurd hneg (by decide)

/-- A fold does what it should exactly if the distances of the rows are ordered, and there is no budget, or the fold fits
a slot, the rounded product of budget and fraction is below the next slot, and positions have 31 bits. -/
theorem foldsWell_iff (h : CaskCtx.new budget beta nKvHeads headDim coreFrac foldM = some c)
    (hphysical : budget + beta ≤ physical) :
    FoldsWell a kAll c physical ↔ OrderedRows a (RowOf a kAll nKvHeads headDim) ∧ (budget = 0 ∨
      (foldM ≤ 8 ∧ roundSingle (roundSingle budget * coreFrac) < budget + 1 ∧ physical ≤ 2 ^ 31)) := by
  obtain ⟨-, -, hfold, rfl⟩ := new_spec h
  have hle : budget ≤ physical := (Nat.le_add_right budget beta).trans hphysical
  have hm : 0 < foldM := by omega
  constructor
  · intro hwell
    have hordered := hwell.ordered a hfold
    refine ⟨hordered, ?_⟩
    obtain rfl | hpos := Nat.eq_zero_or_pos budget
    · exact Or.inl rfl
    · have hranked : (((List.range physical).map fun i => (a.zero, i)).map Prod.snd).Perm (List.range physical) :=
        (map_snd_scored a.zero (List.range physical)).symm ▸ List.Perm.refl _
      obtain ⟨coreSlots, mergeSlots, indices, weights, hslots, htable, -, hindices⟩ :=
        hwell.table .f32 _ hranked fun hq8 => by cases hq8
      have htarget := CaskCtx.target_le_of_slots hslots
      have hmax : foldM ≤ maxFoldM := by
        refine fold_le_of_layerTable a htable fun hnone => ?_
        have hlength := hindices.length
        rw [show indices = [] from hnone] at hlength
        exact absurd hlength (Nat.mul_pos hpos hm).ne
      have hwide := narrow_of_foldsWell a hfold hmax hle htarget hpos hwell
      exact Or.inr ⟨hmax, (targetCore_le_iff (by omega)).mp htarget, hwide⟩
  · rintro ⟨hordered, hcond⟩
    refine ⟨?_, fun scratchIdx hdvd hrows => greedyGroupByL2_splits a hm hordered hdvd hrows⟩
    intro tier ranked hranked hrows
    obtain rfl | ⟨hmax, hproduct, hwide⟩ := hcond
    · have hnone : (CaskCtx.mk 0 beta nKvHeads headDim coreFrac foldM).budget = 0 := rfl
      obtain ⟨hslots, htable⟩ := layerTable_empty a tier ranked kAll hnone
      exact ⟨0, 0, [], [], hslots, htable, rfl, wellFormed_empty hnone⟩
    · have htarget : (CaskCtx.mk budget beta nKvHeads headDim coreFrac foldM).targetCore ≤ budget :=
        (targetCore_le_iff (by omega)).mpr hproduct
      exact layerTable_wellFormed a hfold hmax hle htarget hwide hranked hrows fun _ => hordered

/-- The arithmetic of the integers, a scale being its low byte. -/
def integerArithmetic : Arithmetic ℤ where
  zero := 0
  one := 1
  negInf := -2 ^ 31
  add := (· + ·)
  sub := (· - ·)
  mul := (· * ·)
  div := (· / ·)
  max := max
  exp x := x
  lt x y := decide (x < y)
  ofU32 n := n.toNat
  ofI8 := Int8.toInt
  ofF16 low _ := low.toNat
  toU32 x := UInt32.ofInt x

theorem integers_ordered (rows : List ℤ → Prop) : OrderedRows integerArithmetic rows := by
  intro feat _ others _
  refine ⟨fun x _ y _ hlt => ?_, fun x _ y _ z _ hlt => ?_⟩
  · simp only [integerArithmetic, decide_eq_true_eq] at hlt ⊢
    omega
  · simp only [integerArithmetic, decide_eq_true_eq] at hlt ⊢
    omega

/-- Pairs merged in half of four slots of eight positions. -/
theorem foldsWell_pairs : FoldsWell integerArithmetic (List.replicate 272 1) ⟨4, 4, 1, 32, 1 / 2, 2⟩ 8 := by
  have hnew : CaskCtx.new 4 4 1 32 (1 / 2) 2 = some ⟨4, 4, 1, 32, 1 / 2, 2⟩ := if_pos ⟨by norm_num, by decide⟩
  have hproduct : roundSingle (roundSingle (4 : ℕ) * (1 / 2)) < (4 : ℕ) + 1 :=
    product_lt (by norm_num) (by norm_num) (by decide)
  exact (foldsWell_iff integerArithmetic hnew (by decide)).mpr
    ⟨integers_ordered _, Or.inr ⟨by decide, hproduct, by decide⟩⟩

/-- A fold of nine is accepted and does not fit a slot. -/
theorem fold_of_nine_fails : CaskCtx.new 1 8 1 32 1 9 = some ⟨1, 8, 1, 32, 1, 9⟩ ∧
    ¬ FoldsWell integerArithmetic (List.replicate 306 1) ⟨1, 8, 1, 32, 1, 9⟩ 9 := by
  refine ⟨if_pos ⟨by norm_num, by decide⟩, fun hwell => ?_⟩
  have hranked : (((List.range 9).map fun i => ((0 : ℤ), i)).map Prod.snd).Perm (List.range 9) := by decide
  obtain ⟨coreSlots, mergeSlots, indices, weights, -, htable, -, hindices⟩ :=
    hwell.table .f32 _ hranked fun hq8 => by cases hq8
  have hlength := hindices.length
  refine absurd (fold_le_of_layerTable integerArithmetic htable fun hnone => ?_) (by decide)
  rw [show indices = [] from hnone] at hlength
  cases hlength

end Fold
end Hipscope.Cask
