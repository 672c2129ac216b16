import Hipscope.Serve.Engine

/-! The descriptor table behind the engine's pool: its calls agree with the pool's,
and its bases put every position where the engine addresses it. -/
namespace Hipscope.Serve

/-- The table holds the pool: a slab for every slot, the flags and the lengths. -/
structure Tabled (table : Residency.SlotPool) (pool : SlotPool) : Prop where
  laid : table.Laid
  slots : table.descs.length = pool.nSlots
  flags : table.inUse = (List.range pool.nSlots).map pool.inUse
  cap : table.capTokens = pool.capTokens
  lengths : ∀ slot d, table.descs[slot]? = some d →
    pool.seqLen slot ≤ pool.capTokens ∧ d.seqLen = Int32.ofNat (pool.seqLen slot)

namespace Tabled
variable {table : Residency.SlotPool} {pool : SlotPool} {slot n : ℕ} {d : Residency.KvSlotDesc}

theorem new {memAvailable : Option ℕ} {nSlots capTokens perPosBytes : ℕ}
    (h : Residency.SlotPool.new memAvailable nSlots capTokens perPosBytes = some (.ok table))
    (hcap : Residency.roundedCap capTokens < 2 ^ 31)
    (hslab : Residency.roundedCap capTokens * perPosBytes < 2 ^ 64) :
    Tabled table (.new nSlots capTokens) := by
  have hlaid := (Residency.SlotPool.new_laid h hcap hslab).1
  obtain ⟨-, -, rfl⟩ := Residency.SlotPool.new_ok h
  refine ⟨hlaid, by simp [SlotPool.new], by simp [SlotPool.new], rfl, fun slot d hd => ?_⟩
  rw [List.getElem?_map, Option.map_eq_some_iff] at hd
  obtain ⟨i, -, rfl⟩ := hd
  exact ⟨Nat.zero_le _, rfl⟩

theorem desc (h : Tabled table pool) (hslot : slot < pool.nSlots) : ∃ d, table.descs[slot]? = some d :=
  ⟨_, List.getElem?_eq_getElem (h.slots ▸ hslot)⟩

/-- The stride of a position, from the base of its slab. -/
theorem address (h : Tabled table pool) (hd : table.descs[slot]? = some d) (pos : ℕ) :
    d.kBase + pos * table.perPosBytes = kvAddress pool.capTokens slot pos * table.perPosBytes ∧
      d.vBase + pos * table.perPosBytes = kvAddress pool.capTokens slot pos * table.perPosBytes := by
  obtain ⟨hk, hv, -⟩ := h.laid.at_index slot d hd
  rw [hk, hv, Residency.SlotPool.slabBytes, h.cap, kvAddress, Nat.add_mul, Nat.mul_assoc]
  exact ⟨rfl, rfl⟩

/-- Lengths below 2^31 are told apart. -/
private theorem length_inj (h : Tabled table pool) (hd : table.descs[slot]? = some d) (hn : n ≤ pool.capTokens)
    (heq : d.seqLen = Int32.ofNat n) : pool.seqLen slot = n := by
  obtain ⟨hle, hlen⟩ := h.lengths slot d hd
  have hsmall := h.cap ▸ h.laid.small
  have hword := congrArg Int32.toInt (hlen.symm.trans heq)
  rw [Int32.toInt_ofNat_of_lt (hle.trans_lt hsmall), Int32.toInt_ofNat_of_lt (hn.trans_lt hsmall)] at hword
  exact Int.ofNat.inj hword

/-- A written length is the pool's. -/
private theorem writeLen (h : Tabled table pool) (hd : table.descs[slot]? = some d) (hn : n ≤ pool.capTokens) :
    Tabled (table.writeLen slot d n) { pool with seqLen := Function.update pool.seqLen slot n } := by
  refine ⟨h.laid.writeLen hd (h.cap ▸ hn), by simpa [Residency.SlotPool.writeLen] using h.slots, h.flags, h.cap,
    fun sl e he => ?_⟩
  rw [Residency.SlotPool.writeLen] at he
  by_cases hsl : slot = sl
  · subst hsl
    rw [List.getElem?_set_self (List.getElem?_eq_some_iff.mp hd).1] at he
    obtain rfl := Option.some.inj he
    have hself : Function.update pool.seqLen slot n slot = n := Function.update_self _ _ _
    exact ⟨hself.trans_le hn, congrArg Int32.ofNat hself.symm⟩
  · rw [List.getElem?_set_ne hsl] at he
    simp only [Function.update_of_ne (Ne.symm hsl)]
    exact h.lengths sl e he

/-- A length that is there already need not be written. -/
private theorem sameLen (h : Tabled table pool) (hd : table.descs[slot]? = some d) (hn : n ≤ pool.capTokens)
    (heq : d.seqLen = Int32.ofNat n) : Tabled table { pool with seqLen := Function.update pool.seqLen slot n } := by
  have hsame : Function.update pool.seqLen slot n = pool.seqLen :=
    Function.update_eq_self_iff.mpr (h.length_inj hd hn heq).symm
  rw [hsame]
  exact h

theorem reset (h : Tabled table pool) (hslot : slot < pool.nSlots) :
    ∃ table', table.reset slot = some table' ∧ Tabled table' (pool.reset slot) := by
  obtain ⟨d, hd⟩ := h.desc hslot
  rw [Residency.SlotPool.reset, hd, Option.bind_eq_bind, Option.bind_some]
  split
  · exact ⟨_, rfl, h.writeLen hd (Nat.zero_le _)⟩
  · rename_i hzero
    exact ⟨table, rfl, h.sameLen hd (Nat.zero_le _) (not_not.mp hzero)⟩

/-- Taking or giving back a slot sets its flag. -/
private theorem setFlag (h : Tabled table pool) (slot : ℕ) (used : Bool) :
    Tabled { table with inUse := table.inUse.set slot used }
      { pool with inUse := Function.update pool.inUse slot used } := by
  refine ⟨h.laid.congr rfl rfl rfl, h.slots, ?_, h.cap, h.lengths⟩
  rw [h.flags]
  apply List.ext_getElem
  · simp
  · intro i hi hi'
    simp only [List.getElem_set, List.getElem_map, List.getElem_range, Function.update_apply, eq_comm]

private theorem findIdx?_flags (inUse : ℕ → Bool) (nSlots : ℕ) :
    ((List.range nSlots).map inUse).findIdx? (!·) = (List.range nSlots).find? fun slot => !inUse slot := by
  induction nSlots with
  | zero => rfl
  | succ nSlots ih =>
    rw [List.range_succ, List.map_append, List.findIdx?_append, List.find?_append, ih]
    congr 1
    by_cases hfree : inUse nSlots <;> simp [hfree]

/-- Both are full at once. -/
theorem acquire_none (h : Tabled table pool) (hacquire : pool.acquire = none) :
    table.acquire = some (none, table) := by
  rw [SlotPool.acquire, Option.map_eq_none_iff] at hacquire
  rw [Residency.SlotPool.acquire, h.flags, findIdx?_flags, hacquire]

/-- Both take the same free slot. -/
theorem acquire_some (h : Tabled table pool) {pool' : SlotPool} (hacquire : pool.acquire = some (slot, pool')) :
    ∃ table', table.acquire = some (some slot, table') ∧ Tabled table' pool' := by
  obtain ⟨found, hfind, heq⟩ := Option.map_eq_some_iff.mp hacquire
  cases heq
  have hlt := List.mem_range.mp (List.mem_of_find?_eq_some hfind)
  obtain ⟨table', hreset, htabled⟩ := (h.setFlag slot true).reset hlt
  refine ⟨table', ?_, htabled⟩
  rw [Residency.SlotPool.acquire, h.flags, findIdx?_flags, hfind, ← h.flags]
  dsimp only
  rw [hreset, Option.map_some]

theorem release (h : Tabled table pool) (hslot : slot < pool.nSlots) :
    ∃ table', table.release slot = some table' ∧ Tabled table' (pool.release slot) := by
  obtain ⟨table', hreset, htabled⟩ := h.reset hslot
  exact ⟨_, by rw [Residency.SlotPool.release, hreset]; rfl, htabled.setFlag slot false⟩

/-- Both refuse a length past the slab. -/
theorem setSeqLen_none (h : Tabled table pool) (hset : pool.setSeqLen slot n = none) :
    ∃ message, table.setSeqLen slot n = some (.error message, table) := by
  rw [SlotPool.setSeqLen] at hset
  split at hset
  · rename_i hn
    exact ⟨_, if_pos (h.cap ▸ hn)⟩
  · cases hset

/-- Both take a length within it. -/
theorem setSeqLen_some (h : Tabled table pool) (hslot : slot < pool.nSlots) {pool' : SlotPool}
    (hset : pool.setSeqLen slot n = some pool') :
    ∃ table', table.setSeqLen slot n = some (.ok (), table') ∧ Tabled table' pool' := by
  obtain ⟨d, hd⟩ := h.desc hslot
  obtain ⟨hn, rfl⟩ := SlotPool.setSeqLen_eq_some hset
  rw [Residency.SlotPool.setSeqLen, if_neg (Nat.not_lt.mpr (h.cap ▸ hn)), hd, Option.bind_eq_bind,
    Option.bind_some]
  by_cases heq : d.seqLen = Int32.ofNat n
  · exact ⟨table, by rw [if_neg (not_not.mpr heq)], h.sameLen hd hn heq⟩
  · exact ⟨_, by rw [if_pos heq]; rfl, h.writeLen hd hn⟩

end Tabled
end Hipscope.Serve
