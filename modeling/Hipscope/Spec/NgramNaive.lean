import Hipscope.Spec.NgramMod

/-! When every pool of a configuration is its naive definition, and that the served ones are. -/
namespace Hipscope.Spec.NgramMod.NgramModPool
open Hash

/-- What a pool does, window by window and token by token. -/
structure Naive (pool : NgramModPool) : Prop where
  counted : pool.occupied = pool.table.countP (· ≠ EMPTY)
  inserts : ∀ context start, EMPTY ∉ context → pool.insertRange context start = pool.insertEach context start
  pieces : ∀ context start seam, EMPTY ∉ context → start ≤ seam → ¬(pool.indexRange (context.take seam) start).crowded →
    (pool.insertRange (context.take seam) start).insertRange context seam = pool.insertRange context start
  drafts : ∀ context callerMax, EMPTY ∉ context → pool.draft context callerMax = some (pool.rehashDraft context callerMax)
  lengths : ∀ context callerMax tokens, EMPTY ∉ context → pool.draft context callerMax = some (some tokens) →
    tokens.length = 0 ∨ (pool.config.nMin ≤ tokens.length ∧ tokens.length ≤ min pool.config.nMax callerMax)

section Reach
variable {config : NgramModConfig} {pool : NgramModPool}

private theorem Shape.indexFrom (hvalid : Valid config) {context : List Token} (hcontext : EMPTY ∉ context) (left : ℕ) :
    ∀ j hash pool, Shape config pool → j + left = context.length → Shape config (indexFrom context left j hash pool) := by
  induction left with
  | zero => exact fun _ _ _ h _ => h
  | succ left ih =>
    intro j hash pool h hlength
    have hnext : context.getD j 0 ≠ EMPTY := by
      rw [List.getD_eq_getElem _ _ (by omega)]
      exact fun hempty => hcontext (hempty ▸ List.getElem_mem _)
    rw [NgramModPool.indexFrom]
    split
    · exact h.store hvalid hash hnext
    · exact ih _ _ _ (h.store hvalid hash hnext) (by omega)

theorem Shape.indexRange (h : Shape config pool) (hvalid : Valid config) {context : List Token} (hcontext : EMPTY ∉ context)
    (start : ℕ) : Shape config (pool.indexRange context start) := by
  rw [NgramModPool.indexRange]
  split
  · exact h
  · exact Shape.indexFrom hvalid hcontext _ _ _ _ h (by omega)

private theorem clear_roomy (pool : NgramModPool) : ¬pool.clear.crowded := Nat.not_lt_zero _

theorem Shape.insertRange (h : Shape config pool) (hvalid : Valid config) {context : List Token} (hcontext : EMPTY ∉ context)
    (start : ℕ) (hroom : ¬pool.crowded) :
    Shape config (pool.insertRange context start) ∧ ¬(pool.insertRange context start).crowded := by
  have hindexed := h.indexRange hvalid hcontext start
  rw [NgramModPool.insertRange]
  split
  · exact ⟨h, hroom⟩
  dsimp only
  split_ifs with hcrowded
  · exact ⟨hindexed.clear, clear_roomy _⟩
  · exact ⟨hindexed, hcrowded⟩

theorem Shape.recordDraftResult (h : Shape config pool) (drafted accepted : ℕ) (hroom : ¬pool.crowded) :
    Shape config (pool.recordDraftResult drafted accepted).1 ∧ ¬(pool.recordDraftResult drafted accepted).1.crowded := by
  rw [NgramModPool.recordDraftResult]
  split
  · exact ⟨⟨h.configured, h.sized, h.masked, h.powered, h.counted⟩, hroom⟩
  dsimp only
  split
  · exact ⟨⟨h.configured, h.sized, h.masked, h.powered, h.counted⟩, hroom⟩
  · exact ⟨⟨h.clear.configured, h.clear.sized, h.clear.masked, h.clear.powered, h.clear.counted⟩, clear_roomy _⟩

theorem Reachable.shape (h : Reachable config pool) : Valid config ∧ Shape config pool ∧ ¬pool.crowded := by
  induction h with
  | new h =>
    obtain ⟨hvalid, rfl⟩ := new_ok h
    refine ⟨hvalid, ⟨rfl, List.length_replicate, rfl, rfl, ?_⟩, Nat.not_lt_zero _⟩
    simp [List.countP_replicate]
  | insertRange context start hcontext _ ih =>
    obtain ⟨hvalid, hshape, hroom⟩ := ih
    exact ⟨hvalid, hshape.insertRange hvalid hcontext start hroom⟩
  | clear _ ih => exact ⟨ih.1, ih.2.1.clear, clear_roomy _⟩
  | recordDraftResult drafted accepted _ ih => exact ⟨ih.1, ih.2.1.recordDraftResult drafted accepted ih.2.2⟩

end Reach

section Draft
variable {config : NgramModConfig} {pool : NgramModPool} {context : List Token}

theorem rehashChain_length (pool : NgramModPool) (left : ℕ) :
    ∀ context, (pool.rehashChain left context).length ≤ left := by
  induction left with
  | zero => exact fun _ => le_rfl
  | succ left ih =>
    intro context
    rw [rehashChain]
    split
    · exact Nat.zero_le _
    · exact Nat.succ_le_succ (ih _)

theorem rehashDraft_length {callerMax : ℕ} {tokens : List Token} (h : pool.rehashDraft context callerMax = some tokens) :
    pool.config.nMin ≤ tokens.length ∧ tokens.length ≤ min pool.config.nMax callerMax := by
  rw [rehashDraft] at h
  split at h
  · cases h
  · dsimp only at h
    split at h
    · cases h
    · rename_i hlong
      cases h
      exact ⟨Nat.not_lt.mp hlong, rehashChain_length pool _ context⟩

theorem draft_eq (hpow : Powered config) (hvalid : Valid config) (h : Shape config pool) (hmax : config.nMax ≤ maxVec)
    (callerMax : ℕ) : pool.draft context callerMax = some (pool.rehashDraft context callerMax) := by
  rw [draft, rehashDraft, h.configured]
  by_cases hgate : min config.nMax callerMax = 0 ∨ context.length < config.nMatch ∨ min config.nMax callerMax < config.nMin
  · rw [if_pos hgate, if_pos hgate]
  · have hn : config.nMatch ≤ context.length := by
      push Not at hgate
      exact hgate.2.1
    have hloop := draftLoop_eq hpow hvalid h hn (min config.nMax callerMax)
      (hashWindow (context.drop (context.length - config.nMatch))) [] (by rw [List.append_nil])
    rw [List.append_nil, List.nil_append] at hloop
    rw [if_neg hgate, if_neg hgate, if_neg (by omega)]
    simp only [hloop]
    split <;> rfl

end Draft

theorem Reachable.naive {config : NgramModConfig} {pool : NgramModPool} (h : Reachable config pool)
    (hmax : config.nMax ≤ maxVec) (hpow : Powered config) : Naive pool := by
  obtain ⟨hvalid, hshape, hroom⟩ := h.shape
  refine ⟨hshape.counted, ?_, ?_, ?_, ?_⟩
  · exact fun _ start hcontext => insertRange_eq hpow hvalid hshape hroom hcontext start
  · exact fun _ _ _ hcontext hseam hbetween => insertRange_pieces hpow hvalid hshape hroom hcontext hseam hbetween
  · exact fun _ callerMax _ => draft_eq hpow hvalid hshape hmax callerMax
  · intro context callerMax tokens _ htokens
    rw [draft_eq hpow hvalid hshape hmax] at htokens
    exact Or.inr (rehashDraft_length (Option.some.inj htokens))

/-! Where the condition fails, a fresh pool shows it. -/

theorem hash_pow_two_pow (i : ℕ) : ∃ t, HASH_MUL.toNat ^ 2 ^ i = 1 + 2 ^ (i + 2) * (2 * t + 1) := by
  induction i with
  | zero => exact ⟨795517027980849125, by decide⟩
  | succ i ih =>
    obtain ⟨t, ht⟩ := ih
    refine ⟨t + 2 ^ i * (2 * t + 1) ^ 2, ?_⟩
    rw [pow_succ 2 i, pow_mul, ht]
    ring

/-- The exponent's cut is not seen below `2 ^ 34` slots. -/
theorem powered_of_dvd {config : NgramModConfig} (h : config.capacity ∣ 2 ^ 34) : Powered config := by
  have hdvd : config.capacity ∣ 2 ^ 64 := h.trans (pow_dvd_pow 2 (by decide))
  rw [Powered, ← residue_eq_iff, mulPowOf]
  split
  · rename_i hsmall
    rw [Nat.sub_eq_zero_of_le hsmall, UInt64.pow_zero]
  · obtain ⟨t, ht⟩ := hash_pow_two_pow 32
    have hunit : residue config.capacity HASH_MUL ^ 2 ^ 32 = 1 := by
      have hpart : ((2 ^ (32 + 2) : ℕ) : ZMod config.capacity) = 0 := (ZMod.natCast_eq_zero_iff _ _).mpr h
      rw [residue, ← Nat.cast_pow, ht, Nat.cast_add, Nat.cast_mul, hpart, zero_mul, add_zero, Nat.cast_one]
    rw [residue_pow hdvd, residue_pow hdvd, ← Nat.mod_add_div (config.nMatch - 1) (2 ^ 32), Nat.add_mul_mod_self_left,
      Nat.mod_mod, pow_add, pow_mul, hunit, one_pow, mul_one]

section Fresh
variable {config : NgramModConfig} {pool : NgramModPool}

theorem Naive.maxVec_le (hvalid : Valid config) (hshape : Shape config pool) (h : Naive pool) :
    config.nMax ≤ maxVec := by
  by_contra hlarge
  have hzeros : EMPTY ∉ List.replicate config.nMatch 0 := by simp [EMPTY]
  have hpanic : pool.draft (List.replicate config.nMatch 0) config.nMax = none := by
    have hgate : ¬(min config.nMax config.nMax = 0 ∨ (List.replicate config.nMatch (0 : Token)).length < config.nMatch ∨
        min config.nMax config.nMax < config.nMin) := by
      have hbounds := hvalid.bounds
      rw [min_self, List.length_replicate]
      omega
    rw [draft, hshape.configured, if_neg hgate, if_pos (by omega)]
  rw [h.drafts _ _ hzeros] at hpanic
  cases hpanic

theorem store_occupied (pool : NgramModPool) (hash : UInt64) (next : Token) :
    (pool.store hash next).occupied ≤ pool.occupied + 1 := by
  rw [store]
  dsimp only
  split <;> omega

private theorem hash_unit (hvalid : Valid config) : IsUnit (residue config.capacity HASH_MUL) := by
  rw [residue, ZMod.isUnit_iff_coprime, hvalid.power]
  apply Nat.Coprime.pow_right
  decide

/-- Two windows, the second of zeros: what leaves the first is a one. -/
private def telling (n : ℕ) : List Token := 1 :: (List.replicate n 0 ++ [5])

private theorem telling_length (n : ℕ) : (telling n).length = n + 2 := by simp [telling]

private theorem telling_sound (n : ℕ) : EMPTY ∉ telling n := by simp [telling, EMPTY]

private theorem telling_first (n : ℕ) : (telling n).getD (n - n) 0 = 1 := by
  rw [Nat.sub_self]
  rfl

private theorem telling_next {n : ℕ} (hn : 0 < n) : (telling n).getD n 0 = 0 := by
  obtain ⟨m, rfl⟩ := Nat.exists_eq_succ_of_ne_zero hn.ne'
  rw [telling, List.getD_cons_succ, List.getD_append _ _ _ _ (by simp), List.getD_replicate _ (Nat.lt_succ_self m)]

private theorem telling_last (n : ℕ) : (telling n).getD (n + 1) 0 = 5 := by
  rw [telling, List.getD_cons_succ, List.getD_append_right _ _ _ _ (by simp), List.length_replicate, Nat.sub_self]
  rfl

private theorem indexRange_telling (hvalid : Valid config) (hshape : Shape config pool) :
    pool.indexRange (telling config.nMatch) 0 =
      (pool.store (hashWindow (window config.nMatch (telling config.nMatch) config.nMatch)) 0).store
        (rollHash (hashWindow (window config.nMatch (telling config.nMatch) config.nMatch)) 1 0 (mulPowOf config)) 5 := by
  have hstored (hash : UInt64) : Shape config (pool.store hash 0) := hshape.store hvalid hash (by decide)
  rw [NgramModPool.indexRange, hshape.configured, Nat.zero_max, if_neg (by rw [telling_length]; omega), telling_length,
    Nat.add_sub_cancel_left, NgramModPool.indexFrom, telling_next hvalid.matched, if_neg (by rw [telling_length]; omega),
    NgramModPool.indexFrom, telling_last, if_pos (by rw [telling_length]), (hstored _).configured,
    (hstored _).powered, telling_first]

private theorem storeEach_telling (hvalid : Valid config) (hshape : Shape config pool) :
    pool.storeEach (telling config.nMatch) 0 =
      (pool.store (hashWindow (window config.nMatch (telling config.nMatch) config.nMatch)) 0).store
        (hashWindow (window config.nMatch (telling config.nMatch) (config.nMatch + 1))) 5 := by
  have hstored (hash : UInt64) : Shape config (pool.store hash 0) := hshape.store hvalid hash (by decide)
  rw [storeEach, hshape.configured, Nat.zero_max, telling_length, Nat.add_sub_cancel_left]
  change NgramModPool.storeWindow _ (NgramModPool.storeWindow _ pool config.nMatch) (config.nMatch + 1) = _
  rw [NgramModPool.storeWindow, NgramModPool.storeWindow, telling_next hvalid.matched, telling_last, hshape.configured,
    (hstored _).configured]

/-- The table tells where the second token was stored. -/
private theorem slot_of_table (hshape : Shape config pool) (hvalid : Valid config)
    (hempty : ∀ i, pool.table.getD i EMPTY = EMPTY)
    {h₀ a b : UInt64} (h : ((pool.store h₀ 0).store a 5).table = ((pool.store h₀ 0).store b 5).table) :
    pool.slot a = pool.slot b := by
  by_contra hslots
  have hat : ((pool.store h₀ 0).store a 5).table.getD (pool.slot b) EMPTY = 5 := by
    rw [h]
    change ((pool.table.set _ 0).set (pool.slot b) 5).getD (pool.slot b) EMPTY = 5
    rw [List.getD_eq_getElem?_getD, List.getElem?_set_self (by rw [List.length_set]; exact hshape.slot_lt hvalid b)]
    rfl
  have hbelow : (pool.table.set (pool.slot h₀) 0).getD (pool.slot b) EMPTY = 5 := by
    rw [← hat]
    change _ = ((pool.table.set _ 0).set (pool.slot a) 5).getD (pool.slot b) EMPTY
    rw [List.getD_eq_getElem?_getD, List.getD_eq_getElem?_getD, List.getElem?_set_ne hslots]
  by_cases hfirst : pool.slot h₀ = pool.slot b
  · rw [hfirst, List.getD_eq_getElem?_getD, List.getElem?_set_self (hshape.slot_lt hvalid b)] at hbelow
    exact absurd hbelow (by decide)
  · rw [List.getD_eq_getElem?_getD, List.getElem?_set_ne hfirst, ← List.getD_eq_getElem?_getD, hempty] at hbelow
    exact absurd hbelow (by decide)

theorem Naive.powered (hnew : NgramModPool.new config = some (.ok pool)) (h : Naive pool) : Powered config := by
  by_cases hsmall : config.capacity ∣ 2 ^ 34
  · exact powered_of_dvd hsmall
  obtain ⟨hvalid, hpool⟩ := new_ok hnew
  obtain ⟨-, hshape, -⟩ := (Reachable.new hnew).shape
  have hquarter : 2 ≤ pool.config.capacity / 4 := by
    have hlog : 3 ≤ config.capacity.log2 := by
      by_contra hless
      apply hsmall
      rw [hvalid.power]
      exact pow_dvd_pow 2 (by omega)
    have hpow := Nat.pow_le_pow_right (n := 2) (by decide) hlog
    rw [← hvalid.power] at hpow
    rw [hshape.configured]
    omega
  have hroomy (h₀ a : UInt64) : ¬((pool.store h₀ 0).store a 5).crowded := by
    have hfirst := store_occupied pool h₀ 0
    have hsecond := store_occupied (pool.store h₀ 0) a 5
    have hempty : pool.occupied = 0 := by rw [hpool]
    change ¬pool.config.capacity / 4 < _
    omega
  have hinsert := h.inserts _ 0 (telling_sound config.nMatch)
  rw [NgramModPool.insertRange, hshape.configured, if_neg (by rw [telling_length]; omega), insertEach,
    indexRange_telling hvalid hshape, storeEach_telling hvalid hshape] at hinsert
  simp only [if_neg (hroomy _ _)] at hinsert
  have hempty (i : ℕ) : pool.table.getD i EMPTY = EMPTY := by
    rw [hpool, List.getD_eq_getElem?_getD, List.getElem?_getD_replicate_default_eq]
  have hslots := slot_of_table hshape hvalid hempty (congrArg table hinsert)
  obtain ⟨rest, hwindow, hnext, hrest⟩ := window_slide hvalid.matched le_rfl
    (show config.nMatch < (telling config.nMatch).length by rw [telling_length]; omega)
  rw [telling_first] at hwindow
  rw [telling_next hvalid.matched] at hnext
  have herror := residue_rollHash_error hvalid (mulPowOf config)
    (congrArg (fun tokens => residue config.capacity (hashWindow tokens)) hwindow) 0
  have hone : residue config.capacity (1 : Token).toUInt64 = 1 := by simp [residue]
  rw [← hnext, residue_eq_iff.mpr ((hshape.slot hvalid _).symm.trans (hslots.trans (hshape.slot hvalid _))), hone, one_mul,
    left_eq_add] at herror
  have hpower := sub_eq_zero.mp ((hash_unit hvalid).mul_left_eq_zero.mp herror)
  rw [Powered, ← residue_eq_iff, residue_pow hvalid.divides, ← hpower, ← hrest, Nat.add_sub_cancel]

end Fresh

/-- Every pool of a configuration is its naive definition exactly when a draft's reservation cannot panic
and the cut exponent is not seen modulo the capacity. -/
theorem naive_iff {config : NgramModConfig} {pool : NgramModPool} (hnew : NgramModPool.new config = some (.ok pool)) :
    (∀ reached, Reachable config reached → Naive reached) ↔ config.nMax ≤ maxVec ∧ Powered config := by
  constructor
  · intro h
    obtain ⟨hvalid, hshape, -⟩ := (Reachable.new hnew).shape
    have hfresh := h pool (.new hnew)
    exact ⟨hfresh.maxVec_le hvalid hshape, hfresh.powered hnew⟩
  · rintro ⟨hmax, hpow⟩ reached hreached
    exact hreached.naive hmax hpow

/-! The pools that are served: one for a model, replaced when a request asks with another configuration. -/

/-- Settings outside of these leave a request without a pool. -/
def ngramModConfigValid (nMatch nMin nMax : ℕ) : Bool := nMax ≤ 64 && 1 ≤ nMax && 1 ≤ nMatch && nMin ≤ nMax

/-- The capacity is no setting. -/
def servedConfig (nMatch nMin nMax : ℕ) : NgramModConfig := ⟨2 ^ 22, nMatch, nMin, nMax⟩

/-- The pool a request drafts from and the one its model then holds; `asked` is the opt-in of a greedy request
without thinking. `none` is a panic of the table's allocation. -/
def requestPool (held : Option NgramModPool) (asked : Bool) (nMatch nMin nMax : ℕ) :
    Option (Option NgramModPool × Option NgramModPool) :=
  if asked && ngramModConfigValid nMatch nMin nMax then
    let config := servedConfig nMatch nMin nMax
    match held.filter (·.config = config) with
    | some pool => some (some pool, held)
    | none => (new config).map fun
      | .ok pool => (some pool, some pool)
      | .error _ => (none, held)
  else some (none, held)

/-- The pools a model holds over its requests and what these do to them. -/
inductive Held : Option NgramModPool → Prop where
  | loaded : Held none
  | request {held used next : Option NgramModPool} (asked : Bool) (nMatch nMin nMax : ℕ)
    (h : requestPool held asked nMatch nMin nMax = some (used, next)) : Held held → Held next
  | insertRange {pool : NgramModPool} (context : List Token) (nextTokenStart : ℕ) (h : EMPTY ∉ context) :
    Held (some pool) → Held (some (pool.insertRange context nextTokenStart))
  | clear {pool : NgramModPool} : Held (some pool) → Held (some pool.clear)
  | recordDraftResult {pool : NgramModPool} (drafted accepted : ℕ) :
    Held (some pool) → Held (some (pool.recordDraftResult drafted accepted).1)

/-- A pool that a valid configuration's calls lead to. -/
def FromServed (pool : NgramModPool) : Prop :=
  ∃ nMatch nMin nMax, ngramModConfigValid nMatch nMin nMax ∧ Reachable (servedConfig nMatch nMin nMax) pool

section Held
variable {held : Option NgramModPool} {nMatch nMin nMax : ℕ}

theorem ngramModConfigValid_iff :
    ngramModConfigValid nMatch nMin nMax ↔ nMax ≤ 64 ∧ 0 < nMax ∧ 0 < nMatch ∧ nMin ≤ nMax := by
  simp [ngramModConfigValid, Nat.one_le_iff_ne_zero, Nat.pos_iff_ne_zero, and_assoc]

theorem new_served (h : ngramModConfigValid nMatch nMin nMax) :
    ∃ pool, new (servedConfig nMatch nMin nMax) = some (.ok pool) := by
  obtain ⟨-, hmax, hmatch, hbounds⟩ := ngramModConfigValid_iff.mp h
  have hcapacity : ¬((2 : ℕ) ^ 22 = 0 ∨ 2 ^ (2 ^ 22).log2 ≠ 2 ^ 22) := by decide
  have hroom : ¬maxVec < 2 ^ 22 := by decide
  rw [new, servedConfig, if_neg hcapacity, if_neg hmatch.ne', if_neg hmax.ne', if_neg hbounds.not_gt, if_neg hroom]
  exact ⟨_, rfl⟩

/-- A request with valid settings is served the pool its model holds, or a fresh one, and that one is held after. -/
theorem requestPool_valid (held : Option NgramModPool) (h : ngramModConfigValid nMatch nMin nMax) :
    ∃ pool, requestPool held true nMatch nMin nMax = some (some pool, some pool) ∧
      (held = some pool ∨ new (servedConfig nMatch nMin nMax) = some (.ok pool)) := by
  rw [requestPool, h, Bool.and_true, if_pos rfl]
  dsimp only
  cases hheld : held.filter (·.config = servedConfig nMatch nMin nMax) with
  | some pool =>
    have hsame := (Option.filter_eq_some_iff.mp hheld).1
    exact ⟨pool, by rw [hsame], .inl hsame⟩
  | none =>
    obtain ⟨pool, hnew⟩ := new_served h
    exact ⟨pool, by rw [hnew]; rfl, .inr hnew⟩

theorem requestPool_cases {asked : Bool} {used next : Option NgramModPool}
    (h : requestPool held asked nMatch nMin nMax = some (used, next)) :
    next = held ∨ ngramModConfigValid nMatch nMin nMax ∧
      ∃ pool, next = some pool ∧ new (servedConfig nMatch nMin nMax) = some (.ok pool) := by
  cases harmed : asked && ngramModConfigValid nMatch nMin nMax with
  | false =>
    rw [requestPool, harmed] at h
    cases h
    exact .inl rfl
  | true =>
    obtain ⟨rfl, hvalid⟩ := Bool.and_eq_true_iff.mp harmed
    obtain ⟨pool, hpool, hfrom⟩ := requestPool_valid held hvalid
    cases hpool.symm.trans h
    exact hfrom.imp Eq.symm fun hnew => ⟨hvalid, pool, rfl, hnew⟩

theorem Held.fromServed (h : Held held) : ∀ pool ∈ held, FromServed pool := by
  induction h with
  | loaded => nofun
  | request asked nMatch nMin nMax h _ ih =>
    rcases requestPool_cases h with rfl | ⟨hvalid, fresh, rfl, hnew⟩
    · exact ih
    · rintro pool ⟨⟩
      exact ⟨nMatch, nMin, nMax, hvalid, .new hnew⟩
  | insertRange context start hcontext _ ih =>
    obtain ⟨nMatch, nMin, nMax, hvalid, hreached⟩ := ih _ rfl
    rintro pool ⟨⟩
    exact ⟨nMatch, nMin, nMax, hvalid, hreached.insertRange context start hcontext⟩
  | clear _ ih =>
    obtain ⟨nMatch, nMin, nMax, hvalid, hreached⟩ := ih _ rfl
    rintro pool ⟨⟩
    exact ⟨nMatch, nMin, nMax, hvalid, hreached.clear⟩
  | recordDraftResult drafted accepted _ ih =>
    obtain ⟨nMatch, nMin, nMax, hvalid, hreached⟩ := ih _ rfl
    rintro pool ⟨⟩
    exact ⟨nMatch, nMin, nMax, hvalid, hreached.recordDraftResult drafted accepted⟩

theorem FromServed.naive {pool : NgramModPool} (h : FromServed pool) : Naive pool := by
  obtain ⟨nMatch, nMin, nMax, hvalid, hreached⟩ := h
  obtain ⟨fresh, hnew⟩ := new_served hvalid
  have hmax : nMax ≤ maxVec := (ngramModConfigValid_iff.mp hvalid).1.trans (by decide)
  exact (naive_iff hnew).mpr ⟨hmax, powered_of_dvd (pow_dvd_pow 2 (by decide))⟩ pool hreached

end Held

/-- Whatever its requests did, the pool a model holds is its naive definition, and so is the one a request with
valid settings gets. -/
theorem served_naive {held : Option NgramModPool} (h : Held held) :
    (∀ pool ∈ held, Naive pool) ∧ ∀ nMatch nMin nMax, ngramModConfigValid nMatch nMin nMax →
      ∃ pool, requestPool held true nMatch nMin nMax = some (some pool, some pool) ∧ Naive pool := by
  refine ⟨fun pool hpool => (h.fromServed pool hpool).naive, ?_⟩
  intro nMatch nMin nMax hvalid
  obtain ⟨pool, hpool, -⟩ := requestPool_valid held hvalid
  exact ⟨pool, hpool, ((h.request true nMatch nMin nMax hpool).fromServed pool rfl).naive⟩

/-- The default settings, then a draft that was refused. -/
theorem served_naive_default : ∃ pool, requestPool none true 24 48 64 = some (some pool, some pool) ∧
    Naive ((pool.insertRange (List.replicate 30 7) 24).recordDraftResult 48 3).1 := by
  obtain ⟨pool, hpool, -⟩ := (served_naive .loaded).2 24 48 64 (by decide)
  have hheld := (Held.loaded.request true 24 48 64 hpool).insertRange (List.replicate 30 7) 24 (by decide)
  exact ⟨pool, hpool, (served_naive (hheld.recordDraftResult 48 3)).1 _ rfl⟩

end Hipscope.Spec.NgramMod.NgramModPool
