import Hipscope.Hash.Rolling
import Hipscope.Spec.Chain
import Mathlib.Data.List.GetD

/-! The n-gram pool: a direct-mapped table from the hash of `nMatch` tokens to the token after them. -/
namespace Hipscope.Spec.NgramMod
open Hash

def HASH_MUL : UInt64 := 6364136223846793005

/-- Empty direct-map slot. -/
def EMPTY : Token := 0xFFFFFFFF

/-- The most elements a vector of tokens is reserved for: asking for more panics. -/
def maxVec : ℕ := 2 ^ 61 - 1

structure NgramModConfig where
  capacity : ℕ
  nMatch : ℕ
  nMin : ℕ
  nMax : ℕ
  deriving DecidableEq

structure NgramModPool where
  config : NgramModConfig
  table : List Token
  occupied : ℕ
  mask : ℕ
  mulPow : UInt64
  lowAcceptStreak : ℕ
  deriving DecidableEq

/-- The exponent is cut to 32 bits. -/
def mulPowOf (config : NgramModConfig) : UInt64 :=
  if config.nMatch ≤ 1 then 1 else HASH_MUL ^ ((config.nMatch - 1) % 2 ^ 32)

def hashWindow (tokens : List Token) : UInt64 := tokens.foldl (fun h t => h * HASH_MUL + t.toUInt64) 0

def rollHash (hash : UInt64) (old newTok : Token) (mulPow : UInt64) : UInt64 :=
  (hash - old.toUInt64 * mulPow) * HASH_MUL + newTok.toUInt64

namespace NgramModPool

/-- `none` is a panic of the table's allocation. -/
def new (config : NgramModConfig) : Option (Except String NgramModPool) :=
  if config.capacity = 0 ∨ 2 ^ config.capacity.log2 ≠ config.capacity then
    some (.error "ngram_mod capacity must be a non-zero power of two")
  else if config.nMatch = 0 then some (.error "ngram_mod n_match must be >= 1")
  else if config.nMax = 0 then some (.error "ngram_mod n_max must be >= 1")
  else if config.nMax < config.nMin then some (.error "ngram_mod n_min must be <= n_max")
  else if maxVec < config.capacity then none
  else some (.ok ⟨config, List.replicate config.capacity EMPTY, 0, config.capacity - 1, mulPowOf config, 0⟩)

def clear (pool : NgramModPool) : NgramModPool :=
  { pool with table := List.replicate pool.table.length EMPTY, occupied := 0, lowAcceptStreak := 0 }

def slot (pool : NgramModPool) (hash : UInt64) : ℕ := hash.toNat &&& pool.mask

def lookup (pool : NgramModPool) (hash : UInt64) : Token := pool.table.getD (pool.slot hash) EMPTY

def store (pool : NgramModPool) (hash : UInt64) (next : Token) : NgramModPool :=
  { pool with
    occupied := if pool.lookup hash = EMPTY then pool.occupied + 1 else pool.occupied
    table := pool.table.set (pool.slot hash) next }

/-- The loop over the windows from `j` on; the first argument counts the ones left. -/
def indexFrom (context : List Token) : ℕ → ℕ → UInt64 → NgramModPool → NgramModPool
  | 0, _, _, pool => pool
  | left + 1, j, hash, pool =>
    let pool := pool.store hash (context.getD j 0)
    if context.length ≤ j + 1 then pool
    else
      let old := context.getD (j - pool.config.nMatch) 0
      indexFrom context left (j + 1) (rollHash hash old (context.getD j 0) pool.mulPow) pool

/-- The `nMatch` tokens before `j`. -/
def window (nMatch : ℕ) (context : List Token) (j : ℕ) : List Token := (context.take j).drop (j - nMatch)

/-- Index every next-token position from `nextTokenStart` on; the pool before its occupancy is looked at. -/
def indexRange (pool : NgramModPool) (context : List Token) (nextTokenStart : ℕ) : NgramModPool :=
  let start := max nextTokenStart pool.config.nMatch
  if context.length ≤ start then pool
  else indexFrom context (context.length - start) start (hashWindow (window pool.config.nMatch context start)) pool

/-- Above a quarter the pool is cleared. -/
def crowded (pool : NgramModPool) : Prop := pool.config.capacity / 4 < pool.occupied

instance (pool : NgramModPool) : Decidable pool.crowded := inferInstanceAs (Decidable (_ < _))

def insertRange (pool : NgramModPool) (context : List Token) (nextTokenStart : ℕ) : NgramModPool :=
  if context.length ≤ max nextTokenStart pool.config.nMatch then pool
  else
    let pool := pool.indexRange context nextTokenStart
    if pool.crowded then pool.clear else pool

/-- The tokens drafted so far stand in `out`; `base` is where the context's last window begins. -/
def draftLoop (pool : NgramModPool) (context : List Token) (base : ℕ) : ℕ → UInt64 → List Token → List Token
  | 0, _, out => out
  | left + 1, hash, out =>
    let tok := pool.lookup hash
    if tok = EMPTY then out
    else
      let k := out.length
      let out := out ++ [tok]
      let old := if k < pool.config.nMatch then context.getD (base + k) 0 else out.getD (k - pool.config.nMatch) 0
      draftLoop pool context base left (rollHash hash old tok pool.mulPow) out

/-- `none` is a panic: room for `limit` tokens is reserved before the first is known. -/
def draft (pool : NgramModPool) (context : List Token) (callerMax : ℕ) : Option (Option (List Token)) :=
  let n := pool.config.nMatch
  let limit := min pool.config.nMax callerMax
  if limit = 0 ∨ context.length < n ∨ limit < pool.config.nMin then some none
  else if maxVec < limit then none
  else
    let base := context.length - n
    let out := pool.draftLoop context base limit (hashWindow (context.drop base)) []
    if out.length < pool.config.nMin then some none else some (some out)

/-- Five low attempts in a row clear the pool. -/
def recordDraftResult (pool : NgramModPool) (drafted accepted : ℕ) : NgramModPool × Bool :=
  if ¬(0 < drafted ∧ accepted * 4 < drafted) then ({ pool with lowAcceptStreak := 0 }, false)
  else
    let pool := { pool with lowAcceptStreak := min (pool.lowAcceptStreak + 1) (2 ^ 32 - 1) }
    if pool.lowAcceptStreak < 5 then (pool, false) else (pool.clear, true)

/-- The pools that a configuration's calls lead to. -/
inductive Reachable (config : NgramModConfig) : NgramModPool → Prop where
  | new {pool : NgramModPool} (h : NgramModPool.new config = some (.ok pool)) : Reachable config pool
  | insertRange {pool : NgramModPool} (context : List Token) (nextTokenStart : ℕ) (h : EMPTY ∉ context) :
    Reachable config pool → Reachable config (pool.insertRange context nextTokenStart)
  | clear {pool : NgramModPool} : Reachable config pool → Reachable config pool.clear
  | recordDraftResult {pool : NgramModPool} (drafted accepted : ℕ) :
    Reachable config pool → Reachable config (pool.recordDraftResult drafted accepted).1

/-! What the pool is to be the same as. -/

def storeWindow (context : List Token) (pool : NgramModPool) (j : ℕ) : NgramModPool :=
  pool.store (hashWindow (window pool.config.nMatch context j)) (context.getD j 0)

/-- Every window stored by the hash of its own tokens. -/
def storeEach (pool : NgramModPool) (context : List Token) (nextTokenStart : ℕ) : NgramModPool :=
  let start := max nextTokenStart pool.config.nMatch
  (List.range' start (context.length - start)).foldl (storeWindow context) pool

def insertEach (pool : NgramModPool) (context : List Token) (nextTokenStart : ℕ) : NgramModPool :=
  let pool := pool.storeEach context nextTokenStart
  if pool.crowded then pool.clear else pool

/-- Look up the last window of the context, extend it, hash again. -/
def rehashChain (pool : NgramModPool) : ℕ → List Token → List Token
  | 0, _ => []
  | left + 1, context =>
    let tok := pool.lookup (hashWindow (context.drop (context.length - pool.config.nMatch)))
    if tok = EMPTY then [] else tok :: rehashChain pool left (context ++ [tok])

def rehashDraft (pool : NgramModPool) (context : List Token) (callerMax : ℕ) : Option (List Token) :=
  let limit := min pool.config.nMax callerMax
  if limit = 0 ∨ context.length < pool.config.nMatch ∨ limit < pool.config.nMin then none
  else
    let chain := pool.rehashChain limit context
    if chain.length < pool.config.nMin then none else some chain

end NgramModPool
end Hipscope.Spec.NgramMod

/-! The pool against its naive definition: stores and drafts go by the hash modulo the capacity, so the
rolling updates may be off by multiples of it. -/
namespace Hipscope.Spec.NgramMod
open Hash

/-- What `new` accepts. -/
structure Valid (config : NgramModConfig) : Prop where
  power : config.capacity = 2 ^ config.capacity.log2
  matched : 0 < config.nMatch
  bounds : config.nMin ≤ config.nMax
  room : config.capacity ≤ maxVec

namespace Valid
variable {config : NgramModConfig}

theorem positive (h : Valid config) : 0 < config.capacity := by
  rw [h.power]
  exact Nat.two_pow_pos _

theorem divides (h : Valid config) : config.capacity ∣ 2 ^ 64 := by
  have hlog : config.capacity.log2 < 61 := by
    apply (Nat.pow_lt_pow_iff_right (a := 2) (by omega)).mp
    have hroom := h.room
    rw [h.power, maxVec] at hroom
    omega
  rw [h.power]
  exact pow_dvd_pow 2 (by omega)

end Valid

namespace NgramModPool

theorem new_ok {config : NgramModConfig} {pool : NgramModPool} (h : new config = some (.ok pool)) :
    Valid config ∧
      pool = ⟨config, List.replicate config.capacity EMPTY, 0, config.capacity - 1, mulPowOf config, 0⟩ := by
  rw [new] at h
  split_ifs at h with hpower hmatch hmax hmin hroom
  · cases h
  · cases h
  · cases h
  · cases h
  · push Not at hpower
    cases h
    exact ⟨⟨hpower.2.symm, Nat.pos_of_ne_zero hmatch, by omega, by omega⟩, rfl⟩

/-- A pool of the configuration, its occupancy counter right. -/
structure Shape (config : NgramModConfig) (pool : NgramModPool) : Prop where
  configured : pool.config = config
  sized : pool.table.length = config.capacity
  masked : pool.mask = config.capacity - 1
  powered : pool.mulPow = mulPowOf config
  counted : pool.occupied = pool.table.countP (· ≠ EMPTY)

section Store
variable {config : NgramModConfig} {pool : NgramModPool}

theorem Shape.slot (h : Shape config pool) (hvalid : Valid config) (hash : UInt64) :
    pool.slot hash = hash.toNat % config.capacity := by
  rw [NgramModPool.slot, h.masked, hvalid.power, Nat.and_two_pow_sub_one_eq_mod, ← hvalid.power]

theorem Shape.slot_lt (h : Shape config pool) (hvalid : Valid config) (hash : UInt64) :
    pool.slot hash < pool.table.length := by
  rw [h.slot hvalid, h.sized]
  exact Nat.mod_lt _ hvalid.positive

theorem Shape.slot_congr (h : Shape config pool) (hvalid : Valid config) {a b : UInt64}
    (hab : residue config.capacity a = residue config.capacity b) : pool.slot a = pool.slot b := by
  rw [h.slot hvalid, h.slot hvalid]
  exact residue_eq_iff.mp hab

theorem Shape.lookup_congr (h : Shape config pool) (hvalid : Valid config) {a b : UInt64}
    (hab : residue config.capacity a = residue config.capacity b) : pool.lookup a = pool.lookup b := by
  rw [lookup, lookup, h.slot_congr hvalid hab]

theorem Shape.store_congr (h : Shape config pool) (hvalid : Valid config) {a b : UInt64}
    (hab : residue config.capacity a = residue config.capacity b) (next : Token) :
    pool.store a next = pool.store b next := by
  rw [store, store, h.slot_congr hvalid hab, h.lookup_congr hvalid hab]

theorem Shape.store (h : Shape config pool) (hvalid : Valid config) (hash : UInt64) {next : Token} (hnext : next ≠ EMPTY) :
    Shape config (pool.store hash next) where
  configured := h.configured
  sized := (List.length_set ..).trans h.sized
  masked := h.masked
  powered := h.powered
  counted := by
    have hslot := h.slot_lt hvalid hash
    have hlookup : pool.lookup hash = pool.table[pool.slot hash] := by
      rw [lookup, List.getD_eq_getElem?_getD, List.getElem?_eq_getElem hslot, Option.getD_some]
    change (if pool.lookup hash = EMPTY then pool.occupied + 1 else pool.occupied) = (pool.table.set _ next).countP _
    rw [List.countP_set hslot, hlookup, h.counted]
    by_cases hempty : pool.table[pool.slot hash] = EMPTY
    · simp [hempty, hnext]
    · have hfull : 0 < pool.table.countP (· ≠ EMPTY) :=
        List.countP_pos_iff.mpr ⟨_, List.getElem_mem hslot, by simpa using hempty⟩
      simp only [hempty, hnext, ne_eq, not_false_eq_true, decide_true, if_true, if_false] at hfull ⊢
      omega

theorem Shape.clear (h : Shape config pool) : Shape config pool.clear where
  configured := h.configured
  sized := (List.length_replicate ..).trans h.sized
  masked := h.masked
  powered := h.powered
  counted := by simp [NgramModPool.clear, List.countP_replicate]

end Store

section Window
variable {config : NgramModConfig} {context : List Token} {n j : ℕ}

theorem residue_hashWindow {c : ℕ} (hc : c ∣ 2 ^ 64) (tokens : List Token) :
    residue c (hashWindow tokens) =
      poly (residue c HASH_MUL) (tokens.map fun t => residue c t.toUInt64) := by
  have hzero : residue c 0 = 0 := by simp [residue]
  rw [hashWindow, poly, List.foldl_map, ← hzero]
  symm
  apply List.foldl_hom
  intro h t
  rw [residue_add hc, residue_mul hc]

/-- The power kept for rolling, seen modulo the capacity. -/
def Powered (config : NgramModConfig) : Prop :=
  (mulPowOf config).toNat % config.capacity = (HASH_MUL ^ (config.nMatch - 1)).toNat % config.capacity

theorem Powered.residue (h : Powered config) (hvalid : Valid config) :
    residue config.capacity (mulPowOf config) = Hash.residue config.capacity HASH_MUL ^ (config.nMatch - 1) := by
  rw [← residue_pow hvalid.divides]
  exact residue_eq_iff.mpr h

/-- One update; a power that is off leaves its error. -/
theorem residue_rollHash_error (hvalid : Valid config) {hash : UInt64} {old : Token} {rest : List Token} (power : UInt64)
    (hhash : residue config.capacity hash = residue config.capacity (hashWindow (old :: rest))) (t : Token) :
    residue config.capacity (rollHash hash old t power) = residue config.capacity (hashWindow (rest ++ [t])) +
      residue config.capacity old.toUInt64 *
        (residue config.capacity HASH_MUL ^ rest.length - residue config.capacity power) * residue config.capacity HASH_MUL := by
  have hdvd := hvalid.divides
  have hlength : rest.length = (rest.map fun t => residue config.capacity t.toUInt64).length := (List.length_map _).symm
  rw [rollHash, residue_add hdvd, residue_mul hdvd, residue_sub hdvd, residue_mul hdvd, hhash,
    residue_hashWindow hdvd, residue_hashWindow hdvd, List.map_append, List.map_cons, hlength]
  exact roll_poly _ _ _ _ _

theorem residue_rollHash (hpow : Powered config) (hvalid : Valid config) {hash : UInt64} {old : Token} {rest : List Token}
    (hrest : rest.length + 1 = config.nMatch)
    (hhash : residue config.capacity hash = residue config.capacity (hashWindow (old :: rest))) (t : Token) :
    residue config.capacity (rollHash hash old t (mulPowOf config)) =
      residue config.capacity (hashWindow (rest ++ [t])) := by
  have hpower := hpow.residue hvalid
  rw [← hrest, Nat.add_sub_cancel] at hpower
  rw [residue_rollHash_error hvalid _ hhash, hpower, sub_self, mul_zero, zero_mul, add_zero]

/-- The windows before `j` and before `j + 1` share all but their ends. -/
theorem window_slide (hn : 0 < n) (hj : n ≤ j) (hlt : j < context.length) :
    ∃ rest, window n context j = context.getD (j - n) 0 :: rest ∧
      window n context (j + 1) = rest ++ [context.getD j 0] ∧ rest.length + 1 = n := by
  have hold : j - n < (context.take j).length := by
    rw [List.length_take]
    omega
  refine ⟨(context.take j).drop (j - n + 1), ?_, ?_, ?_⟩
  · rw [window, List.drop_eq_getElem_cons hold, List.getElem_take, List.getD_eq_getElem?_getD,
      List.getElem?_eq_getElem (by omega), Option.getD_some]
  · have hstart : j + 1 - n = j - n + 1 := by omega
    rw [window, hstart, List.take_add_one, List.drop_append_of_le_length (by rw [List.length_take]; omega),
      List.getD_eq_getElem?_getD, List.getElem?_eq_getElem hlt, Option.getD_some, Option.toList_some]
  · rw [List.length_drop, List.length_take]
    omega

private theorem getD_ne_empty (h : EMPTY ∉ context) (hj : j < context.length) : context.getD j 0 ≠ EMPTY := by
  rw [List.getD_eq_getElem?_getD, List.getElem?_eq_getElem hj, Option.getD_some]
  intro hempty
  exact h (hempty ▸ List.getElem_mem hj)

end Window

section Insert
variable {config : NgramModConfig} {pool : NgramModPool} {context : List Token}

theorem Shape.storeWindow (h : Shape config pool) (hvalid : Valid config) (hcontext : EMPTY ∉ context) {j : ℕ}
    (hj : j < context.length) : Shape config (storeWindow context pool j) :=
  h.store hvalid _ (getD_ne_empty hcontext hj)

theorem Shape.foldl_storeWindow (hvalid : Valid config) (hcontext : EMPTY ∉ context) (positions : List ℕ)
    (hpositions : ∀ j ∈ positions, j < context.length) :
    ∀ pool, Shape config pool → Shape config (positions.foldl (NgramModPool.storeWindow context) pool) := by
  induction positions with
  | nil => exact fun _ h => h
  | cons j positions ih =>
    intro pool h
    exact ih (fun i hi => hpositions i (List.mem_cons_of_mem _ hi)) _
      (h.storeWindow hvalid hcontext (hpositions j List.mem_cons_self))

/-- By induction on the windows left: the rolled hash is the window's own, modulo the capacity. -/
theorem indexFrom_eq (hpow : Powered config) (hvalid : Valid config) (hcontext : EMPTY ∉ context) (left : ℕ) :
    ∀ j hash pool, Shape config pool → j + (left + 1) = context.length → config.nMatch ≤ j →
      residue config.capacity hash = residue config.capacity (hashWindow (window config.nMatch context j)) →
      indexFrom context (left + 1) j hash pool = (List.range' j (left + 1)).foldl (NgramModPool.storeWindow context) pool := by
  induction left with
  | zero =>
    intro j hash pool h hlength _ hhash
    rw [indexFrom, if_pos (by omega), h.store_congr hvalid hhash]
    change _ = pool.store (hashWindow (window pool.config.nMatch context j)) _
    rw [h.configured]
  | succ left ih =>
    intro j hash pool h hlength hj hhash
    have hlt : j < context.length := by omega
    obtain ⟨rest, hwindow, hnext, hrest⟩ := window_slide hvalid.matched hj hlt
    have hstored : pool.store hash (context.getD j 0) = NgramModPool.storeWindow context pool j := by
      rw [h.store_congr hvalid hhash, NgramModPool.storeWindow, h.configured]
    have hshape := h.storeWindow hvalid hcontext hlt
    rw [indexFrom, hstored, if_neg (by omega), List.range'_succ, List.foldl_cons]
    apply ih
    · exact hshape
    · omega
    · omega
    · rw [hshape.configured, hshape.powered, hnext]
      exact residue_rollHash hpow hvalid hrest (hwindow ▸ hhash) _

theorem indexRange_eq (hpow : Powered config) (hvalid : Valid config) (h : Shape config pool) (hcontext : EMPTY ∉ context)
    (start : ℕ) : pool.indexRange context start = pool.storeEach context start := by
  rw [indexRange, storeEach, h.configured]
  split
  · rename_i hshort
    rw [Nat.sub_eq_zero_of_le hshort]
    rfl
  · rename_i hlong
    obtain ⟨left, hleft⟩ := Nat.exists_eq_succ_of_ne_zero (Nat.sub_ne_zero_of_lt (Nat.not_le.mp hlong))
    rw [hleft]
    exact indexFrom_eq hpow hvalid hcontext left _ _ _ h (by omega) (le_max_right _ _) rfl

theorem insertRange_eq (hpow : Powered config) (hvalid : Valid config) (h : Shape config pool) (hroom : ¬pool.crowded)
    (hcontext : EMPTY ∉ context) (start : ℕ) : pool.insertRange context start = pool.insertEach context start := by
  rw [insertRange, insertEach, indexRange_eq hpow hvalid h hcontext]
  split
  · rename_i hshort
    have hnone : pool.storeEach context start = pool := by
      rw [storeEach, Nat.sub_eq_zero_of_le hshort]
      rfl
    rw [hnone, if_neg hroom]
  · rfl

/-- The positions of two pieces are those of the whole. -/
private theorem range'_pieces {start seam n length : ℕ} (hseam : start ≤ seam) :
    List.range' (max start n) (min seam length - max start n) ++ List.range' (max seam n) (length - max seam n) =
      List.range' (max start n) (length - max start n) := by
  rcases Nat.le_total seam n with hn | hn
  · have hfirst : min seam length - max start n = 0 := by omega
    rw [hfirst, max_eq_right hn, max_eq_right (hseam.trans hn)]
    rfl
  · rcases Nat.le_total seam length with hlength | hlength
    · have hnext : max seam n = max start n + (min seam length - max start n) := by omega
      have hall : length - max start n = (min seam length - max start n) + (length - max seam n) := by omega
      rw [hall, ← List.range'_append_1, ← hnext]
    · have hsecond : length - max seam n = 0 := by omega
      rw [hsecond, min_eq_right hlength]
      exact List.append_nil _

private theorem storeWindow_take {seam j : ℕ} (hj : j < seam) (pool : NgramModPool) :
    storeWindow (context.take seam) pool j = storeWindow context pool j := by
  rw [NgramModPool.storeWindow, NgramModPool.storeWindow, window, window, List.take_take, min_eq_left hj.le,
    List.getD_eq_getElem?_getD, List.getElem?_take_of_lt hj, List.getD_eq_getElem?_getD]

private theorem foldl_storeWindow_take {seam : ℕ} (positions : List ℕ) (hpositions : ∀ j ∈ positions, j < seam) :
    ∀ pool, positions.foldl (storeWindow (context.take seam)) pool = positions.foldl (storeWindow context) pool := by
  induction positions with
  | nil => intro _; rfl
  | cons j positions ih =>
    intro pool
    rw [List.foldl_cons, List.foldl_cons, storeWindow_take (hpositions j List.mem_cons_self)]
    exact ih (fun i hi => hpositions i (List.mem_cons_of_mem _ hi)) _

theorem storeEach_pieces (hvalid : Valid config) (h : Shape config pool) (hcontext : EMPTY ∉ context) {start seam : ℕ}
    (hseam : start ≤ seam) :
    (pool.storeEach (context.take seam) start).storeEach context seam = pool.storeEach context start := by
  have hpositions : ∀ j ∈ List.range' (max start config.nMatch) (min seam context.length - max start config.nMatch),
      j < seam ∧ j < context.length := by
    intro j hj
    have hj := List.mem_range'_1.mp hj
    omega
  have hfirst : pool.storeEach (context.take seam) start =
      (List.range' (max start config.nMatch) (min seam context.length - max start config.nMatch)).foldl
        (storeWindow context) pool := by
    rw [storeEach, h.configured, List.length_take]
    exact foldl_storeWindow_take _ (fun j hj => (hpositions j hj).1) pool
  have hshape := Shape.foldl_storeWindow hvalid hcontext _ (fun j hj => (hpositions j hj).2) pool h
  rw [hfirst, storeEach, storeEach, hshape.configured, h.configured, ← List.foldl_append, range'_pieces hseam]

/-- Two insertions with no clear between them are one. -/
theorem insertRange_pieces (hpow : Powered config) (hvalid : Valid config) (h : Shape config pool) (hroom : ¬pool.crowded)
    (hcontext : EMPTY ∉ context) {start seam : ℕ} (hseam : start ≤ seam)
    (hbetween : ¬(pool.indexRange (context.take seam) start).crowded) :
    (pool.insertRange (context.take seam) start).insertRange context seam = pool.insertRange context start := by
  have hfirst : EMPTY ∉ context.take seam := fun hempty => hcontext (List.mem_of_mem_take hempty)
  rw [indexRange_eq hpow hvalid h hfirst] at hbetween
  have hpiece : pool.insertRange (context.take seam) start = pool.storeEach (context.take seam) start := by
    rw [insertRange_eq hpow hvalid h hroom hfirst, insertEach, if_neg hbetween]
  have hshape : Shape config (pool.storeEach (context.take seam) start) := by
    apply Shape.foldl_storeWindow hvalid hfirst _ _ _ h
    intro j hj
    have hj := List.mem_range'_1.mp hj
    omega
  rw [hpiece, insertRange_eq hpow hvalid hshape hbetween hcontext, insertEach,
    storeEach_pieces hvalid h hcontext hseam, insertRange_eq hpow hvalid h hroom hcontext, insertEach]

end Insert

section Draft
variable {config : NgramModConfig} {pool : NgramModPool} {context : List Token}

private theorem getD_extended (hn : config.nMatch ≤ context.length) (out : List Token) (tok : Token) :
    (if out.length < config.nMatch then context.getD (context.length - config.nMatch + out.length) 0
      else (out ++ [tok]).getD (out.length - config.nMatch) 0) =
      (context ++ out ++ [tok]).getD ((context ++ out).length - config.nMatch) 0 := by
  rw [List.append_assoc, List.length_append]
  split
  · rename_i hyoung
    rw [List.getD_append context _ _ _ (by omega)]
    exact congrArg (fun i => context.getD i 0) (by omega)
  · rw [List.getD_append_right context _ _ _ (by omega)]
    exact congrArg (fun i => (out ++ [tok]).getD i 0) (by omega)

/-- By induction on the tokens left: the hash is the extended context's, modulo the capacity. -/
theorem draftLoop_eq (hpow : Powered config) (hvalid : Valid config) (h : Shape config pool)
    (hn : config.nMatch ≤ context.length) (left : ℕ) :
    ∀ hash out, residue config.capacity hash =
        residue config.capacity (hashWindow ((context ++ out).drop ((context ++ out).length - config.nMatch))) →
      pool.draftLoop context (context.length - config.nMatch) left hash out =
        out ++ pool.rehashChain left (context ++ out) := by
  induction left with
  | zero =>
    intro hash out _
    exact (List.append_nil out).symm
  | succ left ih =>
    intro hash out hhash
    rw [draftLoop, rehashChain, h.configured, ← h.lookup_congr hvalid hhash]
    split
    · exact (List.append_nil out).symm
    · have hextended : config.nMatch ≤ (context ++ out).length := by
        rw [List.length_append]
        omega
      have hlength : (context ++ out).length + 1 = (context ++ out ++ [pool.lookup hash]).length := by
        simp only [List.length_append, List.length_singleton]
      have hshorter : (context ++ out).length < (context ++ out ++ [pool.lookup hash]).length := hlength ▸ Nat.lt_succ_self _
      obtain ⟨rest, hwindow, hnext, hrest⟩ := window_slide hvalid.matched hextended hshorter
      have hlast : (context ++ out ++ [pool.lookup hash]).getD (context ++ out).length 0 = pool.lookup hash := by
        rw [List.getD_eq_getElem?_getD, List.getElem?_concat_length, Option.getD_some]
      rw [window, List.take_left] at hwindow
      rw [window, hlength, List.take_length, hlast] at hnext
      rw [ih, List.append_assoc, ← List.append_assoc context]
      · rfl
      · rw [getD_extended hn, h.powered, ← List.append_assoc, hnext]
        exact residue_rollHash hpow hvalid hrest (hwindow ▸ hhash) _

end Draft
end NgramModPool
end Hipscope.Spec.NgramMod
