import Mathlib.Data.List.MinMax
import Mathlib.Data.Prod.Lex
import Mathlib.Algebra.Group.Int.Defs
import Hipscope.Tokenizer.Tables

/-! Byte-pair encoding of one chunk: a priority queue of pairs over a doubly linked list,
and the plain loop it stands for. -/
namespace Hipscope.Tokenizer

/-- A queued pair: its rank, its left slot, and that slot's generation when it was queued. -/
structure Entry where
  rank : ℕ
  left : ℕ
  gen : ℕ
  deriving DecidableEq, Repr

/-- Lowest rank first, then leftmost, then oldest. -/
def Entry.key (e : Entry) : ℕ ×ₗ ℕ ×ₗ ℕ := toLex (e.rank, toLex (e.left, e.gen))

structure ChunkState where
  syms : List TokenId
  prev : List ℤ
  next : List ℤ
  dead : List Bool
  gen : List ℕ
  heap : List Entry
  deriving DecidableEq, Repr

/-- A checked write; outside the list it panics. -/
def setAt {α : Type} (xs : List α) (i : ℕ) (a : α) : Option (List α) :=
  if i < xs.length then some (xs.set i a) else none

/-- A generation counter is a `u32`. -/
def bump (gen : List ℕ) (i : ℕ) : Option (List ℕ) := do
  let g ← gen[i]?
  if g + 1 < 2 ^ 32 then setAt gen i (g + 1) else none

/-- Queue the pair of slots `l` and `r` if it has a rule. -/
def pushPair (ranks : PairRanks) (s : ChunkState) (l r : ℕ) : Option ChunkState := do
  let a ← s.syms[l]?
  let b ← s.syms[r]?
  match ranks.lookup (a, b) with
  | none => some s
  | some rank =>
    let g ← s.gen[l]?
    some { s with heap := ⟨rank, l, g⟩ :: s.heap }

/-- Queue the pair unless one side is the end of the list. -/
def pushSlots (ranks : PairRanks) (s : ChunkState) (l r : ℤ) : Option ChunkState :=
  if 0 ≤ l ∧ 0 ≤ r then pushPair ranks s l.toNat r.toNat else some s

section Loop
variable (merges : List TokenId) (ranks : PairRanks)

/-- Slot `l` absorbs slot `r`, and the two new pairs are queued. -/
def absorb (s : ChunkState) (rank l r : ℕ) : Option ChunkState := do
  let result ← merges[rank]?
  let syms ← setAt s.syms l result
  let dead ← setAt s.dead r true
  let gen ← bump s.gen l
  let nr ← s.next[r]?
  let next ← setAt s.next l nr
  let prev ← if 0 ≤ nr then setAt s.prev nr.toNat l else some s.prev
  let pl ← prev[l]?
  let gen ← if 0 ≤ pl then bump gen pl.toNat else some gen
  let s ← pushSlots ranks ⟨syms, prev, next, dead, gen, s.heap⟩ pl l
  pushSlots ranks s l nr

/-- One popped entry; the rank of the live pair is checked as the debug assertion does. -/
def popStep (s : ChunkState) (e : Entry) : Option ChunkState := do
  let dead ← s.dead[e.left]?
  let g ← s.gen[e.left]?
  if dead ∨ g ≠ e.gen then some s
  else do
    let r ← s.next[e.left]?
    if r < 0 then some s
    else do
      let a ← s.syms[e.left]?
      let b ← s.syms[r.toNat]?
      if ranks.lookup (a, b) = some e.rank then absorb merges ranks s e.rank e.left r.toNat else none

/-- Pop until the queue is empty; `none` is a panic, or that the rounds did not suffice. -/
def mergeLoop : ℕ → ChunkState → Option ChunkState
  | 0, _ => none
  | rounds + 1, s =>
    match s.heap.argmin Entry.key with
    | none => some s
    | some e => (popStep merges ranks { s with heap := s.heap.erase e } e).bind (mergeLoop rounds)

/-- A length as an `i32`. -/
def asI32 (n : ℕ) : ℤ := Int.bmod n (2 ^ 32)

/-- The integers of `0..n as i32`. -/
def i32Range (n : ℕ) : List ℤ := (List.range (asI32 n).toNat).map Int.ofNat

/-- The first live slot without a left neighbour. -/
def findHead (s : ChunkState) : List ℕ → Option (Option ℕ)
  | [] => some none
  | i :: slots => do
    let p ← s.prev[i]?
    if p = -1 then do
      let dead ← s.dead[i]?
      if dead then findHead s slots else some (some i)
    else findHead s slots

/-- The tokens from slot `p` on. -/
def walk (s : ChunkState) : ℕ → ℤ → Option (List TokenId)
  | 0, _ => none
  | rounds + 1, p =>
    if p < 0 then some []
    else do
      let sym ← s.syms[p.toNat]?
      let next ← s.next[p.toNat]?
      let rest ← walk s rounds next
      some (sym :: rest)

/-- The slots of `n` symbols, each linked to its neighbours. -/
def initialState (syms : List TokenId) : ChunkState :=
  let n := syms.length
  { syms := syms
    prev := (i32Range n).map fun i => i - 1
    next := (i32Range n).map fun i => if i + 1 < asI32 n then i + 1 else -1
    dead := List.replicate n false
    gen := List.replicate n 0
    heap := [] }

def encodeGpt2Chunk (byteToId : List TokenId) (chunkBytes : List UInt8) : Option (List TokenId) := do
  let syms ← chunkBytes.mapM fun b => byteToId[b.toNat]?
  let n := syms.length
  if n ≤ 1 then some syms
  else do
    let seeded ← (List.range (n - 1)).foldlM (fun s i => pushPair ranks s i (i + 1)) (initialState syms)
    let s ← mergeLoop merges ranks (4 * n) seeded
    let head ← findHead s (List.range n)
    match head with
    | none => some []
    | some head => walk s (n + 1) head

end Loop

section Reference
variable {α : Type}

/-- The neighbouring pairs of a list. -/
def adjacent (xs : List α) : List (α × α) := xs.zip xs.tail

/-- The lowest rank of a neighbouring pair. -/
def bestRank (rank : α × α → Option ℕ) (xs : List α) : Option ℕ := ((adjacent xs).filterMap rank).min?

/-- Replace the leftmost pair of the rank. -/
def mergeFirst (rank : α × α → Option ℕ) (best : ℕ) (result : α) : List α → List α
  | a :: b :: rest =>
    if rank (a, b) = some best then result :: rest else a :: mergeFirst rank best result (b :: rest)
  | xs => xs

end Reference

/-- Merge the leftmost pair of lowest rank until no pair has a rule. -/
def plainMerges (merges : List TokenId) (ranks : PairRanks) : ℕ → List TokenId → List TokenId
  | 0, syms => syms
  | rounds + 1, syms =>
    match bestRank (fun pair => ranks.lookup pair) syms with
    | none => syms
    | some rank =>
      plainMerges merges ranks rounds (mergeFirst (fun pair => ranks.lookup pair) rank (merges.getD rank 0) syms)

/-- The plain encoder; every merge shortens the list. -/
def plainEncode (merges : List TokenId) (ranks : PairRanks) (byteToId : List TokenId) (chunkBytes : List UInt8) :
    List TokenId :=
  plainMerges merges ranks chunkBytes.length (chunkBytes.map fun b => byteToId.getD b.toNat 0)

end Hipscope.Tokenizer
