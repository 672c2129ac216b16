import Hipscope.Spec.Chain
import Hipscope.Graph.ParentArray
import Mathlib.Algebra.Group.Int.Defs
import Mathlib.Logic.Function.Basic
import Mathlib.Tactic

/-! Draft trees: built best-first from per-position candidates, walked by the
target's predictions, and laid out as one block for verification. The weights are
only compared, added and negated, so their type is left open. -/
namespace Hipscope.Spec
variable {W : Type}

/-- `parentIndex` is -1 for a child of the root. -/
structure DdNode (W : Type) where
  token : Token
  depth : ℕ
  parentIndex : ℤ
  logw : W

/-- Slot 0 is the root, slot `i + 1` the node at index `i`. -/
structure DdTree (W : Type) where
  nodes : List (DdNode W)
  visibility : List (List Bool)
  childMaps : List (Token → Option ℕ)

def noChildren : Token → Option ℕ := fun _ => none

def slotOf (parentIndex : ℤ) : ℕ := if parentIndex < 0 then 0 else parentIndex.toNat + 1

structure HeapEntry (W : Type) where
  negLogw : W
  pushOrder : ℕ
  depth : ℕ
  rank : ℕ
  parentIndex : ℤ
  logw : W

section Heap
variable [LT W] [DecidableLT W]

/-- Incomparable weights count as equal. -/
def compareWeights (a b : W) : Ordering := if a < b then .lt else if b < a then .gt else .eq

def HeapEntry.cmp (entry other : HeapEntry W) : Ordering :=
  match compareWeights other.negLogw entry.negLogw with
  | .eq => compare other.pushOrder entry.pushOrder
  | order => order

/-- The greatest entry and the others. -/
def popMax : List (HeapEntry W) → Option (HeapEntry W × List (HeapEntry W))
  | [] => none
  | entry :: heap =>
    match popMax heap with
    | none => some (entry, [])
    | some (best, others) =>
      if entry.cmp best = .lt then some (best, entry :: others) else some (entry, best :: others)

end Heap

/-- A heap hands out one of its entries as long as there is one; which one it is does not matter here. -/
structure LawfulPop (pop : List (HeapEntry W) → Option (HeapEntry W × List (HeapEntry W))) : Prop where
  empty : pop [] = none
  perm : ∀ heap, heap ≠ [] → ∃ entry rest, pop heap = some (entry, rest) ∧ heap.Perm (entry :: rest)

section Heap
variable [LT W] [DecidableLT W]

/-- Taking the greatest entry is one way to pop. -/
theorem popMax_lawful : LawfulPop (popMax : List (HeapEntry W) → Option (HeapEntry W × List (HeapEntry W))) where
  empty := rfl
  perm heap hne := by
    induction heap with
    | nil => exact absurd rfl hne
    | cons entry heap ih =>
      rw [popMax]
      cases heap with
      | nil => exact ⟨entry, [], rfl, List.Perm.refl _⟩
      | cons second heap =>
        obtain ⟨best, others, hbest, hperm⟩ := ih (List.cons_ne_nil _ _)
        rw [hbest]
        dsimp only
        split_ifs
        · exact ⟨best, entry :: others, rfl, (hperm.cons entry).trans (List.Perm.swap best entry others)⟩
        · exact ⟨entry, best :: others, rfl, hperm.cons entry⟩

end Heap

section Build
variable [Add W] [Sub W] [Neg W] [LT W] [DecidableLT W]

/-- The candidate table: `topk` tokens and weights for each of `depth` positions. -/
structure Candidates (W : Type) where
  topTokens : List Token
  topLogProbs : List W
  depth : ℕ
  topk : ℕ

/-- The loop's variables. -/
structure Growth (W : Type) where
  heap : List (HeapEntry W)
  pushCounter : ℕ
  nodes : List (DdNode W)
  childMaps : List (Token → Option ℕ)

namespace Candidates
variable (c : Candidates W)

/-- The sibling at the next rank, if any remain at this depth. -/
def pushSibling (entry : HeapEntry W) (heap : List (HeapEntry W)) (pushCounter : ℕ) :
    Option (List (HeapEntry W) × ℕ) :=
  if entry.rank + 1 < c.topk then do
    let own ← c.topLogProbs[(entry.depth - 1) * c.topk + entry.rank]?
    let next ← c.topLogProbs[(entry.depth - 1) * c.topk + (entry.rank + 1)]?
    let logw := entry.logw - own + next
    some (⟨-logw, pushCounter, entry.depth, entry.rank + 1, entry.parentIndex, logw⟩ :: heap, pushCounter + 1)
  else some (heap, pushCounter)

/-- The best child, if there is a deeper draft position. -/
def pushChild (entry : HeapEntry W) (currentIndex : ℕ) (heap : List (HeapEntry W)) (pushCounter : ℕ) :
    Option (List (HeapEntry W) × ℕ) :=
  if entry.depth < c.depth then do
    let own ← c.topLogProbs[entry.depth * c.topk + 0]?
    let logw := entry.logw + own
    some (⟨-logw, pushCounter, entry.depth + 1, 0, currentIndex, logw⟩ :: heap, pushCounter + 1)
  else some (heap, pushCounter)

/-- Add the node of a popped entry and push its successors; an index out of range panics. -/
def place (s : Growth W) (entry : HeapEntry W) (heap : List (HeapEntry W)) : Option (Growth W) := do
  let token ← c.topTokens[(entry.depth - 1) * c.topk + entry.rank]?
  let currentIndex := s.nodes.length
  let nodes := s.nodes ++ [⟨token, entry.depth, entry.parentIndex, entry.logw⟩]
  let childMaps := s.childMaps ++ [noChildren]
  let parentSlot := slotOf entry.parentIndex
  let children ← childMaps[parentSlot]?
  let childMaps := childMaps.set parentSlot (Function.update children token (some currentIndex))
  let (heap, pushCounter) ← c.pushSibling entry heap s.pushCounter
  let (heap, pushCounter) ← c.pushChild entry currentIndex heap pushCounter
  some ⟨heap, pushCounter, nodes, childMaps⟩

/-- The loop, with room for so many more nodes. Below the cutoff it stops once the floor is reached. -/
def expand (pop : List (HeapEntry W) → Option (HeapEntry W × List (HeapEntry W))) (minNodes : ℕ) (logwCutoff : W) :
    ℕ → Growth W → Option (Growth W)
  | 0, s => some s
  | room + 1, s =>
    match pop s.heap with
    | none => some s
    | some (entry, heap) =>
      if minNodes ≤ s.nodes.length ∧ entry.logw < logwCutoff then some s
      else do
        let s ← c.place s entry heap
        expand pop minNodes logwCutoff room s

end Candidates

/-- A row is the parent's row and the slot itself. -/
def visibilityRow (len : ℕ) (rows : List (List Bool)) (parentSlot : ℕ) : List Bool :=
  (List.range len).map fun j =>
    if j < rows.length then ((rows[parentSlot]?).bind fun row => row[j]?).getD false else decide (j = rows.length)

def visibilityRows (len : ℕ) : List (DdNode W) → List (List Bool) → List (List Bool)
  | [], rows => rows
  | node :: nodes, rows => visibilityRows len nodes (rows ++ [visibilityRow len rows (slotOf node.parentIndex)])

def visibilityOf (nodes : List (DdNode W)) : List (List Bool) :=
  visibilityRows (1 + nodes.length) nodes [(List.range (1 + nodes.length)).map fun j => decide (j = 0)]

/-- Room for the nodes, of 16 bytes, and for the child maps, of 48: a vector of more than `isize::MAX` bytes panics. -/
def Reservable (maxNodes : ℕ) : Prop := maxNodes * 16 ≤ 2 ^ 63 - 1 ∧ (maxNodes + 1) * 48 ≤ 2 ^ 63 - 1

instance (maxNodes : ℕ) : Decidable (Reservable maxNodes) := inferInstanceAs (Decidable (_ ∧ _))

def buildDdtreeTreeBounded (pop : List (HeapEntry W) → Option (HeapEntry W × List (HeapEntry W)))
    (c : Candidates W) (minNodes maxNodes : ℕ) (logwCutoff : W) : Option (DdTree W) :=
  if maxNodes = 0 ∨ c.depth = 0 then some ⟨[], [[true]], [noChildren]⟩
  else if c.topTokens.length ≠ c.depth * c.topk ∨ c.topLogProbs.length ≠ c.depth * c.topk then none
  else do
    let firstLogw ← c.topLogProbs[0]?
    guard (Reservable maxNodes)
    let s ← c.expand pop minNodes logwCutoff maxNodes
      ⟨[⟨-firstLogw, 0, 1, 0, -1, firstLogw⟩], 1, [], [noChildren]⟩
    some ⟨s.nodes, visibilityOf s.nodes, s.childMaps⟩

end Build

/-- The walk from a slot with the target's token there; every step goes to a later slot. -/
def followFrom (tree : DdTree W) (posterior : List Token) : ℕ → ℕ → Token → List ℕ → Option (List ℕ × Token)
  | 0, _, _, _ => none
  | fuel + 1, currentSlot, nextToken, accepted => do
    let children ← tree.childMaps[currentSlot]?
    match children nextToken with
    | none => some (accepted, nextToken)
    | some child =>
      let accepted := accepted ++ [child]
      let currentSlot := child + 1
      if posterior.length ≤ currentSlot then some (accepted, nextToken)
      else do
        let nextToken ← posterior[currentSlot]?
        followFrom tree posterior fuel currentSlot nextToken accepted

def followVerifiedTree (tree : DdTree W) (posterior : List Token) : Option (List ℕ × Token) := do
  let nextToken ← posterior[0]?
  followFrom tree posterior (posterior.length + 1) 0 nextToken []

/-- The additive attention bias of one key. -/
inductive Bias where
  | zero
  | negInfinity
  deriving DecidableEq, Repr

/-- Two's complement, 32 bits. -/
def asI32 (n : ℤ) : ℤ := (n + 2 ^ 31) % 2 ^ 32 - 2 ^ 31

structure Linearized where
  tokens : List Token
  positions : List ℤ
  maskBlock : List Bias
  parentIndices : List ℤ
  deriving DecidableEq, Repr

def linearizeTreeWithParents (tree : DdTree W) (seedToken : Token) (basePos : UInt32) : Linearized where
  tokens := seedToken :: tree.nodes.map fun node => node.token
  positions := asI32 basePos.toNat :: tree.nodes.map fun node => asI32 (asI32 basePos.toNat + asI32 node.depth)
  maskBlock := tree.visibility.flatMap fun row => row.map fun visible => if visible then .zero else .negInfinity
  parentIndices := -1 :: tree.nodes.map fun node => if node.parentIndex < 0 then 0 else node.parentIndex + 1

end Hipscope.Spec

/-! What the construction of a draft tree keeps, whatever entry the heap hands out:
one pending entry for every parent, behind the siblings that are already placed. -/
namespace Hipscope.Spec
open Hipscope.Graph
variable {W : Type}

/-- The tables have a full row for every position. -/
structure Candidates.Sized (c : Candidates W) : Prop where
  tokens : c.topTokens.length = c.depth * c.topk
  logProbs : c.topLogProbs.length = c.depth * c.topk

/-- The candidates of one position are pairwise distinct. -/
def Candidates.Distinct (c : Candidates W) : Prop :=
  ∀ ⦃d r r' : ℕ⦄ ⦃token : Token⦄, d < c.depth → r < c.topk → r' < c.topk →
    c.topTokens[d * c.topk + r]? = some token → c.topTokens[d * c.topk + r']? = some token → r = r'

def parentsOf (nodes : List (DdNode W)) : List ℕ := nodes.map fun node => slotOf node.parentIndex

def depthOf (nodes : List (DdNode W)) : ℕ → Option ℕ
  | 0 => some 0
  | i + 1 => (nodes[i]?).map fun node => node.depth

/-- Nodes and child maps describe one tree in topological order. -/
structure Grown (nodes : List (DdNode W)) (childMaps : List (Token → Option ℕ)) : Prop where
  order : ∀ ⦃i : ℕ⦄ ⦃node : DdNode W⦄, nodes[i]? = some node → slotOf node.parentIndex ≤ i
  depth : ∀ ⦃i : ℕ⦄ ⦃node : DdNode W⦄, nodes[i]? = some node →
    ∃ d, depthOf nodes (slotOf node.parentIndex) = some d ∧ node.depth = d + 1
  maps_length : childMaps.length = nodes.length + 1
  maps : ∀ ⦃slot : ℕ⦄ ⦃children : Token → Option ℕ⦄, childMaps[slot]? = some children → ∀ token i,
    children token = some i ↔ ∃ node, nodes[i]? = some node ∧ slotOf node.parentIndex = slot ∧ node.token = token

/-- The entries still in the heap. -/
structure Pending (c : Candidates W) (nodes : List (DdNode W)) (heap : List (HeapEntry W)) : Prop where
  slots : (heap.map fun entry => slotOf entry.parentIndex).Nodup
  inside : ∀ entry ∈ heap, entry.depth ≤ c.depth ∧ entry.rank < c.topk
  depth : ∀ entry ∈ heap, ∃ d, depthOf nodes (slotOf entry.parentIndex) = some d ∧ entry.depth = d + 1
  siblings : ∀ entry ∈ heap, ∀ ⦃i : ℕ⦄ ⦃node : DdNode W⦄, nodes[i]? = some node →
    slotOf node.parentIndex = slotOf entry.parentIndex →
    ∃ r < entry.rank, c.topTokens[(entry.depth - 1) * c.topk + r]? = some node.token

section Nodes
variable {nodes : List (DdNode W)} {node : DdNode W}

private theorem depthOf_append {slot d : ℕ} (h : depthOf nodes slot = some d) (node : DdNode W) :
    depthOf (nodes ++ [node]) slot = some d := by
  cases slot with
  | zero => exact h
  | succ i =>
    obtain ⟨old, hold, hd⟩ := Option.map_eq_some_iff.mp h
    have hi := (List.getElem?_eq_some_iff.mp hold).1
    rw [depthOf, List.getElem?_append_left hi, hold]
    exact congrArg some hd

private theorem le_of_depthOf {slot d : ℕ} (h : depthOf nodes slot = some d) : slot ≤ nodes.length := by
  cases slot with
  | zero => exact Nat.zero_le _
  | succ i =>
    obtain ⟨old, hold, -⟩ := Option.map_eq_some_iff.mp h
    exact (List.getElem?_eq_some_iff.mp hold).1

/-- A node of the longer list is an old one or the new one. -/
private theorem getElem?_snoc {i : ℕ} {found : DdNode W} :
    (nodes ++ [node])[i]? = some found ↔ nodes[i]? = some found ∨ (i = nodes.length ∧ found = node) := by
  rw [List.getElem?_append]
  split_ifs with hi
  · constructor
    · exact .inl
    · rintro (h | ⟨rfl, -⟩)
      · exact h
      · exact absurd hi (Nat.lt_irrefl _)
  · rw [List.getElem?_singleton]
    split_ifs with heq
    · constructor
      · intro h
        exact .inr ⟨by omega, (Option.some.inj h).symm⟩
      · rintro (h | ⟨-, rfl⟩)
        · exact absurd (List.getElem?_eq_some_iff.mp h).1 hi
        · rfl
    · constructor
      · intro h
        cases h
      · rintro (h | ⟨rfl, -⟩)
        · exact absurd (List.getElem?_eq_some_iff.mp h).1 hi
        · omega

end Nodes

section Grow
variable {nodes : List (DdNode W)} {childMaps : List (Token → Option ℕ)} {node : DdNode W}

/-- A slot that is still to come has no children. -/
private theorem Grown.maps_extended (h : Grown nodes childMaps) {slot : ℕ} {children : Token → Option ℕ}
    (hchildren : (childMaps ++ [noChildren])[slot]? = some children) (token : Token) (i : ℕ) :
    children token = some i ↔ ∃ old, nodes[i]? = some old ∧ slotOf old.parentIndex = slot ∧ old.token = token := by
  rw [List.getElem?_append] at hchildren
  split_ifs at hchildren with hslot
  · exact h.maps hchildren token i
  · rw [List.getElem?_singleton] at hchildren
    split_ifs at hchildren
    obtain rfl := (Option.some.inj hchildren).symm
    constructor
    · intro hnone
      cases hnone
    · rintro ⟨old, hold, rfl, -⟩
      have horder := h.order hold
      have hi := (List.getElem?_eq_some_iff.mp hold).1
      rw [h.maps_length] at hslot
      omega

private theorem Grown.snoc (h : Grown nodes childMaps) {d : ℕ} (hparent : depthOf nodes (slotOf node.parentIndex) = some d)
    (hdepth : node.depth = d + 1) {children : Token → Option ℕ}
    (hchildren : (childMaps ++ [noChildren])[slotOf node.parentIndex]? = some children)
    (hfresh : ∀ ⦃i : ℕ⦄ ⦃old : DdNode W⦄, nodes[i]? = some old → slotOf old.parentIndex = slotOf node.parentIndex →
      old.token ≠ node.token) :
    Grown (nodes ++ [node]) ((childMaps ++ [noChildren]).set (slotOf node.parentIndex)
      (Function.update children node.token (some nodes.length))) := by
  have hslot := le_of_depthOf hparent
  refine ⟨?_, ?_, ?_, ?_⟩
  · intro i found hfound
    rcases getElem?_snoc.mp hfound with hold | ⟨rfl, rfl⟩
    · exact h.order hold
    · exact hslot
  · intro i found hfound
    rcases getElem?_snoc.mp hfound with hold | ⟨rfl, rfl⟩
    · obtain ⟨d', hd', hnode⟩ := h.depth hold
      exact ⟨d', depthOf_append hd' node, hnode⟩
    · exact ⟨d, depthOf_append hparent _, hdepth⟩
  · rw [List.length_set, List.length_append, List.length_append, h.maps_length]
    rfl
  · intro slot map hmap token i
    simp only [getElem?_snoc, or_and_right, exists_or]
    rw [List.getElem?_set] at hmap
    split_ifs at hmap with hself hin
    · -- the parent's map
      obtain rfl := (Option.some.inj hmap).symm
      subst hself
      rw [Function.update_apply]
      split_ifs with htoken
      · constructor
        · intro hi
          cases hi
          exact .inr ⟨node, ⟨rfl, rfl⟩, rfl, htoken.symm⟩
        · rintro (⟨old, hold, hsame, hequal⟩ | ⟨_, ⟨rfl, rfl⟩, -, -⟩)
          · exact absurd (hequal.trans htoken) (hfresh hold hsame)
          · rfl
      · rw [h.maps_extended hchildren]
        constructor
        · exact .inl
        · rintro (hold | ⟨_, ⟨rfl, rfl⟩, -, hequal⟩)
          · exact hold
          · exact absurd hequal.symm htoken
    · rw [h.maps_extended hmap]
      constructor
      · exact .inl
      · rintro (hold | ⟨_, ⟨rfl, rfl⟩, hsame, -⟩)
        · exact hold
        · exact absurd hsame hself

end Grow

section Heap
variable {c : Candidates W} {nodes : List (DdNode W)} {heap heap' : List (HeapEntry W)} {entry : HeapEntry W}
  {node : DdNode W}

private theorem Pending.perm (h : Pending c nodes heap) (hperm : heap.Perm heap') : Pending c nodes heap' where
  slots := (hperm.map _).nodup_iff.mp h.slots
  inside entry hentry := h.inside entry (hperm.mem_iff.mpr hentry)
  depth entry hentry := h.depth entry (hperm.mem_iff.mpr hentry)
  siblings entry hentry := h.siblings entry (hperm.mem_iff.mpr hentry)

/-- Without the popped entry, and with its node. -/
private theorem Pending.popped (h : Pending c nodes (entry :: heap)) (hslot : node.parentIndex = entry.parentIndex) :
    Pending c (nodes ++ [node]) heap where
  slots := (List.nodup_cons.mp h.slots).2
  inside other hother := h.inside other (List.mem_cons_of_mem entry hother)
  depth other hother := by
    obtain ⟨d, hd, hdepth⟩ := h.depth other (List.mem_cons_of_mem entry hother)
    exact ⟨d, depthOf_append hd node, hdepth⟩
  siblings other hother i found hfound hsame := by
    rcases getElem?_snoc.mp hfound with hold | ⟨rfl, rfl⟩
    · exact h.siblings other (List.mem_cons_of_mem entry hother) hold hsame
    · have habsent := (List.nodup_cons.mp h.slots).1
      rw [hslot] at hsame
      exact absurd (List.mem_map.mpr ⟨other, hother, hsame.symm⟩) habsent

private theorem Pending.push (h : Pending c nodes heap)
    (hslot : ∀ other ∈ heap, slotOf other.parentIndex ≠ slotOf entry.parentIndex)
    (hinside : entry.depth ≤ c.depth ∧ entry.rank < c.topk)
    (hdepth : ∃ d, depthOf nodes (slotOf entry.parentIndex) = some d ∧ entry.depth = d + 1)
    (hsiblings : ∀ ⦃i : ℕ⦄ ⦃node : DdNode W⦄, nodes[i]? = some node → slotOf node.parentIndex = slotOf entry.parentIndex →
      ∃ r < entry.rank, c.topTokens[(entry.depth - 1) * c.topk + r]? = some node.token) :
    Pending c nodes (entry :: heap) where
  slots := by
    refine List.nodup_cons.mpr ⟨?_, h.slots⟩
    intro hmem
    obtain ⟨other, hother, hsame⟩ := List.mem_map.mp hmem
    exact hslot other hother hsame
  inside := List.forall_mem_cons.mpr ⟨hinside, h.inside⟩
  depth := List.forall_mem_cons.mpr ⟨hdepth, h.depth⟩
  siblings := List.forall_mem_cons.mpr ⟨hsiblings, h.siblings⟩

theorem Candidates.index_lt (c : Candidates W) {d r : ℕ} (hd : d < c.depth) (hr : r < c.topk) :
    d * c.topk + r < c.depth * c.topk :=
  calc
    d * c.topk + r < d * c.topk + c.topk := Nat.add_lt_add_left hr _
    _ = (d + 1) * c.topk := (Nat.succ_mul d c.topk).symm
    _ ≤ c.depth * c.topk := Nat.mul_le_mul_right _ hd

private theorem logProb_isSome (hsized : c.Sized) {d r : ℕ} (hd : d < c.depth) (hr : r < c.topk) :
    ∃ weight, c.topLogProbs[d * c.topk + r]? = some weight :=
  ⟨_, List.getElem?_eq_getElem (by rw [hsized.logProbs]; exact c.index_lt hd hr)⟩

end Heap

section Place
variable [Add W] [Sub W] [Neg W] {c : Candidates W} {s : Growth W} {entry : HeapEntry W} {heap : List (HeapEntry W)}

/-- The sibling takes the popped entry's place. -/
private theorem pushSibling_spec (hsized : c.Sized) (hentry : 1 ≤ entry.depth ∧ entry.depth ≤ c.depth ∧ entry.rank < c.topk)
    {nodes : List (DdNode W)} (h : Pending c nodes heap) (counter : ℕ)
    (hslot : ∀ other ∈ heap, slotOf other.parentIndex ≠ slotOf entry.parentIndex)
    (hdepth : ∃ d, depthOf nodes (slotOf entry.parentIndex) = some d ∧ entry.depth = d + 1)
    (hsiblings : ∀ ⦃i : ℕ⦄ ⦃node : DdNode W⦄, nodes[i]? = some node → slotOf node.parentIndex = slotOf entry.parentIndex →
      ∃ r < entry.rank + 1, c.topTokens[(entry.depth - 1) * c.topk + r]? = some node.token)
    {bound : ℕ} (hbound : ∀ other ∈ heap, slotOf other.parentIndex ≤ bound) (hself : slotOf entry.parentIndex ≤ bound) :
    ∃ heap' counter', c.pushSibling entry heap counter = some (heap', counter') ∧ Pending c nodes heap' ∧
      ∀ other ∈ heap', slotOf other.parentIndex ≤ bound := by
  rw [Candidates.pushSibling]
  split_ifs with hrank
  · obtain ⟨own, hown⟩ := logProb_isSome hsized (Nat.sub_one_lt_of_le hentry.1 hentry.2.1) hentry.2.2
    obtain ⟨next, hnext⟩ := logProb_isSome hsized (Nat.sub_one_lt_of_le hentry.1 hentry.2.1) hrank
    rw [hown, hnext]
    refine ⟨_, _, rfl, h.push hslot ⟨hentry.2.1, hrank⟩ hdepth hsiblings, ?_⟩
    exact List.forall_mem_cons.mpr ⟨hself, hbound⟩
  · exact ⟨heap, counter, rfl, h, hbound⟩

omit [Sub W] in
/-- The first child hangs below a slot that no entry names yet. -/
private theorem pushChild_spec (entry : HeapEntry W) (hsized : c.Sized) (htopk : 0 < c.topk) {nodes : List (DdNode W)}
    {currentIndex : ℕ}
    (h : Pending c nodes heap) (counter : ℕ) (hbound : ∀ other ∈ heap, slotOf other.parentIndex ≤ currentIndex)
    (hdepth : depthOf nodes (currentIndex + 1) = some entry.depth)
    (hchildless : ∀ ⦃i : ℕ⦄ ⦃node : DdNode W⦄, nodes[i]? = some node → slotOf node.parentIndex ≠ currentIndex + 1) :
    ∃ heap' counter', c.pushChild entry currentIndex heap counter = some (heap', counter') ∧ Pending c nodes heap' := by
  have hslot : slotOf (currentIndex : ℤ) = currentIndex + 1 := by
    rw [slotOf, if_neg (by omega), Int.toNat_natCast]
  rw [Candidates.pushChild]
  split_ifs with hdeeper
  · obtain ⟨own, hown⟩ := logProb_isSome hsized hdeeper htopk
    rw [hown]
    refine ⟨_, _, rfl, h.push ?_ ⟨hdeeper, htopk⟩ ⟨entry.depth, by rw [hslot]; exact hdepth, rfl⟩ ?_⟩
    · intro other hother hsame
      have := hbound other hother
      rw [hsame, hslot] at this
      omega
    · intro i node hnode hsame
      rw [hslot] at hsame
      exact absurd hsame (hchildless hnode)
  · exact ⟨heap, counter, rfl, h⟩

/-- One node more. -/
private theorem place_spec (hsized : c.Sized) (hdistinct : c.Distinct) (hgrown : Grown s.nodes s.childMaps)
    (hpending : Pending c s.nodes (entry :: heap)) :
    ∃ next, c.place s entry heap = some next ∧ Grown next.nodes next.childMaps ∧ Pending c next.nodes next.heap := by
  obtain ⟨hdeep, hrank⟩ := hpending.inside entry List.mem_cons_self
  obtain ⟨d, hparent, hdepth⟩ := hpending.depth entry List.mem_cons_self
  have hd : entry.depth - 1 < c.depth := by omega
  have hslot := le_of_depthOf hparent
  obtain ⟨token, htoken⟩ : ∃ token, c.topTokens[(entry.depth - 1) * c.topk + entry.rank]? = some token :=
    ⟨_, List.getElem?_eq_getElem (by rw [hsized.tokens]; exact c.index_lt hd hrank)⟩
  obtain ⟨children, hchildren⟩ : ∃ children, (s.childMaps ++ [noChildren])[slotOf entry.parentIndex]? = some children :=
    ⟨_, List.getElem?_eq_getElem (by rw [List.length_append, hgrown.maps_length]; omega)⟩
  have hfresh : ∀ ⦃i : ℕ⦄ ⦃old : DdNode W⦄, s.nodes[i]? = some old →
      slotOf old.parentIndex = slotOf entry.parentIndex → old.token ≠ token := by
    intro i old hold hsame hequal
    obtain ⟨r, hr, hfound⟩ := hpending.siblings entry List.mem_cons_self hold hsame
    rw [hequal] at hfound
    have := hdistinct hd (hr.trans hrank) hrank hfound htoken
    omega
  set node : DdNode W := ⟨token, entry.depth, entry.parentIndex, entry.logw⟩
  have hgrown' : Grown (s.nodes ++ [node]) ((s.childMaps ++ [noChildren]).set (slotOf entry.parentIndex)
      (Function.update children token (some s.nodes.length))) := hgrown.snoc hparent hdepth hchildren hfresh
  have hpopped : Pending c (s.nodes ++ [node]) heap := hpending.popped rfl
  have habsent : ∀ other ∈ heap, slotOf other.parentIndex ≠ slotOf entry.parentIndex := by
    intro other hother hsame
    exact (List.nodup_cons.mp hpending.slots).1 (List.mem_map.mpr ⟨other, hother, hsame⟩)
  have hbound : ∀ other ∈ heap, slotOf other.parentIndex ≤ s.nodes.length := by
    intro other hother
    obtain ⟨d', hd', -⟩ := hpending.depth other (List.mem_cons_of_mem entry hother)
    exact le_of_depthOf hd'
  have hplaced : ∀ ⦃i : ℕ⦄ ⦃old : DdNode W⦄, (s.nodes ++ [node])[i]? = some old →
      slotOf old.parentIndex = slotOf entry.parentIndex →
      ∃ r < entry.rank + 1, c.topTokens[(entry.depth - 1) * c.topk + r]? = some old.token := by
    intro i old hold hsame
    rcases getElem?_snoc.mp hold with hold | ⟨rfl, rfl⟩
    · obtain ⟨r, hr, hfound⟩ := hpending.siblings entry List.mem_cons_self hold hsame
      exact ⟨r, hr.trans (Nat.lt_succ_self _), hfound⟩
    · exact ⟨entry.rank, Nat.lt_succ_self _, htoken⟩
  obtain ⟨heap₁, counter₁, hsibling, hpending₁, hbound₁⟩ := pushSibling_spec hsized ⟨by omega, hdeep, hrank⟩ hpopped
    s.pushCounter habsent ⟨d, depthOf_append hparent node, hdepth⟩ hplaced hbound hslot
  have hchildless : ∀ ⦃i : ℕ⦄ ⦃old : DdNode W⦄, (s.nodes ++ [node])[i]? = some old →
      slotOf old.parentIndex ≠ s.nodes.length + 1 := by
    intro i old hold hsame
    have horder := hgrown'.order hold
    have hi := (List.getElem?_eq_some_iff.mp hold).1
    rw [List.length_append, List.length_singleton] at hi
    omega
  obtain ⟨heap₂, counter₂, hchild, hpending₂⟩ := pushChild_spec entry hsized (by omega) hpending₁ counter₁ hbound₁
    (by rw [depthOf, List.getElem?_append_right (Nat.le_refl _), Nat.sub_self]; rfl) hchildless
  refine ⟨⟨heap₂, counter₂, s.nodes ++ [node], _⟩, ?_, hgrown', hpending₂⟩
  simp only [Candidates.place, htoken, hchildren, hsibling, hchild, Option.bind_eq_bind, Option.bind_some]
  rfl

end Place

section Build
variable [Add W] [Sub W] [Neg W] [LT W] [DecidableLT W] {c : Candidates W}
  {pop : List (HeapEntry W) → Option (HeapEntry W × List (HeapEntry W))}

private theorem expand_spec (hsized : c.Sized) (hdistinct : c.Distinct) (hpop : LawfulPop pop) (minNodes : ℕ)
    (logwCutoff : W) (room : ℕ) {s : Growth W} (hgrown : Grown s.nodes s.childMaps) (hpending : Pending c s.nodes s.heap) :
    ∃ final, c.expand pop minNodes logwCutoff room s = some final ∧ Grown final.nodes final.childMaps := by
  induction room generalizing s with
  | zero => exact ⟨s, rfl, hgrown⟩
  | succ room ih =>
    rw [Candidates.expand]
    by_cases hempty : s.heap = []
    · rw [hempty, hpop.empty]
      exact ⟨s, rfl, hgrown⟩
    · obtain ⟨entry, heap, hpopped, hperm⟩ := hpop.perm s.heap hempty
      rw [hpopped]
      dsimp only
      split_ifs
      · exact ⟨s, rfl, hgrown⟩
      · obtain ⟨next, hplace, hgrown', hpending'⟩ := place_spec hsized hdistinct hgrown (hpending.perm hperm)
        rw [hplace]
        exact ih hgrown' hpending'

/-- Full rows of distinct candidates give a tree. -/
theorem build_spec (hdistinct : c.Distinct) (hpop : LawfulPop pop) {minNodes maxNodes : ℕ} {logwCutoff : W} {tree : DdTree W}
    (hbuild : buildDdtreeTreeBounded pop c minNodes maxNodes logwCutoff = some tree) :
    Grown tree.nodes tree.childMaps ∧ tree.visibility = visibilityOf tree.nodes := by
  have hleaf : Grown ([] : List (DdNode W)) [noChildren] := by
    refine ⟨by simp, by simp, rfl, ?_⟩
    intro slot children hchildren token i
    rw [List.getElem?_singleton] at hchildren
    split_ifs at hchildren
    obtain rfl := (Option.some.inj hchildren).symm
    simp [noChildren]
  rw [buildDdtreeTreeBounded] at hbuild
  split_ifs at hbuild with hnone hsize
  · cases hbuild
    exact ⟨hleaf, rfl⟩
  · obtain ⟨htokens, hprobs⟩ := not_or.mp hsize
    have hsized : c.Sized := ⟨not_not.mp htokens, not_not.mp hprobs⟩
    obtain ⟨-, hdepth⟩ := not_or.mp hnone
    simp only [Option.bind_eq_bind, Option.bind_eq_some_iff, Option.some.injEq] at hbuild
    obtain ⟨firstLogw, hfirst, -, -, final, hexpand, rfl⟩ := hbuild
    have htopk : 0 < c.topk := by
      have hpos := (List.getElem?_eq_some_iff.mp hfirst).1
      rw [hsized.logProbs] at hpos
      exact Nat.pos_of_mul_pos_left hpos
    have hstart : Pending c ([] : List (DdNode W)) [⟨-firstLogw, 0, 1, 0, -1, firstLogw⟩] := by
      refine ⟨by simp, ?_, ?_, ?_⟩
      · simp only [List.mem_singleton, forall_eq]
        exact ⟨Nat.pos_of_ne_zero hdepth, htopk⟩
      · simp only [List.mem_singleton, forall_eq]
        exact ⟨0, rfl, rfl⟩
      · intro entry hentry i node hnode
        simp at hnode
    obtain ⟨final', hexpand', hgrown⟩ := expand_spec hsized hdistinct hpop minNodes logwCutoff maxNodes
      (s := ⟨[⟨-firstLogw, 0, 1, 0, -1, firstLogw⟩], 1, [], [noChildren]⟩) hleaf hstart
    rw [hexpand] at hexpand'
    cases hexpand'
    exact ⟨hgrown, rfl⟩

end Build

end Hipscope.Spec
