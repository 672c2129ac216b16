import Mathlib.Data.EReal.Operations
import Hipscope.Graph.BestFirst
import Hipscope.Spec.Tree

/-! The nodes of a draft tree are the heaviest paths of the candidate table, in exact arithmetic. -/
namespace Hipscope.Spec
open Hipscope.Graph

/-- A table of log-probabilities that are real, not positive and sorted in each row. -/
structure ExactTable (c : Candidates EReal) (table : List ℝ) : Prop where
  sized : c.Sized
  logProbs : c.topLogProbs = table.map fun x : ℝ => (x : EReal)
  nonpos : ∀ x ∈ table, x ≤ 0
  sorted : ∀ ⦃d r : ℕ⦄ ⦃x y : ℝ⦄, d < c.depth → r + 1 < c.topk → table[d * c.topk + r]? = some x →
    table[d * c.topk + (r + 1)]? = some y → y ≤ x

/-- A candidate path, as the ranks from its end up to the root. -/
def IsPath (depth topk : ℕ) (path : List ℕ) : Prop := path ≠ [] ∧ path.length ≤ depth ∧ ∀ r ∈ path, r < topk

def rowWeight (table : List ℝ) (topk d r : ℕ) : ℝ := table[d * topk + r]?.getD 0

def pathWeight (table : List ℝ) (topk : ℕ) : List ℕ → ℝ
  | [] => 0
  | r :: up => pathWeight table topk up + rowWeight table topk up.length r

/-- The better-ranked sibling, or the parent, brings a path up. -/
def nextPaths (depth topk : ℕ) : List ℕ → List (List ℕ)
  | [] => []
  | r :: up =>
    (if r + 1 < topk then [(r + 1) :: up] else []) ++ if up.length + 1 < depth then [0 :: r :: up] else []

section Paths
variable {depth topk r : ℕ} {path up : List ℕ}

theorem mem_nextPaths {a b : List ℕ} : b ∈ nextPaths depth topk a ↔
    ∃ r up, a = r :: up ∧ ((r + 1 < topk ∧ b = (r + 1) :: up) ∨ (up.length + 1 < depth ∧ b = 0 :: r :: up)) := by
  cases a with
  | nil =>
    refine ⟨fun h => absurd h List.not_mem_nil, fun h => ?_⟩
    obtain ⟨_, _, h, _⟩ := h
    cases h
  | cons r up =>
    rw [nextPaths, List.mem_append]
    constructor
    · rintro (h | h)
      · split at h
        · next hr => exact ⟨r, up, rfl, .inl ⟨hr, List.mem_singleton.1 h⟩⟩
        · exact absurd h List.not_mem_nil
      · split at h
        · next hd => exact ⟨r, up, rfl, .inr ⟨hd, List.mem_singleton.1 h⟩⟩
        · exact absurd h List.not_mem_nil
    · rintro ⟨r', up', h, hnext⟩
      cases h
      rcases hnext with ⟨hr, rfl⟩ | ⟨hd, rfl⟩
      · rw [if_pos hr]
        exact .inl (List.mem_singleton_self _)
      · rw [if_pos hd]
        exact .inr (List.mem_singleton_self _)

/-- The paths, generated from the best first candidate. -/
def expansion (depth topk : ℕ) : Expansion (List ℕ) where
  root := [0]
  next := nextPaths depth topk
  root_fresh a h := by
    obtain ⟨r, up, -, ⟨-, h⟩ | ⟨-, h⟩⟩ := mem_nextPaths.1 h <;> cases h
  unique a b c ha hb := by
    obtain ⟨r, up, rfl, ⟨-, rfl⟩ | ⟨-, rfl⟩⟩ := mem_nextPaths.1 ha <;>
      obtain ⟨r', up', rfl, ⟨-, h⟩ | ⟨-, h⟩⟩ := mem_nextPaths.1 hb <;> cases h <;> rfl
  nodup a := by
    cases a with
    | nil => exact List.nodup_nil
    | cons r up =>
      rw [nextPaths]
      split <;> split <;> simp

theorem isPath_root (hdepth : 0 < depth) (htopk : 0 < topk) : IsPath depth topk [0] := by
  refine ⟨List.cons_ne_nil _ _, hdepth, fun r hr => ?_⟩
  rw [List.mem_singleton.1 hr]
  exact htopk

theorem IsPath.next {a b : List ℕ} (h : IsPath depth topk a) (hb : b ∈ nextPaths depth topk a) : IsPath depth topk b := by
  obtain ⟨-, hlen, hall⟩ := h
  obtain ⟨r, up, rfl, ⟨hr, rfl⟩ | ⟨hd, rfl⟩⟩ := mem_nextPaths.1 hb
  · refine ⟨List.cons_ne_nil _ _, hlen, fun x hx => ?_⟩
    rcases List.mem_cons.1 hx with rfl | hx
    · exact hr
    · exact hall x (List.mem_cons_of_mem _ hx)
  · refine ⟨List.cons_ne_nil _ _, hd, fun x hx => ?_⟩
    rcases List.mem_cons.1 hx with rfl | hx
    · exact Nat.lt_of_le_of_lt (Nat.zero_le r) (hall r (List.mem_cons_self ..))
    · exact hall x hx

/-- Every candidate path is generated, siblings by rank and paths by length. -/
theorem reachable_iff (hdepth : 0 < depth) (htopk : 0 < topk) :
    (expansion depth topk).Reachable path ↔ IsPath depth topk path := by
  constructor
  · intro h
    induction h with
    | refl => exact isPath_root hdepth htopk
    | tail _ hstep ih => exact ih.next hstep
  · intro h
    induction path with
    | nil => exact absurd rfl h.1
    | cons r up ih =>
      obtain ⟨-, hlen, hall⟩ := h
      rw [List.length_cons] at hlen
      have hfirst : (expansion depth topk).Reachable (0 :: up) := by
        cases up with
        | nil => exact Relation.ReflTransGen.refl
        | cons r' up' =>
          have hup := ih ⟨List.cons_ne_nil _ _, by omega, fun x hx => hall x (List.mem_cons_of_mem _ hx)⟩
          exact hup.tail (mem_nextPaths.2 ⟨r', up', rfl, .inr ⟨hlen, rfl⟩⟩)
      have hr := hall r (List.mem_cons_self ..)
      clear ih hall
      induction r with
      | zero => exact hfirst
      | succ r ih => exact (ih (Nat.lt_of_succ_lt hr)).tail (mem_nextPaths.2 ⟨r, up, rfl, .inl ⟨hr, rfl⟩⟩)

/-- The paths of one length. -/
def pathsOfLength (topk : ℕ) : ℕ → List (List ℕ)
  | 0 => [[]]
  | k + 1 => (pathsOfLength topk k).flatMap fun up => (List.range topk).map fun r => r :: up

def allPaths (depth topk : ℕ) : List (List ℕ) := (List.range depth).flatMap fun d => pathsOfLength topk (d + 1)

/-- The number of candidate paths. -/
def pathCount (depth topk : ℕ) : ℕ := ((List.range depth).map fun d => topk ^ (d + 1)).sum

theorem mem_pathsOfLength {k : ℕ} : path ∈ pathsOfLength topk k ↔ path.length = k ∧ ∀ r ∈ path, r < topk := by
  induction k generalizing path with
  | zero =>
    rw [pathsOfLength, List.mem_singleton, List.length_eq_zero_iff]
    exact ⟨fun h => ⟨h, fun r hr => absurd (h ▸ hr) List.not_mem_nil⟩, fun h => h.1⟩
  | succ k ih =>
    rw [pathsOfLength, List.mem_flatMap]
    constructor
    · rintro ⟨up, hup, hpath⟩
      obtain ⟨r, hr, rfl⟩ := List.mem_map.1 hpath
      obtain ⟨hlen, hall⟩ := ih.1 hup
      refine ⟨by rw [List.length_cons, hlen], fun x hx => ?_⟩
      rcases List.mem_cons.1 hx with rfl | hx
      · exact List.mem_range.1 hr
      · exact hall x hx
    · rintro ⟨hlen, hall⟩
      obtain ⟨r, up, rfl⟩ := List.exists_cons_of_length_eq_add_one hlen
      refine ⟨up, ih.2 ⟨Nat.succ.inj hlen, fun x hx => hall x (List.mem_cons_of_mem _ hx)⟩, List.mem_map.2 ⟨r, ?_, rfl⟩⟩
      exact List.mem_range.2 (hall r (List.mem_cons_self ..))

theorem length_pathsOfLength (topk k : ℕ) : (pathsOfLength topk k).length = topk ^ k := by
  induction k with
  | zero => rfl
  | succ k ih => simp [pathsOfLength, ih, pow_succ]

theorem nodup_pathsOfLength (topk k : ℕ) : (pathsOfLength topk k).Nodup := by
  induction k with
  | zero => exact List.nodup_singleton _
  | succ k ih =>
    rw [pathsOfLength, List.nodup_flatMap]
    refine ⟨fun up _ => List.nodup_range.map fun a b h => (List.cons.inj h).1, ?_⟩
    refine ih.imp fun hne => List.disjoint_left.2 fun x hx hy => hne ?_
    obtain ⟨r, -, rfl⟩ := List.mem_map.1 hx
    obtain ⟨r', -, h⟩ := List.mem_map.1 hy
    exact (List.cons.inj h).2.symm

theorem mem_allPaths : path ∈ allPaths depth topk ↔ IsPath depth topk path := by
  rw [allPaths, List.mem_flatMap]
  constructor
  · rintro ⟨d, hd, hpath⟩
    obtain ⟨hlen, hall⟩ := mem_pathsOfLength.1 hpath
    have := List.mem_range.1 hd
    exact ⟨List.ne_nil_of_length_eq_add_one hlen, by omega, hall⟩
  · rintro ⟨hne, hlen, hall⟩
    obtain ⟨r, up, rfl⟩ := List.exists_cons_of_ne_nil hne
    exact ⟨up.length, List.mem_range.2 hlen, mem_pathsOfLength.2 ⟨rfl, hall⟩⟩

theorem length_allPaths (depth topk : ℕ) : (allPaths depth topk).length = pathCount depth topk := by
  rw [allPaths, List.length_flatMap, pathCount]
  simp only [length_pathsOfLength]

theorem nodup_allPaths (depth topk : ℕ) : (allPaths depth topk).Nodup := by
  rw [allPaths, List.nodup_flatMap]
  refine ⟨fun d _ => nodup_pathsOfLength _ _, List.nodup_range.imp fun hne => List.disjoint_left.2 fun x hx hy => hne ?_⟩
  have := (mem_pathsOfLength.1 hx).1
  have := (mem_pathsOfLength.1 hy).1
  omega

end Paths

section Heap
variable {W : Type} [LinearOrder W] {heap rest : List (HeapEntry W)} {entry : HeapEntry W}

/-- The popped entry has the least negated weight. -/
theorem popMax_least (h : popMax heap = some (entry, rest)) : ∀ other ∈ rest, entry.negLogw ≤ other.negLogw := by
  induction heap generalizing entry rest with
  | nil => cases h
  | cons first heap ih =>
    rw [popMax] at h
    cases hpop : popMax heap with
    | none =>
      rw [hpop] at h
      cases h
      exact fun other hother => absurd hother List.not_mem_nil
    | some popped =>
      obtain ⟨best, others⟩ := popped
      have hbest := ih hpop
      rw [hpop] at h
      simp only at h
      have hcmp : first.cmp best = .lt ↔ best.negLogw < first.negLogw ∨
          (best.negLogw = first.negLogw ∧ compare best.pushOrder first.pushOrder = .lt) := by
        rw [HeapEntry.cmp, compareWeights]
        rcases lt_trichotomy best.negLogw first.negLogw with hlt | heq | hgt
        · simp [hlt]
        · simp [heq]
        · simp [hgt, hgt.not_gt, hgt.ne']
      split at h
      · next hlt =>
        obtain ⟨hentry, hrest⟩ := Prod.mk.inj (Option.some.inj h)
        rw [← hentry, ← hrest]
        have hle : best.negLogw ≤ first.negLogw := by
          rcases hcmp.1 hlt with hlt | ⟨heq, -⟩
          · exact hlt.le
          · exact heq.le
        exact List.forall_mem_cons.2 ⟨hle, hbest⟩
      · next hnot =>
        obtain ⟨hentry, hrest⟩ := Prod.mk.inj (Option.some.inj h)
        rw [← hentry, ← hrest]
        have hle : first.negLogw ≤ best.negLogw := by
          by_contra hlt
          exact hnot (hcmp.2 (.inl (lt_of_not_ge hlt)))
        exact List.forall_mem_cons.2 ⟨hle, fun other hother => hle.trans (hbest other hother)⟩

end Heap

section Grow
variable {c : Candidates EReal} {table : List ℝ} {taken : List (List ℕ)} {s : Growth EReal}

/-- The path of the node with that index; below 0 is the root. -/
def upOf (taken : List (List ℕ)) (index : ℤ) : List ℕ := if index < 0 then [] else taken[index.toNat]?.getD []

def pathOf (taken : List (List ℕ)) (entry : HeapEntry EReal) : List ℕ := entry.rank :: upOf taken entry.parentIndex

/-- The root, or a node that is there. -/
def Inside (taken : List (List ℕ)) (index : ℤ) : Prop := index = -1 ∨ ∃ i < taken.length, index = (i : ℤ)

/-- The fields of an entry are those of its path. -/
structure EntryOf (table : List ℝ) (topk : ℕ) (taken : List (List ℕ)) (entry : HeapEntry EReal) : Prop where
  inside : Inside taken entry.parentIndex
  depth : entry.depth = (pathOf taken entry).length
  logw : entry.logw = (pathWeight table topk (pathOf taken entry) : ℝ)
  negLogw : entry.negLogw = -entry.logw

/-- The nodes are those of the taken paths, each below the node of its parent. -/
structure Names (c : Candidates EReal) (table : List ℝ) (nodes : List (DdNode EReal)) (taken : List (List ℕ)) : Prop where
  length : nodes.length = taken.length
  node : ∀ ⦃i : ℕ⦄ ⦃node : DdNode EReal⦄, nodes[i]? = some node → ∃ r up, taken[i]? = some (r :: up) ∧
    c.topTokens[up.length * c.topk + r]? = some node.token ∧ node.depth = up.length + 1 ∧
    node.logw = (pathWeight table c.topk (r :: up) : ℝ) ∧ Inside taken node.parentIndex ∧ upOf taken node.parentIndex = up

/-- The loop's variables are those of an exploration. -/
structure Mirrors (c : Candidates EReal) (table : List ℝ) (s : Growth EReal) (taken : List (List ℕ)) : Prop where
  names : Names c table s.nodes taken
  maps_length : s.childMaps.length = s.nodes.length + 1
  entries : ∀ entry ∈ s.heap, EntryOf table c.topk taken entry
  explored : (expansion c.depth c.topk).Explored (pathWeight table c.topk) taken (s.heap.map (pathOf taken))

theorem upOf_append {index : ℤ} (h : Inside taken index) (more : List (List ℕ)) :
    upOf (taken ++ more) index = upOf taken index := by
  rw [upOf, upOf]
  split
  · rfl
  · rcases h with rfl | ⟨i, hi, rfl⟩
    · exact absurd (by decide) ‹¬ (-1 : ℤ) < 0›
    · rw [Int.toNat_natCast, List.getElem?_append_left hi]

theorem Inside.append {index : ℤ} (h : Inside taken index) (more : List (List ℕ)) : Inside (taken ++ more) index := by
  rcases h with rfl | ⟨i, hi, rfl⟩
  · exact .inl rfl
  · exact .inr ⟨i, by rw [List.length_append]; omega, rfl⟩

theorem EntryOf.append {topk : ℕ} {entry : HeapEntry EReal} (h : EntryOf table topk taken entry) (more : List (List ℕ)) :
    EntryOf table topk (taken ++ more) entry ∧ pathOf (taken ++ more) entry = pathOf taken entry := by
  have hpath : pathOf (taken ++ more) entry = pathOf taken entry := by rw [pathOf, pathOf, upOf_append h.inside]
  exact ⟨⟨h.inside.append more, hpath ▸ h.depth, hpath ▸ h.logw, h.negLogw⟩, hpath⟩

theorem upOf_last (path : List ℕ) : upOf (taken ++ [path]) (taken.length : ℤ) = path := by
  rw [upOf, if_neg (by omega), Int.toNat_natCast, List.getElem?_append_right le_rfl, Nat.sub_self]
  rfl

theorem Names.snoc {nodes : List (DdNode EReal)} {node : DdNode EReal} {r : ℕ} {up : List ℕ}
    (h : Names c table nodes taken) (htoken : c.topTokens[up.length * c.topk + r]? = some node.token)
    (hdepth : node.depth = up.length + 1) (hlogw : node.logw = (pathWeight table c.topk (r :: up) : ℝ))
    (hinside : Inside taken node.parentIndex) (hup : upOf taken node.parentIndex = up) :
    Names c table (nodes ++ [node]) (taken ++ [r :: up]) where
  length := by rw [List.length_append, List.length_append, h.length]; rfl
  node i found hfound := by
    rcases Nat.lt_or_ge i nodes.length with hlt | hge
    · rw [List.getElem?_append_left hlt] at hfound
      obtain ⟨r', up', hpath, htoken', hdepth', hlogw', hinside', hup'⟩ := h.node hfound
      refine ⟨r', up', ?_, htoken', hdepth', hlogw', hinside'.append _, ?_⟩
      · rw [List.getElem?_append_left (h.length ▸ hlt), hpath]
      · rw [upOf_append hinside', hup']
    · rw [List.getElem?_append_right hge] at hfound
      have hi : i - nodes.length = 0 := by
        have := (List.getElem?_eq_some_iff.1 hfound).1
        rw [List.length_singleton] at this
        omega
      rw [hi] at hfound
      cases hfound
      refine ⟨r, up, ?_, htoken, hdepth, hlogw, hinside.append _, ?_⟩
      · rw [List.getElem?_append_right (h.length ▸ hge), ← h.length, hi]
        rfl
      · rw [upOf_append hinside, hup]

end Grow

section Table
variable {c : Candidates EReal} {table : List ℝ} {d r : ℕ}

theorem ExactTable.logProb (h : ExactTable c table) (hd : d < c.depth) (hr : r < c.topk) :
    c.topLogProbs[d * c.topk + r]? = some (rowWeight table c.topk d r : EReal) ∧
      table[d * c.topk + r]? = some (rowWeight table c.topk d r) := by
  have hlt : d * c.topk + r < table.length := by
    have hlen := h.sized.logProbs
    rw [h.logProbs, List.length_map] at hlen
    rw [hlen]
    exact c.index_lt hd hr
  have hat : table[d * c.topk + r]? = some (rowWeight table c.topk d r) := by
    rw [rowWeight, List.getElem?_eq_getElem hlt]
    rfl
  refine ⟨?_, hat⟩
  rw [h.logProbs, List.getElem?_map, hat]
  rfl

/-- A sibling of lower rank and a child are not heavier. -/
theorem ExactTable.mono (h : ExactTable c table) {a b : List ℕ} (ha : IsPath c.depth c.topk a)
    (hb : b ∈ nextPaths c.depth c.topk a) : pathWeight table c.topk b ≤ pathWeight table c.topk a := by
  obtain ⟨r, up, rfl, ⟨hr, rfl⟩ | ⟨hd, rfl⟩⟩ := mem_nextPaths.1 hb
  · have hup : up.length < c.depth := ha.2.1
    have hsorted := h.sorted hup hr (h.logProb hup (Nat.lt_of_succ_lt hr)).2 (h.logProb hup hr).2
    rw [pathWeight, pathWeight]
    linarith
  · have htopk : 0 < c.topk := Nat.lt_of_le_of_lt (Nat.zero_le r) (ha.2.2 r (List.mem_cons_self ..))
    have hnonpos := h.nonpos _ (List.mem_of_getElem? (h.logProb hd htopk).2)
    rw [pathWeight]
    exact add_le_of_nonpos_right hnonpos

end Table

section Place
variable {c : Candidates EReal} {table : List ℝ} {taken : List (List ℕ)} {s : Growth EReal} {entry : HeapEntry EReal}
  {heap : List (HeapEntry EReal)}

/-- The pushed entry, if any, is that of the sibling. -/
private theorem pushSibling_best (h : ExactTable c table) (hentry : EntryOf table c.topk taken entry)
    (hpath : IsPath c.depth c.topk (pathOf taken entry)) (heap : List (HeapEntry EReal)) (counter : ℕ) :
    ∃ new counter', c.pushSibling entry heap counter = some (new ++ heap, counter') ∧
      (∀ other ∈ new, EntryOf table c.topk taken other) ∧
      new.map (pathOf taken) = if entry.rank + 1 < c.topk then [(entry.rank + 1) :: upOf taken entry.parentIndex] else [] := by
  have hup : (upOf taken entry.parentIndex).length < c.depth := hpath.2.1
  have hrow : entry.depth - 1 = (upOf taken entry.parentIndex).length := by
    rw [hentry.depth, pathOf, List.length_cons, Nat.add_sub_cancel]
  rw [Candidates.pushSibling, hrow]
  by_cases hr : entry.rank + 1 < c.topk
  · rw [if_pos hr, if_pos hr, (h.logProb hup (Nat.lt_of_succ_lt hr)).1, (h.logProb hup hr).1]
    refine ⟨[_], _, rfl, ?_, rfl⟩
    intro other hother
    rw [List.mem_singleton.1 hother]
    refine ⟨hentry.inside, hentry.depth, ?_, rfl⟩
    simp only [hentry.logw, pathOf, pathWeight, ← EReal.coe_sub, ← EReal.coe_add]
    congr 1
    ring
  · rw [if_neg hr, if_neg hr]
    exact ⟨[], counter, rfl, fun _ h => absurd h List.not_mem_nil, rfl⟩

/-- The pushed entry, if any, is that of the best child. -/
private theorem pushChild_best (h : ExactTable c table) (hentry : EntryOf table c.topk taken entry)
    (htopk : 0 < c.topk) (heap : List (HeapEntry EReal)) (counter : ℕ) :
    ∃ new counter', c.pushChild entry taken.length heap counter = some (new ++ heap, counter') ∧
      (∀ other ∈ new, EntryOf table c.topk (taken ++ [pathOf taken entry]) other) ∧
      new.map (pathOf (taken ++ [pathOf taken entry])) =
        if (upOf taken entry.parentIndex).length + 1 < c.depth then [0 :: pathOf taken entry] else [] := by
  have hdepth : entry.depth = (upOf taken entry.parentIndex).length + 1 := hentry.depth
  rw [Candidates.pushChild, hdepth]
  by_cases hd : (upOf taken entry.parentIndex).length + 1 < c.depth
  · rw [if_pos hd, if_pos hd, (h.logProb hd htopk).1]
    refine ⟨[_], _, rfl, ?_, ?_⟩
    · intro other hother
      rw [List.mem_singleton.1 hother]
      refine ⟨.inr ⟨taken.length, by rw [List.length_append]; exact Nat.lt_succ_self _, rfl⟩, ?_, ?_, rfl⟩
      · simp only [pathOf, upOf_last, List.length_cons]
      · simp only [pathOf, upOf_last, hentry.logw, pathWeight, List.length_cons, ← EReal.coe_add]
    · simp only [List.map_cons, List.map_nil, pathOf, upOf_last]
  · rw [if_neg hd, if_neg hd]
    exact ⟨[], counter, rfl, fun _ h => absurd h List.not_mem_nil, rfl⟩

/-- A round of the loop takes the heaviest path of the frontier. -/
theorem place_mirrors (h : ExactTable c table) (hdepth : 0 < c.depth) (htopk : 0 < c.topk) (hm : Mirrors c table s taken)
    (hpop : popMax s.heap = some (entry, heap)) :
    ∃ next node, c.place s entry heap = some next ∧ Mirrors c table next (taken ++ [pathOf taken entry]) ∧
      next.nodes = s.nodes ++ [node] ∧ node.logw = entry.logw := by
  have hne : s.heap ≠ [] := fun hnil => by rw [hnil] at hpop; cases hpop
  obtain ⟨entry', heap', hpop', hperm⟩ := popMax_lawful.perm s.heap hne
  rw [hpop] at hpop'
  cases hpop'
  have hentry := hm.entries entry (hperm.mem_iff.2 (List.mem_cons_self ..))
  have hothers : ∀ other ∈ heap, EntryOf table c.topk taken other := fun other hother =>
    hm.entries other (hperm.mem_iff.2 (List.mem_cons_of_mem _ hother))
  have hexplored := hm.explored.perm (hperm.map _)
  rw [List.map_cons] at hexplored
  have hpath : IsPath c.depth c.topk (pathOf taken entry) :=
    (reachable_iff hdepth htopk).1 (hexplored.reachable _ (List.mem_append_right _ (List.mem_cons_self ..)))
  have hup : (upOf taken entry.parentIndex).length < c.depth := hpath.2.1
  have hr : entry.rank < c.topk := hpath.2.2 _ (List.mem_cons_self ..)
  have hrow : entry.depth - 1 = (upOf taken entry.parentIndex).length := by
    rw [hentry.depth, pathOf, List.length_cons, Nat.add_sub_cancel]
  obtain ⟨token, htoken⟩ : ∃ token, c.topTokens[(upOf taken entry.parentIndex).length * c.topk + entry.rank]? = some token :=
    ⟨_, List.getElem?_eq_getElem (by rw [h.sized.tokens]; exact c.index_lt hup hr)⟩
  have hslot : slotOf entry.parentIndex < (s.childMaps ++ [noChildren]).length := by
    rw [List.length_append, List.length_singleton, hm.maps_length, hm.names.length]
    rcases hentry.inside with hroot | ⟨i, hi, hnode⟩
    · rw [hroot]
      exact Nat.succ_pos _
    · rw [hnode, slotOf, if_neg (by omega), Int.toNat_natCast]
      omega
  obtain ⟨children, hchildren⟩ : ∃ children, (s.childMaps ++ [noChildren])[slotOf entry.parentIndex]? = some children :=
    ⟨_, List.getElem?_eq_getElem hslot⟩
  obtain ⟨first, counter, hsibling, hfirst, hfirstPaths⟩ := pushSibling_best h hentry hpath heap s.pushCounter
  obtain ⟨second, counter', hchild, hsecond, hsecondPaths⟩ := pushChild_best h hentry htopk (first ++ heap) counter
  rw [← hm.names.length] at hchild
  refine ⟨⟨second ++ (first ++ heap), counter', s.nodes ++ [⟨token, entry.depth, entry.parentIndex, entry.logw⟩],
    (s.childMaps ++ [noChildren]).set (slotOf entry.parentIndex) (Function.update children token (some s.nodes.length))⟩,
    ⟨token, entry.depth, entry.parentIndex, entry.logw⟩, ?_, ?_, rfl, rfl⟩
  · rw [Candidates.place, hrow, htoken]
    simp only [Option.bind_eq_bind, Option.bind_some, hchildren, hsibling, hchild]
  · refine ⟨hm.names.snoc htoken hentry.depth hentry.logw hentry.inside rfl, ?_, ?_, ?_⟩
    · rw [List.length_set, List.length_append, List.length_append, hm.maps_length]
      rfl
    · intro other hother
      rcases List.mem_append.1 hother with hother | hother
      · exact hsecond other hother
      · rcases List.mem_append.1 hother with hother | hother
        · exact ((hfirst other hother).append _).1
        · exact ((hothers other hother).append _).1
    · have hmax : ∀ path ∈ heap.map (pathOf taken),
        pathWeight table c.topk path ≤ pathWeight table c.topk (pathOf taken entry) := by
        intro path hmem
        obtain ⟨other, hother, rfl⟩ := List.mem_map.1 hmem
        have hle := popMax_least hpop other hother
        rw [hentry.negLogw, (hothers other hother).negLogw, EReal.neg_le_neg_iff, hentry.logw,
          (hothers other hother).logw, EReal.coe_le_coe_iff] at hle
        exact hle
      have hstep := hexplored.step (fun a ha b hb => h.mono ((reachable_iff hdepth htopk).1 ha) hb) hmax
      refine hstep.perm ?_
      have hold : ∀ l : List (HeapEntry EReal), (∀ other ∈ l, EntryOf table c.topk taken other) →
          l.map (pathOf (taken ++ [pathOf taken entry])) = l.map (pathOf taken) := fun l hl =>
        List.map_congr_left fun other hother => ((hl other hother).append _).2
      rw [List.map_append, List.map_append, hold first hfirst, hold heap hothers, hfirstPaths, hsecondPaths]
      have hnext : (expansion c.depth c.topk).next (pathOf taken entry) =
          (if entry.rank + 1 < c.topk then [(entry.rank + 1) :: upOf taken entry.parentIndex] else []) ++
            if (upOf taken entry.parentIndex).length + 1 < c.depth then [0 :: pathOf taken entry] else [] := rfl
      rw [hnext, ← List.append_assoc]
      exact List.perm_append_comm.append_right _

end Place

section Band
variable {α : Type*} {keep : α → Prop} {minNodes : ℕ} {l kept : List α} {a : α}

/-- Every element is among the first or passes the test. -/
def WithinBand (minNodes : ℕ) (keep : α → Prop) (l : List α) : Prop := ∀ ⦃i : ℕ⦄ ⦃a : α⦄, l[i]? = some a → i < minNodes ∨ keep a

/-- The longest initial segment within the band. -/
structure LongestInBand (minNodes : ℕ) (keep : α → Prop) (l kept : List α) : Prop where
  initial : kept <+: l
  within : WithinBand minNodes keep kept
  longest : ∀ other, other <+: l → WithinBand minNodes keep other → other.length ≤ kept.length

theorem LongestInBand.nil (l : List α) (h : ∀ a ∈ l.head?, minNodes = 0 ∧ ¬ keep a) : LongestInBand minNodes keep l [] where
  initial := List.nil_prefix
  within i a ha := by cases ha
  longest other hother hwithin := by
    cases other with
    | nil => exact le_rfl
    | cons b other =>
      obtain ⟨rest, rfl⟩ := hother
      obtain ⟨hmin, hnot⟩ := h b rfl
      rcases hwithin (i := 0) rfl with hlt | hkeep
      · omega
      · exact absurd hkeep hnot

theorem LongestInBand.cons (hpass : 0 < minNodes ∨ keep a) (h : LongestInBand (minNodes - 1) keep l kept) :
    LongestInBand minNodes keep (a :: l) (a :: kept) where
  initial := List.cons_prefix_cons.2 ⟨rfl, h.initial⟩
  within i b hb := by
    cases i with
    | zero =>
      cases hb
      exact hpass
    | succ i => exact (h.within hb).imp_left fun hi => by omega
  longest other hother hwithin := by
    cases other with
    | nil => exact Nat.zero_le _
    | cons b other =>
      refine Nat.succ_le_succ (h.longest other (List.cons_prefix_cons.1 hother).2 fun i x hx => ?_)
      rcases hwithin (i := i + 1) hx with hi | hkeep
      · exact .inl (by omega)
      · exact .inr hkeep

end Band

section Build
variable {c : Candidates EReal} {table : List ℝ} {taken : List (List ℕ)} {s : Growth EReal} {maxNodes : ℕ}

/-- Without a cutoff the loop takes paths until there is no room or no path; with one it stops at
the end of the band. -/
theorem expand_best (h : ExactTable c table) (hdepth : 0 < c.depth) (htopk : 0 < c.topk) (room : ℕ)
    (hm : Mirrors c table s taken) :
    ∃ final all more, c.expand popMax 0 ⊥ room s = some final ∧ Mirrors c table final all ∧ final.nodes = s.nodes ++ more ∧
      (more.length = room ∨ more.length ≤ room ∧ final.heap = []) ∧
      ∀ minNodes (cutoff : EReal), ∃ final' kept, c.expand popMax minNodes cutoff room s = some final' ∧
        final'.nodes = s.nodes ++ kept ∧
        LongestInBand (minNodes - s.nodes.length) (fun node => cutoff ≤ node.logw) more kept := by
  induction room generalizing s taken with
  | zero =>
    refine ⟨s, taken, [], rfl, hm, (List.append_nil _).symm, .inl rfl, fun minNodes cutoff => ?_⟩
    exact ⟨s, [], rfl, (List.append_nil _).symm, .nil [] fun a ha => absurd ha (by simp)⟩
  | succ room ih =>
    cases hpop : popMax s.heap with
    | none =>
      have hnil : s.heap = [] := by
        by_contra hne
        obtain ⟨entry, rest, hsome, -⟩ := popMax_lawful.perm s.heap hne
        rw [hpop] at hsome
        cases hsome
      refine ⟨s, taken, [], ?_, hm, (List.append_nil _).symm, .inr ⟨Nat.zero_le _, hnil⟩, fun minNodes cutoff => ?_⟩
      · rw [Candidates.expand, hpop]
      · refine ⟨s, [], ?_, (List.append_nil _).symm, .nil [] fun a ha => absurd ha (by simp)⟩
        rw [Candidates.expand, hpop]
    | some popped =>
      obtain ⟨entry, heap⟩ := popped
      obtain ⟨next, node, hplace, hmirrors, hnodes, hlogw⟩ := place_mirrors h hdepth htopk hm hpop
      obtain ⟨final, all, more, hexpand, hfinal, hmore, hroom, hband⟩ := ih hmirrors
      refine ⟨final, all, node :: more, ?_, hfinal, ?_, ?_, fun minNodes cutoff => ?_⟩
      · rw [Candidates.expand, hpop]
        simp only [not_lt_bot, and_false, if_false, hplace, Option.bind_eq_bind, Option.bind_some]
        exact hexpand
      · rw [hmore, hnodes, List.append_assoc, List.singleton_append]
      · rw [List.length_cons]
        rcases hroom with hfull | ⟨hle, hempty⟩
        · exact .inl (congrArg (· + 1) hfull)
        · exact .inr ⟨Nat.succ_le_succ hle, hempty⟩
      · by_cases hstop : minNodes ≤ s.nodes.length ∧ entry.logw < cutoff
        · refine ⟨s, [], ?_, (List.append_nil _).symm, .nil _ fun a ha => ?_⟩
          · rw [Candidates.expand, hpop]
            simp only [if_pos hstop]
          · cases ha
            rw [hlogw]
            exact ⟨Nat.sub_eq_zero_of_le hstop.1, not_le.2 hstop.2⟩
        · obtain ⟨final', kept, hexpand', hkept, hlongest⟩ := hband minNodes cutoff
          rw [hnodes, List.length_append, List.length_singleton, ← Nat.sub_sub] at hlongest
          refine ⟨final', node :: kept, ?_, ?_, hlongest.cons ?_⟩
          · rw [Candidates.expand, hpop]
            simp only [if_neg hstop, hplace, Option.bind_eq_bind, Option.bind_some]
            exact hexpand'
          · rw [hkept, hnodes, List.append_assoc, List.singleton_append]
          · rw [hlogw]
            rcases Nat.lt_or_ge s.nodes.length minNodes with hlt | hge
            · exact .inl (Nat.sub_pos_of_lt hlt)
            · exact .inr (not_lt.1 fun hlt => hstop ⟨hge, hlt⟩)

/-- Heaviest paths, as many as the ceiling and the table allow. -/
structure BestPaths (c : Candidates EReal) (table : List ℝ) (maxNodes : ℕ) (taken : List (List ℕ)) : Prop where
  nodup : taken.Nodup
  length : taken.length = min maxNodes (pathCount c.depth c.topk)
  paths : ∀ path ∈ taken, IsPath c.depth c.topk path
  parent : ∀ r up, r :: up ∈ taken → up ≠ [] → up ∈ taken
  sibling : ∀ r up, (r + 1) :: up ∈ taken → r :: up ∈ taken
  best : ∀ path ∈ taken, ∀ other, IsPath c.depth c.topk other → other ∉ taken →
    pathWeight table c.topk other ≤ pathWeight table c.topk path

/-- The tree without cutoff has the heaviest paths, and every tree with one is its longest initial
segment within the band. -/
def BuildsBest (c : Candidates EReal) (table : List ℝ) (maxNodes : ℕ) : Prop :=
  ∃ tree taken, buildDdtreeTreeBounded popMax c 0 maxNodes ⊥ = some tree ∧ Names c table tree.nodes taken ∧
    BestPaths c table maxNodes taken ∧ ∀ minNodes (cutoff : EReal), ∃ kept,
      buildDdtreeTreeBounded popMax c minNodes maxNodes cutoff = some kept ∧
      LongestInBand minNodes (fun node => cutoff ≤ node.logw) tree.nodes kept.nodes

private theorem Mirrors.start :
    Mirrors c table ⟨[⟨-(rowWeight table c.topk 0 0 : EReal), 0, 1, 0, -1, (rowWeight table c.topk 0 0 : EReal)⟩], 1, [],
      [noChildren]⟩ [] where
  names := ⟨rfl, fun i node hnode => by cases hnode⟩
  maps_length := rfl
  entries entry hentry := by
    rw [List.mem_singleton.1 hentry]
    refine ⟨.inl rfl, rfl, ?_, rfl⟩
    have hup : upOf [] (-1) = [] := rfl
    rw [pathOf, hup, pathWeight, pathWeight, zero_add]
    rfl
  explored := .start

/-- A node is closed under what generated it. -/
private theorem Mirrors.bestPaths (h : ExactTable c table) (hdepth : 0 < c.depth) (htopk : 0 < c.topk)
    (hm : Mirrors c table s taken) (hroom : taken.length = maxNodes ∨ taken.length ≤ maxNodes ∧ s.heap = []) :
    BestPaths c table maxNodes taken := by
  have hpaths : ∀ path ∈ taken, IsPath c.depth c.topk path := fun path hpath =>
    (reachable_iff hdepth htopk).1 (hm.explored.reachable path (List.mem_append_left _ hpath))
  have hnodup : taken.Nodup := (List.nodup_append'.1 hm.explored.nodup).1
  have hsibling : ∀ r up, (r + 1) :: up ∈ taken → r :: up ∈ taken := by
    intro r up hmem
    rcases hm.explored.generated _ (List.mem_append_left _ hmem) with hroot | ⟨path, hpath, hnext⟩
    · cases hroot
    · obtain ⟨r', up', rfl, ⟨-, heq⟩ | ⟨-, heq⟩⟩ := mem_nextPaths.1 hnext
      · cases heq
        exact hpath
      · cases heq
  have hfirst : ∀ up, 0 :: up ∈ taken → up ≠ [] → up ∈ taken := by
    intro up hmem hne
    rcases hm.explored.generated _ (List.mem_append_left _ hmem) with hroot | ⟨path, hpath, hnext⟩
    · cases hroot
      exact absurd rfl hne
    · obtain ⟨r', up', rfl, ⟨-, heq⟩ | ⟨-, heq⟩⟩ := mem_nextPaths.1 hnext
      · cases heq
      · cases heq
        exact hpath
  have hle : taken.length ≤ pathCount c.depth c.topk := by
    rw [← length_allPaths]
    exact (List.subperm_of_subset hnodup fun path hpath => mem_allPaths.2 (hpaths path hpath)).length_le
  refine ⟨hnodup, ?_, hpaths, fun r up hmem hne => ?_, hsibling, fun path hpath other hother hnot => ?_⟩
  · rcases hroom with hfull | ⟨hle', hempty⟩
    · omega
    · have hexplored := hm.explored
      rw [hempty] at hexplored
      have hge : pathCount c.depth c.topk ≤ taken.length := by
        rw [← length_allPaths]
        refine (List.subperm_of_subset (nodup_allPaths _ _) fun path hpath => ?_).length_le
        exact hexplored.complete ((reachable_iff hdepth htopk).2 (mem_allPaths.1 hpath))
      omega
  · induction r with
    | zero => exact hfirst up hmem hne
    | succ r ih => exact ih (hsibling r up hmem)
  · exact hm.explored.optimal (fun a ha b hb => h.mono ((reachable_iff hdepth htopk).1 ha) hb) hpath
      ((reachable_iff hdepth htopk).2 hother) hnot

/-- A tree with nodes needs a candidate and room. -/
theorem ExactTable.built (h : ExactTable c table) {minNodes : ℕ} {cutoff : EReal} {tree : DdTree EReal}
    (hbuild : buildDdtreeTreeBounded popMax c minNodes maxNodes cutoff = some tree) (hnodes : maxNodes ≠ 0)
    (hdepth : c.depth ≠ 0) : c.topk ≠ 0 ∧ Reservable maxNodes := by
  rw [buildDdtreeTreeBounded, if_neg (by tauto), if_neg (by rw [h.sized.tokens, h.sized.logProbs]; tauto)] at hbuild
  obtain ⟨first, hfirst, hbuild⟩ := Option.bind_eq_some_iff.1 hbuild
  obtain ⟨_, hreserve, _⟩ := Option.bind_eq_some_iff.1 hbuild
  refine ⟨fun htopk => ?_, ?_⟩
  · have hlt := (List.getElem?_eq_some_iff.1 hfirst).1
    rw [h.sized.logProbs, htopk, Nat.mul_zero] at hlt
    exact Nat.not_lt_zero _ hlt
  · by_contra hfull
    rw [guard, if_neg hfull] at hreserve
    cases hreserve

/-- The best paths are built unless a row without candidates is asked for nodes, or room for more nodes than a
vector may have. -/
theorem buildsBest_iff (h : ExactTable c table) (maxNodes : ℕ) :
    BuildsBest c table maxNodes ↔ maxNodes = 0 ∨ c.depth = 0 ∨ (c.topk ≠ 0 ∧ Reservable maxNodes) := by
  constructor
  · rintro ⟨tree, taken, hbuild, -⟩
    by_contra hnot
    rw [not_or, not_or] at hnot
    exact hnot.2.2 (h.built hbuild hnot.1 hnot.2.1)
  · intro hcond
    by_cases hnone : maxNodes = 0 ∨ c.depth = 0
    · refine ⟨⟨[], [[true]], [noChildren]⟩, [], ?_, ⟨rfl, fun i node hnode => by cases hnode⟩, ?_, fun minNodes cutoff =>
        ⟨⟨[], [[true]], [noChildren]⟩, ?_, .nil [] fun a ha => absurd ha (by simp)⟩⟩
      · rw [buildDdtreeTreeBounded, if_pos hnone]
      · refine ⟨List.nodup_nil, ?_, ?_, ?_, ?_, ?_⟩
        · rcases hnone with hzero | hzero
          · rw [hzero, Nat.zero_min]
            rfl
          · rw [hzero, pathCount, List.range_zero, List.map_nil, List.sum_nil, Nat.min_zero]
            rfl
        · exact fun path hpath => absurd hpath List.not_mem_nil
        · exact fun r up hpath => absurd hpath List.not_mem_nil
        · exact fun r up hpath => absurd hpath List.not_mem_nil
        · exact fun path hpath => absurd hpath List.not_mem_nil
      · rw [buildDdtreeTreeBounded, if_pos hnone]
    · have hdepth : 0 < c.depth := by omega
      have hreserve : Reservable maxNodes := by tauto
      have htopk : 0 < c.topk := by omega
      have hfirst : c.topLogProbs[0]? = some (rowWeight table c.topk 0 0 : EReal) := by
        have := (h.logProb hdepth htopk).1
        rwa [Nat.zero_mul, Nat.add_zero] at this
      have hbuild : ∀ minNodes (cutoff : EReal), buildDdtreeTreeBounded popMax c minNodes maxNodes cutoff =
          (c.expand popMax minNodes cutoff maxNodes ⟨[⟨-(rowWeight table c.topk 0 0 : EReal), 0, 1, 0, -1,
            (rowWeight table c.topk 0 0 : EReal)⟩], 1, [], [noChildren]⟩).map fun s =>
            ⟨s.nodes, visibilityOf s.nodes, s.childMaps⟩ := by
        intro minNodes cutoff
        rw [buildDdtreeTreeBounded, if_neg hnone, if_neg (by rw [h.sized.tokens, h.sized.logProbs]; tauto), hfirst]
        simp only [Option.bind_eq_bind, Option.bind_some, guard, if_pos hreserve]
        cases c.expand popMax minNodes cutoff maxNodes _ <;> rfl
      obtain ⟨final, taken, more, hexpand, hfinal, hmore, hroom, hband⟩ :=
        expand_best h hdepth htopk maxNodes (Mirrors.start)
      rw [List.nil_append] at hmore
      have hlength : more.length = taken.length := by rw [← hmore, hfinal.names.length]
      rw [hlength] at hroom
      refine ⟨⟨final.nodes, visibilityOf final.nodes, final.childMaps⟩, taken, ?_, hfinal.names,
        hfinal.bestPaths h hdepth htopk hroom, fun minNodes cutoff => ?_⟩
      · rw [hbuild, hexpand]
        rfl
      · obtain ⟨final', kept, hexpand', hkept, hlongest⟩ := hband minNodes cutoff
        rw [List.nil_append] at hkept
        refine ⟨⟨final'.nodes, visibilityOf final'.nodes, final'.childMaps⟩, ?_, ?_⟩
        · rw [hbuild, hexpand']
          rfl
        · rw [hkept, hmore]
          exact hlongest

theorem buildsBest_iff_pair : BuildsBest ⟨[5, 6], [((0 : ℝ) : EReal), ((-1 : ℝ) : EReal)], 1, 2⟩ [0, -1] 2 := by
  have h : ExactTable ⟨[5, 6], [((0 : ℝ) : EReal), ((-1 : ℝ) : EReal)], 1, 2⟩ [0, -1] := by
    refine ⟨⟨rfl, rfl⟩, rfl, fun x hx => ?_, fun d r x y hd hr hx hy => ?_⟩
    · rcases List.mem_pair.1 hx with rfl | rfl <;> norm_num
    · obtain rfl : d = 0 := Nat.lt_one_iff.1 hd
      obtain rfl : r = 0 := Nat.lt_one_iff.1 (Nat.lt_of_succ_lt_succ hr)
      cases hx
      cases hy
      norm_num
  exact (buildsBest_iff h 2).2 (.inr (.inr ⟨by decide, by decide⟩))

/-- Without candidates there is no first one to read, and room for `2 ^ 64 - 1` nodes cannot be reserved. -/
theorem no_candidates_no_tree :
    (ExactTable ⟨[], [], 1, 0⟩ [] ∧ buildDdtreeTreeBounded popMax ⟨[], [], 1, 0⟩ 0 1 (⊥ : EReal) = none ∧
      ¬ BuildsBest ⟨[], [], 1, 0⟩ [] 1) ∧
    ExactTable ⟨[5], [((0 : ℝ) : EReal)], 1, 1⟩ [0] ∧
      buildDdtreeTreeBounded popMax ⟨[5], [((0 : ℝ) : EReal)], 1, 1⟩ 0 (2 ^ 64 - 1) ⊥ = none ∧
      ¬ BuildsBest ⟨[5], [((0 : ℝ) : EReal)], 1, 1⟩ [0] (2 ^ 64 - 1) := by
  have hnone : buildDdtreeTreeBounded popMax ⟨[5], [((0 : ℝ) : EReal)], 1, 1⟩ 0 (2 ^ 64 - 1) ⊥ = none := by
    rw [buildDdtreeTreeBounded, if_neg (by decide), if_neg (by simp)]
    simp [guard, Reservable]
  refine ⟨⟨⟨⟨rfl, rfl⟩, rfl, fun x hx => absurd hx List.not_mem_nil, fun d r x y hd hr => absurd hr (Nat.not_lt_zero _)⟩,
    rfl, ?_⟩, ⟨⟨rfl, rfl⟩, rfl, ?_, fun d r x y hd hr => absurd hr (by simp)⟩, hnone, ?_⟩
  · rintro ⟨tree, taken, hbuild, -⟩
    cases hbuild
  · intro x hx
    rw [List.mem_singleton.1 hx]
  · rintro ⟨tree, taken, hbuild, -⟩
    rw [hnone] at hbuild
    cases hbuild

end Build
end Hipscope.Spec
