import Hipscope.Decode.Continuation
import Hipscope.Spec.Tree

/-! Verifying a draft tree gives the target's own continuation, and the block it is
verified in shows every slot exactly its own path. -/
namespace Hipscope.Spec
open Decode Hipscope.Graph
variable {W : Type} {nodes : List (DdNode W)} {childMaps : List (Token → Option ℕ)}

/-- The tokens along a path. -/
def tokensOn (nodes : List (DdNode W)) (path : List ℕ) : List Token :=
  path.filterMap fun i => (nodes[i]?).map fun node => node.token

section Paths
variable {path path' : List ℕ} {slot slot' i : ℕ}

private theorem parentsOf_eq_some {parent : ℕ} :
    (parentsOf nodes)[i]? = some parent ↔ ∃ node, nodes[i]? = some node ∧ slotOf node.parentIndex = parent := by
  rw [parentsOf, List.getElem?_map, Option.map_eq_some_iff]

theorem Grown.topological (h : Grown nodes childMaps) : Topological (parentsOf nodes) := by
  intro i parent hparent
  obtain ⟨node, hnode, rfl⟩ := parentsOf_eq_some.mp hparent
  exact h.order hnode

/-- The depth of a slot is the length of its path. -/
private theorem Grown.depthOf_path (h : Grown nodes childMaps) (hpath : RootPath (parentsOf nodes) path slot) :
    depthOf nodes slot = some path.length := by
  induction hpath with
  | root => rfl
  | @child path slot i _ hparent ih =>
    obtain ⟨node, hnode, rfl⟩ := parentsOf_eq_some.mp hparent
    obtain ⟨d, hd, hdepth⟩ := h.depth hnode
    rw [ih] at hd
    cases hd
    rw [depthOf, hnode, Option.map_some, hdepth, List.length_append, List.length_singleton]

private theorem tokensOn_snoc {node : DdNode W} (hnode : nodes[i]? = some node) :
    tokensOn nodes (path ++ [i]) = tokensOn nodes path ++ [node.token] := by
  simp [tokensOn, List.filterMap_append, hnode]

private theorem tokensOn_length (hpath : RootPath (parentsOf nodes) path slot) :
    (tokensOn nodes path).length = path.length := by
  induction hpath with
  | root => rfl
  | child _ hparent ih =>
    obtain ⟨node, hnode, -⟩ := parentsOf_eq_some.mp hparent
    rw [tokensOn_snoc hnode, List.length_append, List.length_append, ih]
    rfl

/-- A child is determined by its parent and its token. -/
private theorem Grown.child_unique (h : Grown nodes childMaps) {j : ℕ} {node node' : DdNode W} (hnode : nodes[i]? = some node)
    (hnode' : nodes[j]? = some node') (hslot : slotOf node.parentIndex = slotOf node'.parentIndex)
    (htoken : node.token = node'.token) : i = j := by
  have hlt : slotOf node.parentIndex < childMaps.length := by
    have hi := (List.getElem?_eq_some_iff.mp hnode).1
    have := h.order hnode
    rw [h.maps_length]
    omega
  have hmap := h.maps (List.getElem?_eq_getElem hlt)
  have hi := (hmap node.token i).mpr ⟨node, hnode, rfl, rfl⟩
  have hj := (hmap node.token j).mpr ⟨node', hnode', hslot.symm, htoken.symm⟩
  rw [hi] at hj
  exact Option.some.inj hj

/-- A path is determined by its tokens. -/
private theorem Grown.path_unique (h : Grown nodes childMaps) (hpath : RootPath (parentsOf nodes) path slot)
    (hpath' : RootPath (parentsOf nodes) path' slot') (htokens : tokensOn nodes path = tokensOn nodes path') :
    path = path' ∧ slot = slot' := by
  have hlen : path.length = path'.length := by
    rw [← tokensOn_length hpath, ← tokensOn_length hpath', htokens]
  induction hpath generalizing path' slot' with
  | root =>
    obtain rfl := List.length_eq_zero_iff.mp hlen.symm
    exact ⟨rfl, (RootPath.nil_iff.mp hpath').symm⟩
  | @child path slot i hparent hi ih =>
    rcases List.eq_nil_or_concat path' with rfl | ⟨rest, last, rfl⟩
    · simp at hlen
    rw [List.concat_eq_append] at hpath' htokens hlen ⊢
    obtain ⟨rfl, parent, hrest, hlast⟩ := RootPath.snoc_iff.mp hpath'
    obtain ⟨node, hnode, hslot⟩ := parentsOf_eq_some.mp hi
    obtain ⟨node', hnode', hslot'⟩ := parentsOf_eq_some.mp hlast
    rw [tokensOn_snoc hnode, tokensOn_snoc hnode'] at htokens
    obtain ⟨hinit, htoken⟩ := List.append_inj' htokens rfl
    obtain ⟨rfl, rfl⟩ := ih hrest hinit (by simpa using hlen)
    obtain rfl := h.child_unique hnode hnode' (hslot.trans hslot'.symm) (List.singleton_inj.mp htoken)
    exact ⟨rfl, rfl⟩

end Paths

section Follow
variable {tree : DdTree W} {choice : List Token → Token} {context posterior : List Token}

/-- At every slot the target's prediction after the slot's path. -/
structure Predicts (choice : List Token → Token) (context : List Token) (tree : DdTree W) (posterior : List Token) :
    Prop where
  length : posterior.length = 1 + tree.nodes.length
  at_slot : ∀ ⦃path : List ℕ⦄ ⦃slot : ℕ⦄, RootPath (parentsOf tree.nodes) path slot →
    posterior[slot]? = some (choice (context ++ tokensOn tree.nodes path))

/-- The walk ends at a slot none of whose children is predicted. -/
structure Stopped (choice : List Token → Token) (context : List Token) (tree : DdTree W) (accepted : List ℕ) (bonus : Token)
    (slot : ℕ) : Prop where
  path : RootPath (parentsOf tree.nodes) accepted slot
  follows : Follows choice context (tokensOn tree.nodes accepted)
  next : choice (context ++ tokensOn tree.nodes accepted) = bonus
  childless : ∀ ⦃i : ℕ⦄ ⦃node : DdNode W⦄, tree.nodes[i]? = some node → slotOf node.parentIndex = slot → node.token ≠ bonus

private theorem followFrom_spec (fuel : ℕ) (h : Grown tree.nodes tree.childMaps)
    (hpredicts : Predicts choice context tree posterior) {slot : ℕ} {nextToken : Token} {accepted : List ℕ}
    (hfuel : tree.nodes.length + 2 ≤ fuel + slot)
    (hpath : RootPath (parentsOf tree.nodes) accepted slot)
    (hfollows : Follows choice context (tokensOn tree.nodes accepted))
    (hnext : choice (context ++ tokensOn tree.nodes accepted) = nextToken) :
    ∃ final bonus slot', followFrom tree posterior fuel slot nextToken accepted = some (final, bonus) ∧
      Stopped choice context tree final bonus slot' := by
  have hslot : slot ≤ tree.nodes.length := by
    have := hpath.slot_le
    rwa [parentsOf, List.length_map] at this
  induction fuel generalizing slot nextToken accepted with
  | zero => omega
  | succ fuel ih =>
    have hlt : slot < tree.childMaps.length := by rw [h.maps_length]; omega
    have hchildren := List.getElem?_eq_getElem hlt
    have hmaps := h.maps hchildren
    simp only [followFrom, hchildren, Option.bind_eq_bind, Option.bind_some]
    cases hchild : tree.childMaps[slot] nextToken with
    | none =>
      refine ⟨accepted, nextToken, slot, rfl, hpath, hfollows, hnext, ?_⟩
      intro i node hnode hparent htoken
      have := (hmaps nextToken i).mpr ⟨node, hnode, hparent, htoken⟩
      rw [hchild] at this
      cases this
    | some child =>
      obtain ⟨node, hnode, hparent, htoken⟩ := (hmaps nextToken child).mp hchild
      have hin := (List.getElem?_eq_some_iff.mp hnode).1
      have horder := h.order hnode
      have hpath' : RootPath (parentsOf tree.nodes) (accepted ++ [child]) (child + 1) :=
        hpath.child (parentsOf_eq_some.mpr ⟨node, hnode, hparent⟩)
      dsimp only
      rw [if_neg (by rw [hpredicts.length]; omega), hpredicts.at_slot hpath', Option.bind_some]
      refine ih (by omega) hpath' ?_ rfl hin
      rw [tokensOn_snoc hnode, follows_snoc]
      exact ⟨hfollows, hnext.trans htoken.symm⟩

/-- No path of the tree agrees with the continuation for longer than the accepted one. -/
private theorem Stopped.longest (h : Grown tree.nodes tree.childMaps) {accepted path : List ℕ} {bonus : Token}
    {slot slot' : ℕ}
    (hstopped : Stopped choice context tree accepted bonus slot) (hpath : RootPath (parentsOf tree.nodes) path slot')
    (hfollows : Follows choice context (tokensOn tree.nodes path)) : path.length ≤ accepted.length := by
  by_contra hlonger
  have hlt : accepted.length < path.length := Nat.not_le.mp hlonger
  obtain ⟨front, i, rest, rfl, hlen⟩ : ∃ front i rest, path = front ++ i :: rest ∧ front.length = accepted.length := by
    refine ⟨path.take accepted.length, path[accepted.length], path.drop (accepted.length + 1), ?_, ?_⟩
    · rw [← List.drop_eq_getElem_cons hlt, List.take_append_drop]
    · rw [List.length_take, Nat.min_eq_left (Nat.le_of_lt hlt)]
  obtain ⟨parent, hfront, hi⟩ := hpath.front
  obtain ⟨node, hnode, hparent⟩ := parentsOf_eq_some.mp hi
  have htokens : tokensOn tree.nodes (front ++ i :: rest) =
      tokensOn tree.nodes front ++ node.token :: tokensOn tree.nodes rest := by
    simp [tokensOn, List.filterMap_append, hnode]
  rw [htokens, follows_append, Follows] at hfollows
  obtain ⟨hsame, hnext, -⟩ := hfollows
  have hequal : tokensOn tree.nodes front = tokensOn tree.nodes accepted := by
    refine hsame.eq_of_length hstopped.follows ?_
    rw [tokensOn_length hfront, tokensOn_length hstopped.path, hlen]
  obtain ⟨rfl, rfl⟩ := h.path_unique hfront hstopped.path hequal
  exact hstopped.childless hnode hparent (hnext.symm.trans hstopped.next)

end Follow

section Visibility

/-- Every row so far shows the slots of its own path. -/
structure RowsShow (nodes : List (DdNode W)) (len : ℕ) (rows : List (List Bool)) : Prop where
  width : ∀ row ∈ rows, row.length = len
  shows : ∀ ⦃slot : ℕ⦄ ⦃row : List Bool⦄ ⦃path : List ℕ⦄, rows[slot]? = some row →
    RootPath (parentsOf nodes) path slot → ∀ j, j < len → (row[j]? = some true ↔ j ∈ RootPath.slots path)

private theorem visibilityRow_getElem? {len : ℕ} {rows : List (List Bool)} {parentSlot j : ℕ} (hj : j < len) :
    (visibilityRow len rows parentSlot)[j]? =
      some (if j < rows.length then ((rows[parentSlot]?).bind fun row => row[j]?).getD false
        else decide (j = rows.length)) := by
  rw [visibilityRow, List.getElem?_map, List.getElem?_range hj, Option.map_some]

private theorem Grown.rowsShow_snoc (h : Grown nodes childMaps) {len : ℕ} {rows : List (List Bool)} {node : DdNode W} {i : ℕ}
    (hnode : nodes[i]? = some node) (hrows : rows.length = i + 1) (hshow : RowsShow nodes len rows) :
    RowsShow nodes len (rows ++ [visibilityRow len rows (slotOf node.parentIndex)]) := by
  have htop := h.topological
  constructor
  · intro row hrow
    rcases List.mem_append.mp hrow with hrow | hrow
    · exact hshow.width row hrow
    · rw [List.mem_singleton.mp hrow, visibilityRow, List.length_map, List.length_range]
  · intro slot row path hrow hpath j hj
    rw [List.getElem?_append] at hrow
    split_ifs at hrow with hold
    · exact hshow.shows hrow hpath j hj
    · rw [List.getElem?_singleton] at hrow
      split_ifs at hrow with hlast
      obtain rfl := (Option.some.inj hrow).symm
      obtain rfl : slot = i + 1 := by omega
      rcases List.eq_nil_or_concat path with rfl | ⟨rest, last, rfl⟩
      · exact absurd (RootPath.nil_iff.mp hpath) (Nat.succ_ne_zero i)
      rw [List.concat_eq_append] at hpath ⊢
      obtain ⟨hsucc, parent, hrest, hparent⟩ := RootPath.snoc_iff.mp hpath
      obtain rfl := Nat.succ.inj hsucc
      obtain ⟨node', hnode', hslot⟩ := parentsOf_eq_some.mp hparent
      rw [hnode] at hnode'
      cases hnode'
      have horder := h.order hnode
      have hin : slotOf node.parentIndex < rows.length := by omega
      rw [visibilityRow_getElem? hj, RootPath.mem_slots_snoc, hrows, List.getElem?_eq_getElem hin, Option.bind_some]
      have hparentRow := hshow.shows (List.getElem?_eq_getElem hin) (hslot ▸ hrest) j hj
      split_ifs with hbefore
      · rw [← hparentRow, Option.some.injEq]
        have hne : j ≠ i + 1 := Nat.ne_of_lt hbefore
        cases rows[slotOf node.parentIndex][j]? with
        | none => simp [hne]
        | some visible => simp [hne]
      · have habsent : j ∉ RootPath.slots rest := by
          intro hmem
          have hle := hrest.le_of_mem_slots htop hmem
          have hparentLe := htop hparent
          omega
        simp [habsent]

private theorem Grown.visibilityRows_spec (h : Grown nodes childMaps) {len : ℕ} (done : List (DdNode W))
    {rest : List (DdNode W)} {rows : List (List Bool)} (hnodes : nodes = done ++ rest) (hrows : rows.length = done.length + 1)
    (hshow : RowsShow nodes len rows) :
    RowsShow nodes len (visibilityRows len rest rows) ∧ (visibilityRows len rest rows).length = nodes.length + 1 := by
  induction rest generalizing done rows with
  | nil =>
    rw [List.append_nil] at hnodes
    rw [visibilityRows, hnodes]
    exact ⟨hnodes ▸ hshow, hrows⟩
  | cons node rest ih =>
    have hnode : nodes[done.length]? = some node := by
      rw [hnodes, List.getElem?_append_right (Nat.le_refl _), Nat.sub_self]
      rfl
    rw [visibilityRows]
    refine ih (done ++ [node]) ?_ ?_ (h.rowsShow_snoc hnode hrows hshow)
    · rw [hnodes, List.append_assoc, List.singleton_append]
    · rw [List.length_append, List.length_append, hrows]
      rfl

/-- The matrix shows every slot its own path. -/
private theorem Grown.visibilityOf_spec (h : Grown nodes childMaps) :
    RowsShow nodes (1 + nodes.length) (visibilityOf nodes) ∧ (visibilityOf nodes).length = nodes.length + 1 := by
  refine h.visibilityRows_spec [] rfl rfl ⟨?_, ?_⟩
  · simp
  · intro slot row path hrow hpath j hj
    rw [List.getElem?_singleton] at hrow
    split_ifs at hrow with hslot
    obtain rfl := (Option.some.inj hrow).symm
    subst hslot
    obtain rfl := RootPath.zero_iff.mp hpath
    rw [List.getElem?_map, List.getElem?_range hj]
    simp [RootPath.slots]

end Visibility

section Linearize
variable {tree : DdTree W}

/-- Rows of one width, end to end. -/
private theorem getElem?_flatMap_rows {α β : Type} {rows : List (List α)} {len : ℕ} (hwidth : ∀ row ∈ rows, row.length = len)
    (f : α → β) {slot j : ℕ} (hj : j < len) :
    (rows.flatMap fun row => row.map f)[slot * len + j]? = ((rows[slot]?).bind fun row => row[j]?).map f := by
  induction rows generalizing slot with
  | nil => simp
  | cons row rows ih =>
    obtain ⟨hrow, hrest⟩ := List.forall_mem_cons.mp hwidth
    rw [List.flatMap_cons]
    cases slot with
    | zero =>
      rw [Nat.zero_mul, Nat.zero_add, List.getElem?_append_left (by rw [List.length_map, hrow]; exact hj)]
      simp
    | succ slot =>
      have hle : (row.map f).length ≤ (slot + 1) * len + j := by
        rw [List.length_map, hrow, Nat.succ_mul]
        omega
      rw [List.getElem?_append_right hle, List.length_map, hrow]
      have hsub : (slot + 1) * len + j - len = slot * len + j := by
        rw [Nat.succ_mul]
        omega
      rw [hsub, ih hrest]
      rfl

private theorem asI32_add (a b : ℤ) : asI32 (asI32 a + asI32 b) = asI32 (a + b) := by
  unfold asI32
  omega

/-- One slot of the block: its position is its depth behind the base, its mask row shows its own path and
nothing else, and its parent is an earlier slot, the end of the path without the slot itself. -/
structure LaidOut (tree : DdTree W) (block : Linearized) (basePos : UInt32) (path : List ℕ) (slot : ℕ) : Prop where
  position : block.positions[slot]? = some (asI32 (basePos.toNat + path.length))
  mask : ∀ other, other ≤ tree.nodes.length →
    block.maskBlock[slot * (1 + tree.nodes.length) + other]? =
      some (if other ∈ RootPath.slots path then .zero else .negInfinity)
  parent : (slot = 0 ∧ block.parentIndices[slot]? = some (-1)) ∨
    ∃ parent < slot, block.parentIndices[slot]? = some (parent : ℤ) ∧
      RootPath (parentsOf tree.nodes) path.dropLast parent

/-- The position is the integer base plus depth while that is one of an `i32`. -/
theorem LaidOut.position_eq {tree : DdTree W} {block : Linearized} {basePos : UInt32} {path : List ℕ} {slot : ℕ}
    (h : LaidOut tree block basePos path slot) (hfits : basePos.toNat + path.length < 2 ^ 31) :
    block.positions[slot]? = some ((basePos.toNat + path.length : ℕ) : ℤ) := by
  have hsame : asI32 (basePos.toNat + path.length) = (basePos.toNat + path.length : ℕ) := by
    unfold asI32
    omega
  rw [h.position, hsame]

private theorem parentIndex_slot (parentIndex : ℤ) :
    (if parentIndex < 0 then 0 else parentIndex + 1) = (slotOf parentIndex : ℤ) := by
  unfold slotOf
  split_ifs <;> omega

private theorem Grown.position_spec (h : Grown tree.nodes tree.childMaps) (seedToken : Token) (basePos : UInt32)
    {path : List ℕ} {slot : ℕ} (hpath : RootPath (parentsOf tree.nodes) path slot) :
    (linearizeTreeWithParents tree seedToken basePos).positions[slot]? = some (asI32 (basePos.toNat + path.length)) := by
  have hdepth := h.depthOf_path hpath
  cases slot with
  | zero =>
    obtain rfl := RootPath.zero_iff.mp hpath
    rfl
  | succ i =>
    obtain ⟨node, hnode, hlen⟩ := Option.map_eq_some_iff.mp hdepth
    rw [linearizeTreeWithParents]
    dsimp only
    rw [List.getElem?_cons_succ, List.getElem?_map, hnode, Option.map_some, asI32_add, hlen]

private theorem Grown.mask_spec (h : Grown tree.nodes tree.childMaps)
    (hvisibility : tree.visibility = visibilityOf tree.nodes)
    (seedToken : Token) (basePos : UInt32) {path : List ℕ} {slot other : ℕ}
    (hpath : RootPath (parentsOf tree.nodes) path slot) (hother : other ≤ tree.nodes.length) :
    (linearizeTreeWithParents tree seedToken basePos).maskBlock[slot * (1 + tree.nodes.length) + other]? =
      some (if other ∈ RootPath.slots path then .zero else .negInfinity) := by
  obtain ⟨hshow, hlen⟩ := h.visibilityOf_spec
  have hslot : slot < (visibilityOf tree.nodes).length := by
    have := hpath.slot_le
    rw [parentsOf, List.length_map] at this
    omega
  have hin : other < 1 + tree.nodes.length := by omega
  have hrow := List.getElem?_eq_getElem hslot
  have hwidth := hshow.width _ (List.getElem_mem hslot)
  have hcell := List.getElem?_eq_getElem (show other < (visibilityOf tree.nodes)[slot].length by omega)
  have hiff := hshow.shows hrow hpath other hin
  rw [linearizeTreeWithParents]
  dsimp only
  rw [hvisibility, getElem?_flatMap_rows hshow.width _ hin, hrow, Option.bind_some, hcell, Option.map_some]
  rw [hcell, Option.some.injEq] at hiff
  congr 1
  split_ifs with hvisible hmem hmem
  · rfl
  · exact absurd (hiff.mp hvisible) hmem
  · exact absurd (hiff.mpr hmem) hvisible
  · rfl

private theorem Grown.parent_spec (h : Grown tree.nodes tree.childMaps) (seedToken : Token) (basePos : UInt32)
    {path : List ℕ} {slot : ℕ} (hpath : RootPath (parentsOf tree.nodes) path slot) :
    (slot = 0 ∧ (linearizeTreeWithParents tree seedToken basePos).parentIndices[slot]? = some (-1)) ∨
      ∃ parent < slot, (linearizeTreeWithParents tree seedToken basePos).parentIndices[slot]? = some (parent : ℤ) ∧
        RootPath (parentsOf tree.nodes) path.dropLast parent := by
  cases hpath with
  | root => exact .inl ⟨rfl, rfl⟩
  | @child path parent i hrest hparent =>
    obtain ⟨node, hnode, rfl⟩ := parentsOf_eq_some.mp hparent
    refine .inr ⟨_, Nat.lt_succ_of_le (h.order hnode), ?_, by rw [List.dropLast_concat]; exact hrest⟩
    rw [linearizeTreeWithParents]
    dsimp only
    rw [List.getElem?_cons_succ, List.getElem?_map, hnode, Option.map_some, parentIndex_slot]

end Linearize

section Main
variable [Add W] [Sub W] [Neg W] [LT W] [DecidableLT W] {c : Candidates W}
  {pop : List (HeapEntry W) → Option (HeapEntry W × List (HeapEntry W))} {minNodes maxNodes : ℕ} {logwCutoff : W}
  {tree : DdTree W}

/-- Verification of a draft tree is lossless, in whatever order its nodes were popped. If the target's
predictions are given for every slot, the accepted nodes are a path from the root whose tokens, with the bonus,
are the target's own continuation of the context and the seed, and no path agrees with it for longer. In the
block of the tree every slot has one path, and position, mask row and parent are those of that path. -/
theorem tree_verified_lossless (hdistinct : c.Distinct) (hpop : LawfulPop pop)
    (hbuild : buildDdtreeTreeBounded pop c minNodes maxNodes logwCutoff = some tree) :
    (∀ (choice : List Token → Token) (context : List Token) (seed : Token) (posterior : List Token),
      Predicts choice (context ++ [seed]) tree posterior →
      ∃ accepted bonus, followVerifiedTree tree posterior = some (accepted, bonus) ∧
        (∃ slot, RootPath (parentsOf tree.nodes) accepted slot) ∧
        tokensOn tree.nodes accepted ++ [bonus] = continuation choice (context ++ [seed]) (accepted.length + 1) ∧
        ∀ path slot, RootPath (parentsOf tree.nodes) path slot →
          tokensOn tree.nodes path = continuation choice (context ++ [seed]) path.length → path.length ≤ accepted.length) ∧
    ∀ (seed : Token) (basePos : UInt32) (slot : ℕ), slot ≤ tree.nodes.length →
      ∃ path, RootPath (parentsOf tree.nodes) path slot ∧
        (∀ path', RootPath (parentsOf tree.nodes) path' slot → path' = path) ∧
        LaidOut tree (linearizeTreeWithParents tree seed basePos) basePos path slot := by
  obtain ⟨hgrown, hvisibility⟩ := build_spec hdistinct hpop hbuild
  constructor
  · intro choice context seed posterior hpredicts
    have hfirst := hpredicts.at_slot RootPath.root
    obtain ⟨accepted, bonus, slot, hfollow, hstopped⟩ := followFrom_spec (posterior.length + 1) hgrown hpredicts
      (by rw [hpredicts.length]; omega) RootPath.root trivial rfl
    have hlen := tokensOn_length hstopped.path
    refine ⟨accepted, bonus, ?_, ⟨slot, hstopped.path⟩, ?_, ?_⟩
    · rw [followVerifiedTree, hfirst]
      exact hfollow
    · have hwhole := follows_iff.mp (follows_snoc.mpr ⟨hstopped.follows, hstopped.next⟩)
      rw [List.length_append, hlen] at hwhole
      exact hwhole
    · intro path slot' hpath htokens
      apply hstopped.longest hgrown hpath
      rw [follows_iff, tokensOn_length hpath]
      exact htokens
  · intro seed basePos slot hslot
    obtain ⟨path, hpath⟩ := RootPath.exists_of_le hgrown.topological
      (show slot ≤ (parentsOf tree.nodes).length by rw [parentsOf, List.length_map]; exact hslot)
    refine ⟨path, hpath, fun path' hpath' => hpath'.unique hpath, ?_, ?_, ?_⟩
    · exact hgrown.position_spec seed basePos hpath
    · intro other hother
      exact hgrown.mask_spec hvisibility seed basePos hpath hother
    · exact hgrown.parent_spec seed basePos hpath

end Main

/-- Two positions with two candidates each. -/
def forkedDraft : Candidates ℤ := ⟨[10, 20, 30, 40], [-1, -10, -2, -15], 2, 2⟩

private theorem forkedDraft_distinct : forkedDraft.Distinct := by
  intro d r r' token hd hr hr'
  change d < 2 at hd
  change r < 2 at hr
  change r' < 2 at hr'
  interval_cases d <;> interval_cases r <;> interval_cases r' <;> simp [forkedDraft] <;> rintro rfl <;> decide

/-- A target that always chooses 10 accepts the first node and stops below it. -/
theorem forked_draft_verified : ∃ (tree : DdTree ℤ) (accepted : List ℕ) (bonus : Token),
    buildDdtreeTreeBounded popMax forkedDraft 0 4 (-1000) = some tree ∧
    followVerifiedTree tree [10, 10, 10, 10, 10] = some (accepted, bonus) ∧
    tokensOn tree.nodes accepted ++ [bonus] = continuation (fun _ => 10) ([5] ++ [1]) (accepted.length + 1) := by
  have hsome : (buildDdtreeTreeBounded popMax forkedDraft 0 4 (-1000)).isSome := by decide
  obtain ⟨tree, htree⟩ := Option.isSome_iff_exists.mp hsome
  have hlen : tree.nodes.length = 4 := by
    have : (buildDdtreeTreeBounded popMax forkedDraft 0 4 (-1000)).map (fun tree => tree.nodes.length) = some 4 := by decide
    rw [htree] at this
    exact Option.some.inj this
  have hpredicts : Predicts (fun _ => 10) ([5] ++ [1]) tree [10, 10, 10, 10, 10] := by
    refine ⟨by rw [hlen]; rfl, ?_⟩
    intro path slot hpath
    have hslot := hpath.slot_le
    rw [parentsOf, List.length_map, hlen] at hslot
    interval_cases slot <;> rfl
  obtain ⟨accepted, bonus, hfollow, -, hcontinued, -⟩ :=
    (tree_verified_lossless forkedDraft_distinct popMax_lawful htree).1 (fun _ => 10) [5] 1 _ hpredicts
  exact ⟨tree, accepted, bonus, htree, hfollow, hcontinued⟩

end Hipscope.Spec
