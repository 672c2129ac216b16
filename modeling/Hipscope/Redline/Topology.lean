import Hipscope.Redline.Recorder
import Hipscope.Graph.Kahn

/-! Topological order, reachability and the hazard scan of a recorded DAG. -/
namespace Hipscope.Redline
open Hipscope.Graph

/-- An earlier-in-record-order access against a later one. -/
inductive HazardKind where
  | readAfterWrite
  | writeAfterRead
  | writeAfterWrite
  deriving DecidableEq, Repr

structure Hazard where
  first : NodeId
  second : NodeId
  kind : HazardKind
  overlap : DeviceRegion
  deriving DecidableEq

inductive CompileError where
  | cycle (nodes : List NodeId)
  | unorderedHazards (hazards : List Hazard)
  | invalidKernargAbi (kernel : String) (cause : KernargAbiError)
  | conflictingScalarSlotSize (slot : ScalarSlotId) (first second : ℕ)
  | conflictingKernelIdentity (kernel : String)
  deriving DecidableEq

/-- Sources of the edges into a node, ascending. -/
def predecessors (edges : List (NodeId × NodeId)) (node : NodeId) : List NodeId :=
  edges.filterMap fun e => if e.2 = node then some e.1 else none

@[simp] theorem mem_predecessors {edges : List (NodeId × NodeId)} {node a : NodeId} :
    a ∈ predecessors edges node ↔ Edge edges a node := by
  simp only [predecessors, List.mem_filterMap, Option.ite_none_right_eq_some, Option.some.injEq, Edge]
  constructor
  · rintro ⟨⟨x, y⟩, he, rfl, rfl⟩
    exact he
  · intro he
    exact ⟨(a, node), he, rfl, rfl⟩

namespace Recorder

def indegree (r : Recorder) (node : NodeId) : ℕ := r.edges.countP fun e => e.2 = node

/-- Insert a sequence of nodes into the ready set. -/
def readyInsert (ready released : List NodeId) : List NodeId :=
  released.foldl (fun ready node => btreeInsert NodeId.le node ready) ready

/-- Pop the first ready node until none is left. -/
def drainReady (r : Recorder) :
    ℕ → List NodeId → List NodeId → (NodeId → ℕ) → List NodeId × (NodeId → ℕ)
  | 0, order, _, degree => (order, degree)
  | _ + 1, order, [], degree => (order, degree)
  | fuel + 1, order, node :: ready, degree =>
    let released := release degree (successors r.edges node)
    drainReady r fuel (order ++ [node]) (readyInsert ready released.2) released.1

def topologicalOrder (r : Recorder) : Except CompileError (List NodeId) :=
  let roots := r.ids.filter fun node => r.indegree node = 0
  let drained := r.drainReady r.nodes.length [] (readyInsert [] roots) r.indegree
  if drained.1.length ≠ r.nodes.length then
    .error (.cycle (r.ids.filter fun node => drained.2 node ≠ 0))
  else .ok drained.1

/-- One step of the descendant sets, walking the order backwards. -/
def reachStep (r : Recorder) (node : NodeId) (reach : NodeId → NodeId → Bool) :
    NodeId → NodeId → Bool :=
  (successors r.edges node).foldl (fun reach target =>
    Function.update reach node fun n => (reach node n || n = target) || reach target n) reach

def reachability (r : Recorder) (order : List NodeId) : NodeId → NodeId → Bool :=
  order.foldr r.reachStep fun _ _ => false

end Recorder

def hazardKind : AccessMode → AccessMode → Option HazardKind
  | .read, .read => none
  | .write, .read => some .readAfterWrite
  | .read, .write => some .writeAfterRead
  | .write, .write => some .writeAfterWrite

/-- Hazards between the accesses of two nodes, first one recorded earlier. -/
def pairHazards (first second : Node) : List Hazard :=
  first.accesses.flatMap fun a => second.accesses.filterMap fun b =>
    (a.region.intersection b.region).bind fun overlap =>
      (hazardKind a.mode b.mode).map fun kind => ⟨first.id, second.id, kind, overlap⟩

def unorderedHazards (reach : NodeId → NodeId → Bool) : List Node → List Hazard
  | [] => []
  | first :: rest => (rest.flatMap fun second =>
      if reach first.id second.id || reach second.id first.id then [] else pairHazards first second) ++
      unorderedHazards reach rest

/-- Two nodes touch a common byte and one of them writes it. -/
def Conflict (m n : Node) : Prop :=
  ∃ a ∈ m.accesses, ∃ b ∈ n.accesses, (∃ r i, a.region.Contains r i ∧ b.region.Contains r i) ∧
    (a.mode = .write ∨ b.mode = .write)

theorem Conflict.symm {m n : Node} (h : Conflict m n) : Conflict n m := by
  obtain ⟨a, ha, b, hb, ⟨r, i, hai, hbi⟩, hmode⟩ := h
  exact ⟨b, hb, a, ha, ⟨r, i, hbi, hai⟩, hmode.symm⟩

/-- A dependency path joins the two nodes, in one direction or the other. -/
def Recorder.Ordered (r : Recorder) (a b : NodeId) : Prop :=
  Relation.TransGen (Edge r.edges) a b ∨ Relation.TransGen (Edge r.edges) b a

namespace Recorder.Valid
variable {r : Recorder}

theorem succ_nodup (h : r.Valid) (a : NodeId) : (successors r.edges a).Nodup := by
  rw [successors, List.Nodup, List.pairwise_filterMap]
  refine h.edges_nodup.imp_of_mem fun {x y} _ _ hne b hb c hc hbc => hne ?_
  simp only [Option.ite_none_right_eq_some, Option.some.injEq] at hb hc
  exact Prod.ext (hb.1.trans hc.1.symm) (by rw [hb.2, hc.2, hbc])

private theorem indegree_eq (h : r.Valid) (a : NodeId) :
    r.indegree a = r.ids.countP fun b => a ∈ successors r.edges b := by
  simp only [indegree, List.countP_eq_length_filter]
  rw [← List.length_map (f := Prod.fst)]
  refine List.Perm.length_eq ((List.perm_ext_iff_of_nodup ?_ (h.ids_nodup.filter _)).mpr fun b => ?_)
  · refine List.Nodup.map_on ?_ (h.edges_nodup.filter _)
    intro x hx y hy hxy
    simp only [List.mem_filter, decide_eq_true_eq] at hx hy
    exact Prod.ext hxy (hx.2.trans hy.2.symm)
  · simp only [List.mem_map, List.mem_filter, decide_eq_true_eq, mem_successors, Edge]
    constructor
    · rintro ⟨⟨x, y⟩, ⟨he, rfl⟩, rfl⟩
      exact ⟨(h.edges_known x y he).1, he⟩
    · rintro ⟨-, he⟩
      exact ⟨(b, a), ⟨he, rfl⟩, rfl⟩

private theorem readyInsert_perm {ready released : List NodeId} (h : (released ++ ready).Nodup) :
    (readyInsert ready released).Perm (released ++ ready) := by
  unfold readyInsert
  induction released generalizing ready with
  | nil => exact .refl _
  | cons a released ih =>
    rw [List.cons_append, List.nodup_cons] at h
    have hins := btreeInsert_perm NodeId.le (a := a) (l := ready) (by simp at h; exact h.1.2)
    have hmid : (released ++ btreeInsert NodeId.le a ready).Perm (a :: (released ++ ready)) :=
      (hins.append_left released).trans List.perm_middle
    rw [List.foldl_cons]
    exact (ih (hmid.nodup_iff.mpr (List.nodup_cons.mpr h))).trans hmid

/-- A run of the ready loop with fuel for every node empties the graph. -/
private theorem drainReady_perm (h : r.Valid) (fuel : ℕ) {order ready : List NodeId}
    {degree : NodeId → ℕ} (hd : Draining (successors r.edges) r.ids order ready degree)
    (hfuel : r.ids.length ≤ order.length + fuel) :
    ∃ final, Draining (successors r.edges) r.ids (r.drainReady fuel order ready degree).1 [] final := by
  induction fuel generalizing order ready degree with
  | zero =>
    have hlen := hd.length_le
    obtain rfl : ready = [] := List.eq_nil_of_length_eq_zero (by omega)
    exact ⟨degree, hd⟩
  | succ fuel ih =>
    cases ready with
    | nil => exact ⟨degree, hd⟩
    | cons node ready =>
      have hstep := hd.step h.ids_nodup (h.succ_nodup node)
        fun a ha => (h.edges_known node a (mem_successors.mp ha)).2
      have hnodup := (List.nodup_append.mp hstep.nodup).2.1
      exact ih (hstep.perm (readyInsert_perm hnodup)) (by simp; omega)

/-- The topological sort of a recorded DAG never reports a cycle. -/
theorem topologicalOrder_ok (h : r.Valid) : ∃ order, r.topologicalOrder = .ok order ∧
    order.Perm r.ids ∧ order.Pairwise fun a b => ¬ Edge r.edges b a := by
  have hroots : ((r.ids.filter fun node => r.indegree node = 0) ++ []).Nodup := by
    simpa using h.ids_nodup.filter _
  have hperm := readyInsert_perm hroots
  have hinit : Draining (successors r.edges) r.ids [] _ r.indegree :=
    draining_init (hperm.nodup_iff.mpr hroots) (fun a => by rw [hperm.mem_iff]; simp) h.indegree_eq
  obtain ⟨final, hfinal⟩ := drainReady_perm h r.nodes.length hinit (by simp [ids])
  have hwf : WellFounded fun a b => b ∈ successors r.edges a := by
    simpa only [mem_successors] using h.acyclic.wellFounded h.edges_known
  have hall := hfinal.complete hwf h.ids_nodup
  refine ⟨_, if_neg ?_, hall, hfinal.ordered.imp fun hab => by simpa using hab⟩
  simpa [ids] using hall.length_eq

end Recorder.Valid

/-- A list that no edge of the graph leaves or runs backwards in. -/
structure TopoSuffix (edges : List (NodeId × NodeId)) (order : List NodeId) : Prop where
  nodup : order.Nodup
  ordered : order.Pairwise fun a b => ¬ Edge edges b a
  closed : ∀ a ∈ order, ∀ b, Edge edges a b → b ∈ order
  irrefl : ∀ a ∈ order, ¬ Edge edges a a

theorem TopoSuffix.tail {edges : List (NodeId × NodeId)} {node : NodeId} {order : List NodeId}
    (h : TopoSuffix edges (node :: order)) : TopoSuffix edges order where
  nodup := (List.nodup_cons.mp h.nodup).2
  ordered := (List.pairwise_cons.mp h.ordered).2
  closed a ha b hab := by
    rcases List.mem_cons.mp (h.closed a (List.mem_cons_of_mem _ ha) b hab) with rfl | hb
    · exact absurd hab ((List.pairwise_cons.mp h.ordered).1 a ha)
    · exact hb
  irrefl a ha := h.irrefl a (List.mem_cons_of_mem _ ha)

theorem TopoSuffix.path_mem {edges : List (NodeId × NodeId)} {order : List NodeId}
    (h : TopoSuffix edges order) {a b : NodeId} (ha : a ∈ order)
    (hp : Relation.TransGen (Edge edges) a b) : b ∈ order := by
  induction hp with
  | single hab => exact h.closed _ ha _ hab
  | tail _ hbc ih => exact h.closed _ ih _ hbc

/-- No path runs backwards in a topological order. -/
theorem TopoSuffix.no_path_back {edges : List (NodeId × NodeId)} {order : List NodeId}
    (h : TopoSuffix edges order) : order.Pairwise fun a b => ¬ Relation.TransGen (Edge edges) b a := by
  induction order with
  | nil => exact .nil
  | cons node order ih =>
    refine List.pairwise_cons.mpr ⟨fun b hb hp => ?_, ih h.tail⟩
    exact (List.nodup_cons.mp h.nodup).1 (h.tail.path_mem hb hp)

namespace Recorder
variable {r : Recorder}

/-- The row of a node collects its successors and their rows. -/
private theorem reachStep_eq {node : NodeId} {reach : NodeId → NodeId → Bool}
    (hself : node ∉ successors r.edges node) (a n : NodeId) :
    r.reachStep node reach a n = true ↔ reach a n = true ∨ (a = node ∧
      ∃ t ∈ successors r.edges node, n = t ∨ reach t n = true) := by
  unfold reachStep
  generalize successors r.edges node = ts at hself
  induction ts generalizing reach with
  | nil => simp
  | cons t ts ih =>
    obtain ⟨ht, hts⟩ : node ≠ t ∧ node ∉ ts := by simpa using hself
    have hrow {x : NodeId} (hx : x ≠ node) : Function.update reach node
        (fun n => (reach node n || n = t) || reach t n) x = reach x := Function.update_of_ne hx _ _
    have hrest : (∃ x ∈ ts, n = x ∨ Function.update reach node
        (fun n => (reach node n || n = t) || reach t n) x n = true) ↔
        ∃ x ∈ ts, n = x ∨ reach x n = true := by
      refine exists_congr fun x => and_congr_right fun hx => ?_
      rw [hrow (ne_of_mem_of_not_mem hx hts)]
    rw [List.foldl_cons, ih hts, hrest]
    by_cases ha : a = node
    · subst ha
      simp only [Function.update_self, Bool.or_eq_true, decide_eq_true_eq, List.mem_cons,
        exists_eq_or_imp, true_and, or_assoc]
    · simp [ha]

/-- Over a topological order the descendant sets are exactly the paths. -/
theorem reachability_iff {order : List NodeId} (h : TopoSuffix r.edges order) (a n : NodeId) :
    r.reachability order a n = true ↔ a ∈ order ∧ Relation.TransGen (Edge r.edges) a n := by
  induction order generalizing a n with
  | nil => simp [reachability]
  | cons node order ih =>
    have hnext {t : NodeId} (ht : Edge r.edges node t) : t ∈ order := by
      rcases List.mem_cons.mp (h.closed node List.mem_cons_self t ht) with rfl | hmem
      · exact absurd ht (h.irrefl t List.mem_cons_self)
      · exact hmem
    have hself : node ∉ successors r.edges node := by
      simpa using h.irrefl node List.mem_cons_self
    change r.reachStep node (r.reachability order) a n = true ↔ _
    rw [reachStep_eq hself, ih h.tail]
    constructor
    · rintro (⟨ha, hp⟩ | ⟨rfl, t, ht, rfl | hp⟩)
      · exact ⟨List.mem_cons_of_mem _ ha, hp⟩
      · exact ⟨List.mem_cons_self, .single (mem_successors.mp ht)⟩
      · exact ⟨List.mem_cons_self, .head (mem_successors.mp ht) ((ih h.tail t n).mp hp).2⟩
    · rintro ⟨ha, hp⟩
      rcases List.mem_cons.mp ha with rfl | ha
      · obtain ⟨t, ht, hpath⟩ := Relation.TransGen.head'_iff.mp hp
        refine .inr ⟨rfl, t, mem_successors.mpr ht, ?_⟩
        rcases Relation.reflTransGen_iff_eq_or_transGen.mp hpath with rfl | hpath
        · exact .inl rfl
        · exact .inr ((ih h.tail t n).mpr ⟨hnext ht, hpath⟩)
      · exact .inl ⟨ha, hp⟩

end Recorder

theorem hazardKind_isSome {a b : AccessMode} :
    (∃ k, hazardKind a b = some k) ↔ a = .write ∨ b = .write := by
  cases a <;> cases b <;> simp [hazardKind]

theorem mem_pairHazards {first second : Node} {h : Hazard} :
    h ∈ pairHazards first second ↔ h.first = first.id ∧ h.second = second.id ∧
      ∃ a ∈ first.accesses, ∃ b ∈ second.accesses,
        a.region.intersection b.region = some h.overlap ∧ hazardKind a.mode b.mode = some h.kind := by
  simp only [pairHazards, List.mem_flatMap, List.mem_filterMap, Option.bind_eq_some_iff,
    Option.map_eq_some_iff]
  constructor
  · rintro ⟨a, ha, b, hb, o, ho, k, hk, rfl⟩
    exact ⟨rfl, rfl, a, ha, b, hb, ho, hk⟩
  · rintro ⟨h1, h2, a, ha, b, hb, ho, hk⟩
    exact ⟨a, ha, b, hb, _, ho, _, hk, by rw [← h1, ← h2]⟩

/-- A pair of nodes has a hazard exactly when their accesses conflict. -/
theorem pairHazards_nonempty {first second : Node} :
    (∃ h, h ∈ pairHazards first second) ↔ Conflict first second := by
  simp only [mem_pairHazards, Conflict]
  constructor
  · rintro ⟨h, -, -, a, ha, b, hb, ho, hk⟩
    exact ⟨a, ha, b, hb, DeviceRegion.overlaps_iff.mp (DeviceRegion.intersection_isSome.mp ⟨_, ho⟩),
      hazardKind_isSome.mp ⟨_, hk⟩⟩
  · rintro ⟨a, ha, b, hb, ho, hk⟩
    obtain ⟨o, ho⟩ := DeviceRegion.intersection_isSome.mpr (DeviceRegion.overlaps_iff.mpr ho)
    obtain ⟨k, hk⟩ := hazardKind_isSome.mpr hk
    exact ⟨⟨first.id, second.id, k, o⟩, rfl, rfl, a, ha, b, hb, ho, hk⟩

/-- The scan reports the hazards of the pairs that no path orders. -/
theorem mem_unorderedHazards {reach : NodeId → NodeId → Bool} {nodes : List Node} {h : Hazard} :
    h ∈ unorderedHazards reach nodes ↔ ∃ first second, [first, second].Sublist nodes ∧
      reach first.id second.id = false ∧ reach second.id first.id = false ∧
      h ∈ pairHazards first second := by
  induction nodes with
  | nil => simp [unorderedHazards]
  | cons n nodes ih =>
    have hhead : (h ∈ nodes.flatMap fun second =>
        if reach n.id second.id || reach second.id n.id then [] else pairHazards n second) ↔
        ∃ second ∈ nodes, reach n.id second.id = false ∧ reach second.id n.id = false ∧
          h ∈ pairHazards n second := by
      rw [List.mem_flatMap]
      refine exists_congr fun second => and_congr_right fun _ => ?_
      split
      · rename_i hr
        simp only [List.not_mem_nil, false_iff]
        rintro ⟨h1, h2, -⟩
        simp [h1, h2] at hr
      · rename_i hr
        simp only [Bool.or_eq_true, not_or, Bool.not_eq_true] at hr
        simp [hr]
    rw [unorderedHazards, List.mem_append, hhead, ih]
    constructor
    · rintro (⟨second, hs, hh⟩ | ⟨first, second, hs, hh⟩)
      · exact ⟨n, second, (List.singleton_sublist.mpr hs).cons_cons n, hh⟩
      · exact ⟨first, second, hs.cons n, hh⟩
    · rintro ⟨first, second, hs, hh⟩
      rcases List.sublist_cons_iff.mp hs with hs | ⟨l, hl, hs⟩
      · exact .inr ⟨first, second, hs, hh⟩
      · obtain ⟨rfl, rfl⟩ := List.cons.inj hl
        exact .inl ⟨second, List.singleton_sublist.mp hs, hh⟩

end Hipscope.Redline
