import Hipscope.Redline.Scheduling
import Hipscope.Redline.Visibility

/-! The derived barriers and cross-lane waits order every dependency, and the
derived fences cover every read after write. -/
namespace Hipscope.Redline.Visibility
open Hipscope.Graph Queue

/-- The dependencies a dispatch waits for in other queues. -/
def crossLaneNodes : BarrierDecision → List NodeId
  | .required reasons => reasons.filterMap fun
    | .crossLaneDependency node => some node
    | _ => none
  | .elided _ _ => []

/-- A dispatch packet under AQL semantics: the barrier bit waits for the queue,
cross-lane dependencies for the completion of the named packet. -/
def DerivedDispatchPolicy.entries (p : DerivedDispatchPolicy) : List (Entry ℕ (Option NodeId) NodeId ℕ) :=
  Packet.barrierEntries p.lane p.header ++
    (crossLaneNodes p.barrier).map (fun n => ⟨p.lane, none, .await n 0⟩) ++
    [⟨p.lane, some p.node, .launch (some (p.node, 0))⟩]

def DerivedVisibilityPlan.entries (v : DerivedVisibilityPlan) :
    List (Entry ℕ (Option NodeId) NodeId ℕ) :=
  v.dispatches.flatMap DerivedDispatchPolicy.entries

private theorem foldl_row {x : NodeId} {deps : List NodeId} (hx : x ∉ deps)
    (reach : NodeId → NodeId → Bool) (a b : NodeId) :
    deps.foldl (fun (reach : NodeId → NodeId → Bool) dependency =>
      Function.update reach dependency fun n =>
        (reach dependency n || n = x) || reach x n) reach a b = true ↔
      reach a b = true ∨ (a ∈ deps ∧ (b = x ∨ reach x b = true)) := by
  induction deps generalizing reach with
  | nil => simp
  | cons dep deps ih =>
    obtain ⟨hxd, hxs⟩ : x ≠ dep ∧ x ∉ deps := by simpa using hx
    rw [List.foldl_cons, ih hxs, Function.update_of_ne hxd]
    by_cases ha : a = dep
    · subst ha
      simp only [Function.update_self, Bool.or_eq_true, decide_eq_true_eq, List.mem_cons, true_or,
        true_and, or_assoc]
      tauto
    · simp [ha]

/-- Over a suffix of the plan the rows hold the paths that enter the suffix. -/
private theorem reachability_suffix {edges : List (NodeId × NodeId)} {ds : List PlannedDispatch}
    (h : TopoSuffix edges (ds.map PlannedDispatch.node))
    (hdeps : ∀ d ∈ ds, ∀ a, a ∈ d.dependencies ↔ Edge edges a d.node) (a b : NodeId) :
    reachability ds a b = true ↔
      ∃ d ∈ ds, Edge edges a d.node ∧ Relation.ReflTransGen (Edge edges) d.node b := by
  induction ds generalizing a b with
  | nil => simp [reachability]
  | cons d ds ih =>
    have ih := ih h.tail fun e he => hdeps e (List.mem_cons_of_mem _ he)
    have hself : d.node ∉ d.dependencies := fun hd =>
      h.irrefl d.node List.mem_cons_self ((hdeps d List.mem_cons_self _).mp hd)
    have hrow : reachability ds d.node b = true ↔ Relation.TransGen (Edge edges) d.node b := by
      rw [ih]
      constructor
      · rintro ⟨e, -, he, hp⟩
        exact .head' he hp
      · intro hp
        obtain ⟨t, ht, hpath⟩ := Relation.TransGen.head'_iff.mp hp
        obtain hmem := h.closed d.node List.mem_cons_self t ht
        rcases List.mem_cons.mp hmem with rfl | hmem
        · exact absurd ht (h.irrefl _ List.mem_cons_self)
        · obtain ⟨e, he, rfl⟩ := List.mem_map.mp hmem
          exact ⟨e, he, ht, hpath⟩
    have hstep := foldl_row hself (reachability ds) a b
    rw [ih, hrow, hdeps d List.mem_cons_self] at hstep
    refine hstep.trans ?_
    simp only [List.mem_cons, exists_eq_or_imp]
    rw [Relation.reflTransGen_iff_eq_or_transGen, or_comm]

theorem reachability_iff {plan : CompiledPlan} {r : Recorder} (hv : r.Valid)
    (hs : plan.Schedules r) (a b : NodeId) :
    reachability plan.dispatches a b = true ↔ Relation.TransGen (Edge r.edges) a b := by
  rw [reachability_suffix (hs.topo hv) hs.dependencies, Relation.TransGen.head'_iff]
  constructor
  · rintro ⟨d, -, h⟩
    exact ⟨d.node, h⟩
  · rintro ⟨c, hc, hp⟩
    obtain ⟨d, hd, rfl⟩ := hs.dispatch_of_id (hv.edges_known a c hc).2
    exact ⟨d, hd, hc, hp⟩

private theorem mem_foldl_pushUnique {α : Type} [DecidableEq α] {l acc : List α} {x : α} :
    x ∈ l.foldl pushUnique acc ↔ x ∈ acc ∨ x ∈ l := by
  induction l generalizing acc with
  | nil => simp
  | cons y l ih =>
    rw [List.foldl_cons, ih, pushUnique]
    split
    · rename_i hy
      rw [List.mem_cons]
      constructor
      · rintro (h | h) <;> simp [h]
      · rintro (h | rfl | h) <;> simp [*]
    · simp [or_assoc]

private theorem mem_orderReasons {reach : NodeId → NodeId → Bool} {lane : NodeId → ℕ}
    {epoch : List PlannedDispatch} {d : PlannedDispatch} {x : OrderReason} :
    x ∈ orderReasons reach lane epoch d ↔
      x ∈ crossLaneReasons lane d ∨ ∃ prior ∈ epoch, x ∈ epochReasons reach d prior := by
  simp [orderReasons, mem_foldl_pushUnique]

theorem mem_conflicts {first second : PlannedDispatch} {c : HazardKind × DeviceRegion} :
    c ∈ conflicts first second ↔ ∃ a ∈ first.accesses, ∃ b ∈ second.accesses,
      a.region.intersection b.region = some c.2 ∧ hazardKind a.mode b.mode = some c.1 := by
  simp only [conflicts, List.mem_flatMap, List.mem_filterMap, Option.bind_eq_some_iff,
    Option.map_eq_some_iff]
  constructor
  · rintro ⟨a, ha, b, hb, o, ho, k, hk, rfl⟩
    exact ⟨a, ha, b, hb, ho, hk⟩
  · rintro ⟨a, ha, b, hb, ho, hk⟩
    exact ⟨a, ha, b, hb, _, ho, _, hk, rfl⟩

private theorem firstUnordered_none {reach : NodeId → NodeId → Bool} {ds : List PlannedDispatch}
    (h : ds.Pairwise fun d e => ∀ c ∈ conflicts d e, reach d.node e.node = true) :
    firstUnordered reach ds = none := by
  induction ds with
  | nil => rfl
  | cons d ds ih =>
    obtain ⟨hd, hds⟩ := List.pairwise_cons.mp h
    rw [firstUnordered, ih hds]
    refine Option.or_eq_none_iff.mpr ⟨List.findSome?_eq_none_iff.mpr fun e he => ?_, rfl⟩
    split
    · rfl
    · rename_i hr
      cases hc : conflicts d e with
      | nil => rfl
      | cons c cs => exact absurd (hd e he c (by simp [hc])) hr

section Loop
variable {boundary : ApiBoundary} {reach : NodeId → NodeId → Bool} {lane : NodeId → ℕ}

/-- The policy of a dispatch in the middle of the plan, and the lanes it sees. -/
theorem derivePolicies_split (boundary : ApiBoundary) (reach : NodeId → NodeId → Bool)
    (lane : NodeId → ℕ) (lanes : Lanes) (before mid : List PlannedDispatch) (d : PlannedDispatch)
    (post : List PlannedDispatch) : ∃ lanes' P Q,
      (derivePolicies boundary reach lane lanes before (mid ++ d :: post)).2 =
        P ++ derivePolicy boundary reach lane lanes' (before ++ mid) d post :: Q ∧
      P.map (fun p => (p.node, p.lane)) = mid.map (fun e => (e.node, e.lane)) ∧
      ∀ l, lanes'.nodes l =
        lanes.nodes l ++ (mid.filter fun e => e.lane = l).map PlannedDispatch.node := by
  induction mid generalizing lanes before with
  | nil => exact ⟨lanes, [], _, by rw [List.append_nil]; rfl, rfl, by simp⟩
  | cons e mid ih =>
    obtain ⟨lanes', P, Q, heq, hP, hnodes⟩ := ih (lanes.advance e
      (derivePolicy boundary reach lane lanes before e (mid ++ d :: post)).header.barrier)
      (before ++ [e])
    refine ⟨lanes', derivePolicy boundary reach lane lanes before e (mid ++ d :: post) :: P, Q, ?_, ?_,
      fun l => ?_⟩
    · simp only [List.cons_append, derivePolicies, heq]
      simp
    · simp [hP, derivePolicy]
    · rw [hnodes, Lanes.advance]
      by_cases hl : e.lane = l
      · subst hl
        simp
      · simp [Function.update_of_ne (Ne.symm hl), hl]

theorem derivePolicies_nodes {lanes : Lanes} {before ds : List PlannedDispatch} :
    (derivePolicies boundary reach lane lanes before ds).2.map DerivedDispatchPolicy.node =
      ds.map PlannedDispatch.node := by
  induction ds generalizing lanes before with
  | nil => rfl
  | cons d ds ih => simp [derivePolicies, ih, derivePolicy]

/-- Reachability between launched nodes. -/
def Path (reach : NodeId → NodeId → Bool) (t u : Option NodeId) : Prop :=
  ∃ a b, t = some a ∧ u = some b ∧ reach a b = true

private theorem Path.not_of_no_reason {epoch : List PlannedDispatch} {d e : PlannedDispatch}
    (h : orderReasons reach lane epoch d = []) (he : e ∈ epoch) :
    ¬ Path reach (some e.node) (some d.node) := by
  rintro ⟨a, b, ha, hb, hr⟩
  cases ha
  cases hb
  have hm : OrderReason.orderedAfter e.node ∈ orderReasons reach lane epoch d :=
    mem_orderReasons.mpr (.inr ⟨e, he, by simp [epochReasons, hr]⟩)
  simp [h] at hm

private theorem awaits_passive {l q : ℕ} {ns : List NodeId} (e : Entry ℕ (Option NodeId) NodeId ℕ)
    (he : e ∈ ns.map fun n => (⟨l, none, .await n 0⟩ : Entry ℕ (Option NodeId) NodeId ℕ))
    (_ : e.queue = q) : e.cmd ≠ .drain ∧ ∀ done, e.cmd ≠ .launch done := by
  obtain ⟨n, -, rfl⟩ := List.mem_map.mp he
  simp

private theorem entries_queue {p : DerivedDispatchPolicy} {e : Entry ℕ (Option NodeId) NodeId ℕ}
    (he : e ∈ p.entries) : e.queue = p.lane := by
  simp only [DerivedDispatchPolicy.entries, List.mem_append, List.mem_map, List.mem_singleton] at he
  rcases he with (he | ⟨n, -, rfl⟩) | rfl
  · rw [Packet.mem_barrierEntries he]
  · rfl
  · rfl

/-- No lane launches a dispatch while one it depends on is still open. -/
private theorem derivePolicies_separated (boundary : ApiBoundary)
    (reach : NodeId → NodeId → Bool) (lane : NodeId → ℕ) (q : ℕ) {lanes : Lanes}
    (before ds : List PlannedDispatch) {pending : List (Option NodeId)}
    (hp : ∀ t ∈ pending, ∃ e ∈ lanes.epochs q, t = some e.node) :
    Separated (Path reach) q pending
      ((derivePolicies boundary reach lane lanes before ds).2.flatMap DerivedDispatchPolicy.entries) := by
  induction ds generalizing lanes before pending with
  | nil => trivial
  | cons d ds ih =>
    rw [derivePolicies, List.flatMap_cons]
    generalize hpol : derivePolicy boundary reach lane lanes before d ds = p
    have hlane : p.lane = d.lane := by rw [← hpol]; rfl
    have hnode : p.node = d.node := by rw [← hpol]; rfl
    have hbar : p.header.barrier =
        decide (orderReasons reach lane (lanes.epochs d.lane) d ≠ []) := by rw [← hpol]; rfl
    by_cases hq : d.lane = q
    · have hlq : p.lane = q := hlane.trans hq
      have hepoch : (lanes.advance d p.header.barrier).epochs q =
          (if p.header.barrier then [] else lanes.epochs q) ++ [d] := by
        simp [Lanes.advance, hq]
      rw [DerivedDispatchPolicy.entries, List.append_assoc, List.append_assoc, Packet.barrierEntries]
      cases hb : p.header.barrier with
      | true =>
        rw [if_pos rfl, List.singleton_append, separated_drain hlq rfl, separated_skip awaits_passive,
          List.singleton_append, separated_launch hlq rfl]
        refine ⟨by simp, ih _ fun t ht => ⟨d, ?_, ?_⟩⟩
        · rw [← hb, hepoch]
          simp
        · simpa [hnode] using ht
      | false =>
        have hnone : orderReasons reach lane (lanes.epochs q) d = [] := by
          rw [hb, hq] at hbar
          simpa using hbar.symm
        rw [if_neg (by simp), List.nil_append, separated_skip awaits_passive, List.singleton_append,
          separated_launch hlq rfl]
        refine ⟨fun t ht => ?_, ih _ fun t ht => ?_⟩
        · obtain ⟨e, he, rfl⟩ := hp t ht
          rw [hnode]
          exact Path.not_of_no_reason hnone he
        · rw [← hb, hepoch, hb]
          rcases List.mem_cons.mp ht with rfl | ht
          · exact ⟨d, by simp, by rw [hnode]⟩
          · obtain ⟨e, he, rfl⟩ := hp t ht
            exact ⟨e, by simp [he], rfl⟩
    · rw [separated_skip fun e he heq => absurd ((hlane.symm.trans (entries_queue he).symm).trans heq) hq]
      refine ih _ fun t ht => ?_
      have hepoch : (lanes.advance d p.header.barrier).epochs q = lanes.epochs q :=
        Function.update_of_ne (Ne.symm hq) _ _
      rw [hepoch]
      exact hp t ht

end Loop
private theorem laneByNode_eq {ds : List PlannedDispatch}
    (h : (ds.map PlannedDispatch.node).Nodup) {d : PlannedDispatch} (hd : d ∈ ds) :
    laneByNode ds d.node = d.lane := by
  unfold laneByNode
  induction ds using List.reverseRecOn with
  | nil => simp at hd
  | append_singleton ds e ih =>
    rw [List.map_append, List.nodup_append] at h
    rw [List.foldl_append, List.foldl_cons, List.foldl_nil]
    rcases List.mem_append.mp hd with hd | hd
    · have hne : d.node ≠ e.node := h.2.2 _ (List.mem_map_of_mem hd) _ (by simp)
      rw [Function.update_of_ne hne]
      exact ih h.1 hd
    · rw [List.mem_singleton.mp hd, Function.update_self]

section Plan
variable {plan : CompiledPlan} {r : Recorder} {boundary : ApiBoundary}

/-- The policies derived for a plan. -/
private def policies (plan : CompiledPlan) (boundary : ApiBoundary) : List DerivedDispatchPolicy :=
  (derivePolicies boundary (reachability plan.dispatches) (laneByNode plan.dispatches) emptyLanes []
    plan.dispatches).2

private theorem jobs_entries (p : DerivedDispatchPolicy) : jobs p.entries = [p.node] := by
  rw [DerivedDispatchPolicy.entries, jobs_append, jobs_append, jobs_barrierEntries]
  simp [jobs]

private theorem writes_entries (p : DerivedDispatchPolicy) : writes p.entries = [(p.node, 0)] := by
  rw [DerivedDispatchPolicy.entries, writes_append, writes_append, writes_barrierEntries]
  simp [writes]

private theorem entries_jobs (ps : List DerivedDispatchPolicy) :
    jobs (ps.flatMap DerivedDispatchPolicy.entries) = ps.map DerivedDispatchPolicy.node ∧
    (writes (ps.flatMap DerivedDispatchPolicy.entries)).map Prod.fst =
      ps.map DerivedDispatchPolicy.node := by
  induction ps with
  | nil => exact ⟨rfl, rfl⟩
  | cons p ps ih =>
    rw [List.flatMap_cons, jobs_append, writes_append, List.map_append, ih.1, ih.2, jobs_entries,
      writes_entries]
    exact ⟨rfl, rfl⟩

private theorem launch_mem (ps : List DerivedDispatchPolicy) {n : NodeId} {l : ℕ}
    (h : (n, l) ∈ ps.map fun p => (p.node, p.lane)) :
    (⟨l, some n, .launch (some (n, 0))⟩ : Entry ℕ (Option NodeId) NodeId ℕ) ∈
      ps.flatMap DerivedDispatchPolicy.entries := by
  obtain ⟨p, hp, heq⟩ := List.mem_map.mp h
  cases heq
  exact List.mem_flatMap.mpr ⟨p, hp, by simp [DerivedDispatchPolicy.entries]⟩

/-- A dependency finishes before its dependent starts: through a cross-lane
wait, or through a barrier of their common lane. -/
private theorem edge_finishes (hv : r.Valid) (hs : plan.Schedules r) {a b : NodeId}
    (hab : Edge r.edges a b) :
    FinishesBefore ((policies plan boundary).flatMap DerivedDispatchPolicy.entries) (fun _ => 1)
      (some a) (some b) := by
  obtain ⟨d, hd, rfl⟩ := hs.dispatch_of_id (hv.edges_known a b hab).2
  obtain ⟨mid, post, hsplit⟩ := List.append_of_mem hd
  have hdep := (hs.dependencies d hd a).mpr hab
  obtain ⟨e, he, rfl⟩ := List.mem_map.mp (hs.earlier mid d post hsplit a hdep)
  have heplan : e ∈ plan.dispatches := by simp [hsplit, he]
  have hnodup := hs.nodes_nodup hv
  obtain ⟨hjobs, hwrites⟩ := entries_jobs (policies plan boundary)
  have hnodes : (policies plan boundary).map DerivedDispatchPolicy.node =
      plan.dispatches.map PlannedDispatch.node := derivePolicies_nodes
  have hone : OneShot ((policies plan boundary).flatMap DerivedDispatchPolicy.entries) := by
    rw [OneShot, hwrites, hnodes]
    exact hnodup
  have hjob (n : NodeId) := once_job (hjobs ▸ hnodes ▸ hnodup) n
  have hsep := derivePolicies_separated boundary (reachability plan.dispatches)
    (laneByNode plan.dispatches) d.lane [] plan.dispatches (by simp : ∀ t ∈ [], ∃ e ∈
      emptyLanes.epochs d.lane, t = some e.node)
  obtain ⟨lanes, P, Q, hpol, hP, -⟩ := derivePolicies_split boundary
    (reachability plan.dispatches) (laneByNode plan.dispatches) emptyLanes [] mid d post
  rw [← hsplit] at hpol
  have hlog : (policies plan boundary).flatMap DerivedDispatchPolicy.entries =
      P.flatMap DerivedDispatchPolicy.entries ++ ((derivePolicy boundary (reachability plan.dispatches)
        (laneByNode plan.dispatches) lanes ([] ++ mid) d post).entries ++
          Q.flatMap DerivedDispatchPolicy.entries) := by
    rw [policies, hpol, List.flatMap_append, List.flatMap_cons]
  have hfirst := launch_mem P (n := e.node) (l := e.lane) (hP ▸ List.mem_map_of_mem he)
  by_cases hl : e.lane = d.lane
  · refine hsep.finishesBefore (hjob _) (hjob _) (a := ⟨e.lane, some e.node, .launch (some (e.node, 0))⟩)
      (b := ⟨d.lane, some d.node, .launch (some (d.node, 0))⟩) ?_ rfl rfl hl rfl rfl rfl ?_
    · change List.Sublist _ ((policies plan boundary).flatMap DerivedDispatchPolicy.entries)
      rw [hlog]
      refine (List.singleton_sublist.mpr hfirst).append (List.singleton_sublist.mpr ?_)
      simp [DerivedDispatchPolicy.entries, derivePolicy]
    · exact ⟨_, _, rfl, rfl, (reachability_iff hv hs _ _).mpr (.single hab)⟩
  · have hreason : OrderReason.crossLaneDependency e.node ∈ orderReasons (reachability plan.dispatches)
        (laneByNode plan.dispatches) (lanes.epochs d.lane) d := by
      refine mem_orderReasons.mpr (.inl (List.mem_filterMap.mpr ⟨e.node, hdep, ?_⟩))
      rw [laneByNode_eq hnodup heplan, if_pos hl]
    have hguard : Guards ((policies plan boundary).flatMap DerivedDispatchPolicy.entries) (fun _ => 1)
        e.node 0 (some e.node) := by
      refine guards_of_completion hone (hjob _)
        (a := ⟨e.lane, some e.node, .launch (some (e.node, 0))⟩) ?_ rfl rfl (by decide)
      rw [hlog]
      exact List.mem_append_left _ hfirst
    refine hguard.finishesBefore hone (hjob _) (w := ⟨d.lane, none, .await e.node 0⟩)
      (b := ⟨d.lane, some d.node, .launch (some (d.node, 0))⟩) ?_ rfl rfl (by decide) rfl
    · rw [hlog]
      refine List.Sublist.trans ?_ ((List.sublist_append_left _ _).trans (List.sublist_append_right _ _))
      rw [DerivedDispatchPolicy.entries]
      refine (List.singleton_sublist.mpr (List.mem_append_right _ ?_)).append (List.Sublist.refl _)
      refine List.mem_map.mpr ⟨e.node, ?_, rfl⟩
      have hne : orderReasons (reachability plan.dispatches) (laneByNode plan.dispatches)
        (lanes.epochs d.lane) d ≠ [] := List.ne_nil_of_mem hreason
      simp only [derivePolicy, if_neg hne, crossLaneNodes, List.mem_filterMap]
      exact ⟨_, hreason, rfl⟩

private theorem conflicts_conflict {m n : Node} {d e : PlannedDispatch}
    {c : HazardKind × DeviceRegion} (hd : d.accesses = m.accesses) (he : e.accesses = n.accesses)
    (hc : c ∈ conflicts d e) : Conflict m n := by
  obtain ⟨a, ha, b, hb, ho, hk⟩ := mem_conflicts.mp hc
  exact ⟨a, hd ▸ ha, b, he ▸ hb,
    DeviceRegion.overlaps_iff.mp (DeviceRegion.intersection_isSome.mp ⟨_, ho⟩),
    hazardKind_isSome.mp ⟨_, hk⟩⟩

/-- In a hazard-free plan every conflict is ordered in plan order. -/
theorem conflicts_ordered (hv : r.Valid) (hs : plan.Schedules r) (hfree : r.HazardFree) :
    plan.dispatches.Pairwise fun d e => ∀ c ∈ conflicts d e,
      Relation.TransGen (Edge r.edges) d.node e.node := by
  have hback := List.pairwise_map.mp (hs.topo hv).no_path_back
  have hne := List.pairwise_map.mp (hs.nodes_nodup hv)
  refine (hback.and hne).imp_of_mem fun {d e} hd he ⟨hde, hnode⟩ c hc => ?_
  obtain ⟨m, hm, hmid, -, hma⟩ := hs.recorded d hd
  obtain ⟨n, hn, hnid, -, hna⟩ := hs.recorded e he
  have hmn : m ≠ n := by
    rintro rfl
    exact hnode (hmid.symm.trans hnid)
  have hord := hfree.ordered hm hn hmn (conflicts_conflict hma hna hc)
  rw [hmid, hnid] at hord
  exact hord.resolve_right hde

/-- A write and a later read share bytes. -/
def ReadsAfterWrite (d e : PlannedDispatch) : Prop :=
  ∃ a ∈ d.accesses, ∃ b ∈ e.accesses, a.mode = .write ∧ b.mode = .read ∧
    ∃ resource byte, a.region.Contains resource byte ∧ b.region.Contains resource byte

private theorem rawOverlaps_ne_nil {reach : NodeId → NodeId → Bool} {d e : PlannedDispatch}
    (hr : reach d.node e.node = true) (h : ReadsAfterWrite d e) : ∃ o, o ∈ rawOverlaps reach d e := by
  obtain ⟨a, ha, b, hb, hw, hrd, hov⟩ := h
  obtain ⟨o, ho⟩ := DeviceRegion.intersection_isSome.mpr (DeviceRegion.overlaps_iff.mpr hov)
  refine ⟨o, ?_⟩
  rw [rawOverlaps, if_pos hr, List.mem_filterMap]
  exact ⟨(.readAfterWrite, o), mem_conflicts.mpr ⟨a, ha, b, hb, ho, by rw [hw, hrd]; rfl⟩, rfl⟩

/-- Producer and consumer of an ordered read after write carry their fences. -/
private theorem raw_fences (hv : r.Valid) (hs : plan.Schedules r) {d e : PlannedDispatch}
    (hd : d ∈ plan.dispatches) (he : e ∈ plan.dispatches)
    (hp : Relation.TransGen (Edge r.edges) d.node e.node) (hraw : ReadsAfterWrite d e) :
    ∃ p ∈ policies plan boundary, ∃ q ∈ policies plan boundary, p.node = d.node ∧ q.node = e.node ∧
      FenceScope.agent.le p.header.release ∧ FenceScope.agent.le q.header.acquire := by
  obtain ⟨o, ho⟩ := rawOverlaps_ne_nil ((reachability_iff hv hs _ _).mpr hp) hraw
  have hback := List.pairwise_map.mp (hs.topo hv).no_path_back
  have hirrefl : d ≠ e := by
    rintro rfl
    exact hv.acyclic _ hp
  obtain ⟨pre, post, hsplit⟩ := List.append_of_mem hd
  have hepost : e ∈ post := by
    rw [hsplit, List.mem_append, List.mem_cons] at he
    rcases he with hpre | rfl | hpost
    · rw [hsplit] at hback
      exact absurd hp ((List.pairwise_append.mp hback).2.2 e hpre d List.mem_cons_self)
    · exact absurd rfl hirrefl
    · exact hpost
  obtain ⟨mid, last, rfl⟩ := List.append_of_mem hepost
  have hsplit' : plan.dispatches = (pre ++ d :: mid) ++ e :: last := by simpa using hsplit
  obtain ⟨lanes, P, Q, hpol, -, -⟩ := derivePolicies_split boundary
    (reachability plan.dispatches) (laneByNode plan.dispatches) emptyLanes [] pre d (mid ++ e :: last)
  obtain ⟨lanes', P', Q', hpol', -, -⟩ := derivePolicies_split boundary
    (reachability plan.dispatches) (laneByNode plan.dispatches) emptyLanes [] (pre ++ d :: mid) e last
  rw [← hsplit] at hpol
  rw [← hsplit'] at hpol'
  refine ⟨_, by rw [policies, hpol]; exact List.mem_append_right _ List.mem_cons_self,
    _, by rw [policies, hpol']; exact List.mem_append_right _ List.mem_cons_self, rfl, rfl, ?_, ?_⟩
  · have hne : releaseReasons (reachability plan.dispatches) d (mid ++ e :: last) ≠ [] := by
      refine List.ne_nil_of_mem (List.mem_flatMap.mpr ⟨e, by simp, List.mem_map_of_mem ho⟩)
    simp only [derivePolicy, if_neg hne]
    decide
  · have hne : acquireReasons (reachability plan.dispatches) ([] ++ (pre ++ d :: mid)) e ≠ [] := by
      refine List.ne_nil_of_mem (List.mem_flatMap.mpr ⟨d, by simp, List.mem_map_of_mem ho⟩)
    simp only [derivePolicy, if_neg hne]
    split
    · exact le_maxScope_left _ _
    · decide

end Plan

/-- Deriving visibility for a compiled plan succeeds, orders every transitive
dependency in every execution and fences every ordered read after write. -/
theorem deriveAqlVisibility_sound (sha256 : List UInt8 → Sha256Digest) (owner : ℕ)
    (calls : List Recorder.Call) (options : CompileOptions) (plan : CompiledPlan)
    (boundary : ApiBoundary) (hplan : compile sha256 (.run owner calls) options = .ok plan)
    (hne : plan.dispatches ≠ []) :
    ∃ v, deriveAqlVisibility plan boundary = .ok v ∧
      v.dispatches.map DerivedDispatchPolicy.node = plan.dispatches.map PlannedDispatch.node ∧
      (∀ a b, Relation.TransGen (Edge (Recorder.run owner calls).edges) a b →
        FinishesBefore v.entries (fun _ => 1) (some a) (some b)) ∧
      ∀ d ∈ plan.dispatches, ∀ e ∈ plan.dispatches,
        Relation.TransGen (Edge (Recorder.run owner calls).edges) d.node e.node →
        ReadsAfterWrite d e → ∃ p ∈ v.dispatches, ∃ q ∈ v.dispatches,
          p.node = d.node ∧ q.node = e.node ∧
          FenceScope.agent.le p.header.release ∧ FenceScope.agent.le q.header.acquire := by
  have hv := Recorder.run_valid owner calls
  obtain ⟨hs, hfree⟩ := compile_schedules hv hplan
  have hordered : firstUnordered (reachability plan.dispatches) plan.dispatches = none :=
    firstUnordered_none ((conflicts_ordered hv hs hfree).imp fun h c hc =>
      (reachability_iff hv hs _ _).mpr (h c hc))
  refine ⟨_, by rw [deriveAqlVisibility, if_neg hne]; simp only [hordered]; rfl,
    derivePolicies_nodes, fun a b hab => ?_, fun d hd e he hp hraw => raw_fences hv hs hd he hp hraw⟩
  induction hab with
  | single hab => exact edge_finishes hv hs hab
  | tail _ hbc ih =>
    refine ih.trans ?_ (edge_finishes hv hs hbc)
    obtain ⟨d, hd, rfl⟩ := hs.dispatch_of_id (hv.edges_known _ _ hbc).1
    have hmem : d.node ∈ (policies plan boundary).map DerivedDispatchPolicy.node := by
      rw [policies, derivePolicies_nodes]
      exact List.mem_map_of_mem hd
    obtain ⟨p, hp, hpn⟩ := List.mem_map.mp hmem
    exact ⟨⟨p.lane, some p.node, .launch (some (p.node, 0))⟩,
      List.mem_flatMap.mpr ⟨p, hp, by simp [DerivedDispatchPolicy.entries]⟩, congrArg some hpn⟩

/-- A one-work-item launch of the named kernel. -/
def unitLaunch (kernel : String) : KernelLaunch :=
  ⟨kernel, ⟨1, 1, 1⟩, ⟨1, 1, 1⟩, 0, [], none, none, .one⟩

/-- One dispatch writes eight bytes that a second one reads. -/
def producerConsumer : List Recorder.Call :=
  let region : DeviceRegion := ⟨⟨0, 0⟩, 0, 8, by decide, by decide⟩
  [.resource "activation" 8, .dispatch (unitLaunch "produce") [⟨region, .write⟩],
    .dispatch (unitLaunch "consume") [⟨region, .read⟩], .dependsOn ⟨0, 1⟩ ⟨0, 0⟩]

def twoLanes : CompileOptions := ⟨⟨2, by decide, by decide⟩, .tokenLatency⟩

theorem producerConsumer_visible : ∃ plan v,
    compile (fun _ => ⟨Vector.replicate 32 0⟩) (.run 0 producerConsumer) twoLanes = .ok plan ∧
    plan.dispatches.length = 2 ∧
    deriveAqlVisibility plan ⟨.hostToAql, .aqlToHost⟩ = .ok v ∧
    Queue.FinishesBefore v.entries (fun _ => 1) (some ⟨0, 0⟩) (some ⟨0, 1⟩) := by
  obtain ⟨v, hv, -, hbefore, -⟩ := deriveAqlVisibility_sound (fun _ => ⟨Vector.replicate 32 0⟩) 0
    producerConsumer twoLanes _ ⟨.hostToAql, .aqlToHost⟩ rfl (by decide)
  exact ⟨_, v, rfl, rfl, hv, hbefore _ _ (.single (by decide))⟩
end Hipscope.Redline.Visibility
