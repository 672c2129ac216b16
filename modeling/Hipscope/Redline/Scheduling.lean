import Hipscope.Redline.Plan

/-! Compilation is sound and complete: the lane schedule keeps the order of
the DAG and only unordered conflicts are rejected. -/
namespace Hipscope.Redline
open Hipscope.Graph

private theorem foldl_min_mem {α : Type} (lt : α → α → Bool) (l : List α) (a : α) :
    l.foldl (fun best x => if lt x best then x else best) a ∈ a :: l := by
  induction l generalizing a with
  | nil => exact List.mem_cons_self
  | cons x l ih =>
    rw [List.foldl_cons]
    rcases List.mem_cons.mp (ih (if lt x a then x else a)) with h | h
    · rw [h]
      split <;> simp
    · exact List.mem_cons_of_mem _ (List.mem_cons_of_mem _ h)

/-- Some lane is chosen, and its placement starts after the lane and the
dependencies are free. -/
theorem choosePlacement_spec {laneAvailable : List ℕ} (h : 0 < laneAvailable.length)
    (dependencyFinish work : ℕ) : ∃ p t, choosePlacement laneAvailable dependencyFinish work = some p ∧
      laneAvailable[p.lane]? = some t ∧ p.start = max t dependencyFinish ∧
      p.finish = saturatingAdd p.start work := by
  unfold choosePlacement minBy
  split
  · rename_i hnil
    simp only [List.map_eq_nil_iff, List.zipIdx_eq_nil_iff] at hnil
    simp [hnil] at h
  · rename_i a l hl
    have hmem := foldl_min_mem Placement.lt l a
    rw [← hl, List.mem_map] at hmem
    obtain ⟨⟨t, lane⟩, ht, heq⟩ := hmem
    refine ⟨_, t, rfl, ?_⟩
    rw [← heq]
    exact ⟨List.mk_mem_zipIdx_iff_getElem?.mp ht, rfl, rfl⟩

theorem le_foldl_max {l : List ℕ} {a : ℕ} : a ≤ l.foldl max a ∧ ∀ x ∈ l, x ≤ l.foldl max a := by
  induction l generalizing a with
  | nil => simp
  | cons y l ih =>
    obtain ⟨h1, h2⟩ := ih (a := max a y)
    rw [List.foldl_cons]
    refine ⟨le_trans (le_max_left _ _) h1, fun x hx => ?_⟩
    rcases List.mem_cons.mp hx with rfl | hx
    · exact le_trans (le_max_right _ _) h1
    · exact h2 x hx

private theorem foldl_max_le {l : List ℕ} {a b : ℕ} (ha : a ≤ b) (h : ∀ x ∈ l, x ≤ b) :
    l.foldl max a ≤ b := by
  induction l generalizing a with
  | nil => exact ha
  | cons y l ih =>
    exact ih (max_le ha (h y List.mem_cons_self)) fun x hx => h x (List.mem_cons_of_mem _ hx)

/-- The schedule after a prefix of the order. -/
structure Placed (r : Recorder) (laneCount : ℕ) (order : List NodeId) (s : Schedule) : Prop where
  nodes : s.dispatches.map PlannedDispatch.node = order
  lanes : s.laneAvailable.length = laneCount
  bounded : (∀ t ∈ s.laneAvailable, t ≤ u64Max) ∧ ∀ n, s.nodeFinish n ≤ u64Max
  recorded : ∀ d ∈ s.dispatches, ∃ n ∈ r.nodes, n.id = d.node ∧ d.launch = n.launch ∧
    d.accesses = n.accesses
  dependencies : ∀ d ∈ s.dispatches, d.dependencies = predecessors r.edges d.node
  finished : ∀ d ∈ s.dispatches, s.nodeFinish d.node = d.estimatedEnd
  available : ∀ d ∈ s.dispatches, ∃ t, s.laneAvailable[d.lane]? = some t ∧ d.estimatedEnd ≤ t
  disjoint : s.dispatches.Pairwise fun d e => d.lane = e.lane → d.estimatedEnd ≤ e.estimatedStart
  starts : ∀ d ∈ s.dispatches, ∀ e ∈ s.dispatches, e.node ∈ d.dependencies →
    e.estimatedEnd ≤ d.estimatedStart

private theorem placed_init (r : Recorder) (laneCount : ℕ) :
    Placed r laneCount [] ⟨List.replicate laneCount 0, fun _ => 0, []⟩ where
  nodes := rfl
  lanes := List.length_replicate
  bounded := ⟨fun t ht => by simp [List.mem_replicate.mp ht], fun _ => Nat.zero_le _⟩
  recorded := by simp
  dependencies := by simp
  finished := by simp
  available := by simp
  disjoint := .nil
  starts := by simp

/-- Placing one node after its predecessors. -/
private theorem Placed.step {r : Recorder} (hv : r.Valid) {laneCount : ℕ} (hlanes : 0 < laneCount)
    {order : List NodeId} {s : Schedule} (h : Placed r laneCount order s) {x : NodeId}
    (hx : x ∈ r.ids) (hnew : x ∉ order) (hback : ∀ a ∈ order, ¬ Edge r.edges x a)
    (hself : ¬ Edge r.edges x x) : Placed r laneCount (order ++ [x]) (s.place r x) := by
  obtain ⟨n, hn, hmem, hid⟩ := hv.node_of_id hx
  obtain ⟨p, t, hp, ht, hstart, hfinish⟩ := choosePlacement_spec (h.lanes ▸ hlanes)
    (((predecessors r.edges x).map s.nodeFinish).foldl max 0) n.launch.estimatedWork.get
  have hplane : p.lane < s.laneAvailable.length := (List.getElem?_eq_some_iff.mp ht).1
  have htb : t ≤ u64Max := h.bounded.1 t (List.mem_of_getElem? ht)
  have hdepb : ((predecessors r.edges x).map s.nodeFinish).foldl max 0 ≤ u64Max := by
    refine foldl_max_le (Nat.zero_le _) fun y hy => ?_
    obtain ⟨a, -, rfl⟩ := List.mem_map.mp hy
    exact h.bounded.2 a
  have hle : p.start ≤ p.finish ∧ p.finish ≤ u64Max := by
    rw [hfinish, saturatingAdd]
    omega
  have hold {d : PlannedDispatch} (hd : d ∈ s.dispatches) : d.node ∈ order :=
    h.nodes ▸ List.mem_map_of_mem hd
  rw [Schedule.place, hn]
  simp only [hp]
  refine ⟨?_, ?_, ⟨?_, ?_⟩, ?_, ?_, ?_, ?_, ?_, ?_⟩
  · simp [h.nodes]
  · simpa using h.lanes
  · intro u hu
    rcases List.mem_or_eq_of_mem_set hu with hu | rfl
    · exact h.bounded.1 u hu
    · exact hle.2
  · intro a
    by_cases ha : a = x
    · simpa [ha] using hle.2
    · simpa [ha] using h.bounded.2 a
  · intro d hd
    rcases List.mem_append.mp hd with hd | hd
    · exact h.recorded d hd
    · obtain rfl := List.mem_singleton.mp hd
      exact ⟨n, hmem, hid, rfl, rfl⟩
  · intro d hd
    rcases List.mem_append.mp hd with hd | hd
    · exact h.dependencies d hd
    · obtain rfl := List.mem_singleton.mp hd
      rfl
  · intro d hd
    rcases List.mem_append.mp hd with hd | hd
    · simpa [Function.update_of_ne (ne_of_mem_of_not_mem (hold hd) hnew)] using h.finished d hd
    · obtain rfl := List.mem_singleton.mp hd
      simp
  · intro d hd
    rcases List.mem_append.mp hd with hd | hd
    · obtain ⟨u, hu, hdu⟩ := h.available d hd
      by_cases hl : p.lane = d.lane
      · refine ⟨p.finish, by simp [← hl, hplane], ?_⟩
        obtain rfl : u = t := by rw [← hl, ht] at hu; exact (Option.some.inj hu).symm
        omega
      · exact ⟨u, by simpa [List.getElem?_set_ne hl] using hu, hdu⟩
    · obtain rfl := List.mem_singleton.mp hd
      exact ⟨p.finish, by simp [hplane], le_rfl⟩
  · rw [List.pairwise_append]
    refine ⟨h.disjoint, List.pairwise_singleton .., ?_⟩
    intro d hd e he hlane
    obtain rfl := List.mem_singleton.mp he
    obtain ⟨u, hu, hdu⟩ := h.available d hd
    obtain rfl : u = t := by rw [hlane, ht] at hu; exact (Option.some.inj hu).symm
    simp only [hstart]
    omega
  · intro d hd e he hdep
    rcases List.mem_append.mp hd with hd | hd <;> rcases List.mem_append.mp he with he | he
    · exact h.starts d hd e he hdep
    · -- a placed node does not depend on the new one
      obtain rfl := List.mem_singleton.mp he
      rw [h.dependencies d hd, mem_predecessors] at hdep
      exact absurd hdep (hback _ (hold hd))
    · obtain rfl := List.mem_singleton.mp hd
      have hpred : e.node ∈ predecessors r.edges x := hdep
      have hmax := (le_foldl_max (a := 0)).2 _ (List.mem_map_of_mem (f := s.nodeFinish) hpred)
      rw [h.finished e he] at hmax
      simp only [hstart]
      omega
    · obtain rfl := List.mem_singleton.mp hd
      obtain rfl := List.mem_singleton.mp he
      exact absurd (mem_predecessors.mp hdep) hself

/-- The whole run of the lane scheduler over a topological order. -/
private theorem schedule_placed {r : Recorder} (hv : r.Valid) {laneCount : ℕ} (hlanes : 0 < laneCount)
    {order : List NodeId} (hmem : ∀ a ∈ order, a ∈ r.ids) (hnodup : order.Nodup)
    (hordered : order.Pairwise fun a b => ¬ Edge r.edges b a) :
    Placed r laneCount order (schedule r order laneCount) := by
  unfold schedule
  induction order using List.reverseRecOn with
  | nil => exact placed_init r laneCount
  | append_singleton order x ih =>
    rw [List.foldl_append]
    obtain ⟨hnd, -, hdisj⟩ := List.nodup_append.mp hnodup
    obtain ⟨hord, -, hcross⟩ := List.pairwise_append.mp hordered
    refine (ih (fun a ha => hmem a (by simp [ha])) hnd hord).step hv hlanes (hmem x (by simp)) ?_ ?_ ?_
    · exact fun hx => hdisj x hx x (by simp) rfl
    · exact fun a ha => hcross a ha x (by simp)
    · exact fun he => hv.acyclic x (.single he)

private theorem mem_terminalNodes {r : Recorder} {a : NodeId} :
    a ∈ terminalNodes r ↔ a ∈ r.ids ∧ ∀ b, ¬ Edge r.edges a b := by
  simp only [terminalNodes, Recorder.ids, List.mem_map, List.mem_filter, Bool.not_eq_true',
    List.any_eq_false, decide_eq_true_eq, Edge]
  constructor
  · rintro ⟨n, ⟨hn, he⟩, rfl⟩
    exact ⟨⟨n, hn, rfl⟩, fun b hb => he (n.id, b) hb rfl⟩
  · rintro ⟨⟨n, hn, rfl⟩, he⟩
    exact ⟨n, ⟨hn, fun e hmem heq => he e.2 (heq ▸ hmem)⟩, rfl⟩

/-- A prerequisite cannot stand at or after its dependent. -/
private theorem earlier_of_topo {edges : List (NodeId × NodeId)} {order before after : List NodeId}
    {a x : NodeId} (h : TopoSuffix edges order) (hsplit : before ++ x :: after = order)
    (ha : Edge edges a x) (hmem : a ∈ order) : a ∈ before := by
  rw [← hsplit, List.mem_append, List.mem_cons] at hmem
  have hafter := (List.pairwise_cons.mp (List.pairwise_append.mp (hsplit ▸ h.ordered)).2.1).1
  rcases hmem with hb | rfl | haf
  · exact hb
  · exact absurd ha (h.irrefl a (hsplit ▸ by simp))
  · exact absurd ha (hafter a haf)

/-- Every outcome of compilation once the kernel contracts hold. -/
private theorem compile_eq (sha256 : List UInt8 → Sha256Digest) {r : Recorder} (hv : r.Valid)
    (options : CompileOptions) (hc : validateKernelContracts r = .ok ()) :
    ∃ order, TopoSuffix r.edges order ∧ order.Perm r.ids ∧
      ((∃ plan, compile sha256 r options = .ok plan ∧ plan.Schedules r ∧
          unorderedHazards (r.reachability order) r.nodes = []) ∨
        (compile sha256 r options =
            .error (.unorderedHazards (unorderedHazards (r.reachability order) r.nodes)) ∧
          unorderedHazards (r.reachability order) r.nodes ≠ [])) := by
  obtain ⟨order, htopo, hperm, hordered⟩ := hv.topologicalOrder_ok
  have hmem (a : NodeId) (ha : a ∈ order) : a ∈ r.ids := hperm.mem_iff.mp ha
  have hnodup : order.Nodup := hperm.nodup_iff.mpr hv.ids_nodup
  have hsuffix : TopoSuffix r.edges order := ⟨hnodup, hordered,
    fun a _ b hab => hperm.mem_iff.mpr (hv.edges_known a b hab).2,
    fun a _ he => hv.acyclic a (.single he)⟩
  refine ⟨order, hsuffix, hperm, ?_⟩
  simp only [compile, hc, htopo, bind, Except.bind]
  split
  · exact .inr ⟨rfl, ‹_›⟩
  · rename_i hz
    refine .inl ⟨_, rfl, ?_, not_not.mp hz⟩
    have hp := schedule_placed hv options.laneCount.pos hmem hnodup hordered
    exact {
      perm := by
        simp only [hp.nodes]
        exact hperm
      recorded := hp.recorded
      dependencies := fun d hd a => by rw [hp.dependencies d hd, mem_predecessors]
      earlier := fun before d after heq a ha => by
        have heq' : (schedule r order options.laneCount.get).dispatches = before ++ d :: after := heq
        have hsplit := hp.nodes
        rw [hp.dependencies d (heq' ▸ by simp), mem_predecessors] at ha
        rw [heq', List.map_append, List.map_cons] at hsplit
        exact earlier_of_topo hsuffix hsplit ha (hperm.mem_iff.mpr (hv.edges_known a _ ha).1)
      lane_lt := fun d hd => by
        obtain ⟨t, ht, -⟩ := hp.available d hd
        simpa [hp.lanes] using (List.getElem?_eq_some_iff.mp ht).1
      lanes_disjoint := hp.disjoint
      starts := hp.starts
      terminals := fun a => mem_terminalNodes
      terminals_nodup := hv.ids_nodup.sublist (List.filter_sublist.map Node.id) }

/-- The scan finds exactly the conflicting pairs that no path orders. -/
private theorem hazards_iff {r : Recorder} {order : List NodeId}
    (hs : TopoSuffix r.edges order) (hperm : order.Perm r.ids) (h : Hazard) :
    h ∈ unorderedHazards (r.reachability order) r.nodes ↔
      ∃ first second, [first, second].Sublist r.nodes ∧ ¬ r.Ordered first.id second.id ∧
        h ∈ pairHazards first second := by
  rw [mem_unorderedHazards]
  refine exists_congr fun first => exists_congr fun second => and_congr_right fun hsub => ?_
  have hmem (n : Node) (hn : n ∈ [first, second]) : n.id ∈ order :=
    hperm.mem_iff.mpr (List.mem_map_of_mem (hsub.subset hn))
  rw [← Bool.not_eq_true, ← Bool.not_eq_true, Recorder.reachability_iff hs, Recorder.reachability_iff hs, ← and_assoc]
  simp [Recorder.Ordered, hmem]


private theorem foldlM_error {ε α σ : Type} {f : σ → α → Except ε σ} {P : ε → Prop}
    (h : ∀ s a e, f s a = .error e → P e) {l : List α} {s : σ} {e : ε}
    (he : l.foldlM f s = .error e) : P e := by
  induction l generalizing s with
  | nil => cases he
  | cons a l ih =>
    rw [List.foldlM_cons] at he
    cases ha : f s a with
    | error e' =>
      rw [ha] at he
      cases he
      exact h s a e ha
    | ok s' =>
      rw [ha] at he
      exact ih he

private theorem argument_error {c : Contracts} {a : KernelArg} {e : CompileError}
    (h : c.argument a = .error e) (nodes : List NodeId) : e ≠ .cycle nodes := by
  cases a with
  | scalarSlot slot size =>
    simp only [Contracts.argument] at h
    split at h
    · split at h
      · cases h
        simp
      · cases h
    · cases h
  | scalar bytes => cases h
  | resource id offset => cases h

private theorem launch_error {c : Contracts} {l : KernelLaunch} {e : CompileError}
    (h : c.launch l = .error e) (nodes : List NodeId) : e ≠ .cycle nodes := by
  unfold Contracts.launch at h
  cases habi : Contracts.validateAbi l with
  | error e' =>
    rw [habi] at h
    cases h
    unfold Contracts.validateAbi at habi
    split at habi
    · cases habi
    · rename_i abi _
      cases hva : abi.validateArguments l.arguments <;> rw [hva] at habi <;> cases habi
      simp
  | ok _ =>
    rw [habi] at h
    change (l.arguments.foldlM Contracts.argument c >>= fun c => c.identity l) = .error e at h
    cases ha : l.arguments.foldlM Contracts.argument c with
    | error e' =>
      rw [ha] at h
      cases h
      exact foldlM_error (P := (· ≠ .cycle nodes)) (fun _ _ _ h => argument_error h nodes) ha
    | ok c' =>
      rw [ha] at h
      change c'.identity l = .error e at h
      simp only [Contracts.identity] at h
      split at h
      · cases h
        simp
      · cases h

private theorem contracts_error {r : Recorder} {e : CompileError}
    (h : validateKernelContracts r = .error e) (nodes : List NodeId) : e ≠ .cycle nodes := by
  unfold validateKernelContracts at h
  cases hf : r.nodes.foldlM (fun c node => c.launch node.launch)
      (⟨fun _ => none, fun _ => none⟩ : Contracts) with
  | error e' =>
    rw [hf] at h
    cases h
    exact foldlM_error (P := (· ≠ .cycle nodes)) (fun _ _ _ h => launch_error h nodes) hf
  | ok c =>
    rw [hf] at h
    cases h

private theorem compile_contracts_error {sha256 : List UInt8 → Sha256Digest} {r : Recorder}
    {options : CompileOptions} {e : CompileError} (h : validateKernelContracts r = .error e) :
    compile sha256 r options = .error e := by
  simp [compile, h, bind, Except.bind]

namespace CompiledPlan.Schedules
variable {plan : CompiledPlan} {r : Recorder}

theorem nodes_nodup (h : plan.Schedules r) (hv : r.Valid) :
    (plan.dispatches.map PlannedDispatch.node).Nodup :=
  h.perm.nodup_iff.mpr hv.ids_nodup

theorem dispatch_of_id (h : plan.Schedules r) {a : NodeId} (ha : a ∈ r.ids) :
    ∃ d ∈ plan.dispatches, d.node = a :=
  List.mem_map.mp (h.perm.mem_iff.mpr ha)

/-- The dispatches of a plan stand in topological order. -/
theorem topo (h : plan.Schedules r) (hv : r.Valid) :
    TopoSuffix r.edges (plan.dispatches.map PlannedDispatch.node) where
  nodup := h.nodes_nodup hv
  ordered := by
    rw [List.pairwise_map, List.pairwise_iff_getElem]
    intro i j hi hj hij hedge
    have hsplit : plan.dispatches = plan.dispatches.take i ++
        plan.dispatches[i] :: plan.dispatches.drop (i + 1) := by simp
    have hdep := (h.dependencies _ (List.getElem_mem hi) _).mpr hedge
    obtain ⟨d, hd, hnode⟩ := List.mem_map.mp (h.earlier _ _ _ hsplit _ hdep)
    obtain ⟨k, hk, rfl⟩ := List.mem_take_iff_getElem.mp hd
    have hnd := List.pairwise_iff_getElem.mp (List.pairwise_map.mp (h.nodes_nodup hv))
    exact hnd k j (by omega) hj (by omega) hnode
  closed a _ b hab := h.perm.mem_iff.mpr (hv.edges_known a b hab).2
  irrefl a _ he := hv.acyclic a (.single he)

end CompiledPlan.Schedules

/-- Every conflicting pair of recorded dispatches is ordered by a path. -/
def Recorder.HazardFree (r : Recorder) : Prop :=
  ∀ first second, [first, second].Sublist r.nodes → Conflict first second →
    r.Ordered first.id second.id

theorem Recorder.HazardFree.ordered {r : Recorder} (h : r.HazardFree) {m n : Node} (hm : m ∈ r.nodes)
    (hn : n ∈ r.nodes) (hne : m ≠ n) (hc : Conflict m n) : r.Ordered m.id n.id := by
  rcases pair_sublist hm hn hne with hs | hs
  · exact h m n hs hc
  · exact (h n m hs hc.symm).symm

private theorem hazards_nil_iff {r : Recorder} {order : List NodeId} (hs : TopoSuffix r.edges order)
    (hperm : order.Perm r.ids) :
    unorderedHazards (r.reachability order) r.nodes = [] ↔ r.HazardFree := by
  rw [List.eq_nil_iff_forall_not_mem]
  constructor
  · intro hnone first second hsub hconf
    by_contra hord
    obtain ⟨h, hh⟩ := pairHazards_nonempty.mpr hconf
    exact hnone h ((hazards_iff hs hperm h).mpr ⟨first, second, hsub, hord, hh⟩)
  · intro hall h hh
    obtain ⟨first, second, hsub, hord, hmem⟩ := (hazards_iff hs hperm h).mp hh
    exact hord (hall first second hsub (pairHazards_nonempty.mp ⟨h, hmem⟩))

/-- A successful compilation schedules the recorded DAG and found no hazard. -/
theorem compile_schedules {sha256 : List UInt8 → Sha256Digest} {r : Recorder} (hv : r.Valid)
    {options : CompileOptions} {plan : CompiledPlan} (h : compile sha256 r options = .ok plan) :
    plan.Schedules r ∧ r.HazardFree := by
  cases hc : validateKernelContracts r with
  | error e =>
    rw [compile_contracts_error hc] at h
    cases h
  | ok _ =>
    obtain ⟨order, htopo, hperm, ⟨plan', hok, hs, hnil⟩ | ⟨herr, -⟩⟩ := compile_eq sha256 hv options hc
    · rw [hok] at h
      cases h
      exact ⟨hs, (hazards_nil_iff htopo hperm).mp hnil⟩
    · rw [herr] at h
      cases h

/-- Compilation of any recorded call sequence: no cycle is ever reported, valid
contracts leave only unordered conflicts as a reason to fail and these are
listed exactly, and an accepted plan schedules the DAG. -/
theorem compile_sound_complete (sha256 : List UInt8 → Sha256Digest) (owner : ℕ)
    (calls : List Recorder.Call) (options : CompileOptions) :
    (∀ nodes, compile sha256 (.run owner calls) options ≠ .error (.cycle nodes)) ∧
    (validateKernelContracts (.run owner calls) = .ok () →
      ((∃ plan, compile sha256 (.run owner calls) options = .ok plan) ↔
        (Recorder.run owner calls).HazardFree) ∧
      (¬ (Recorder.run owner calls).HazardFree → ∃ hazards,
        compile sha256 (.run owner calls) options = .error (.unorderedHazards hazards) ∧
        ∀ h, h ∈ hazards ↔ ∃ first second, [first, second].Sublist (Recorder.run owner calls).nodes ∧
          ¬ (Recorder.run owner calls).Ordered first.id second.id ∧
          h.first = first.id ∧ h.second = second.id ∧
          ∃ a ∈ first.accesses, ∃ b ∈ second.accesses,
            a.region.intersection b.region = some h.overlap ∧
            hazardKind a.mode b.mode = some h.kind)) ∧
    (∀ plan, compile sha256 (.run owner calls) options = .ok plan →
      plan.Schedules (.run owner calls)) := by
  have hv := Recorder.run_valid owner calls
  refine ⟨fun nodes => ?_, fun hc => ?_, fun plan hplan => (compile_schedules hv hplan).1⟩
  · cases hc : validateKernelContracts (.run owner calls) with
    | error e =>
      rw [compile_contracts_error hc]
      exact fun h => contracts_error hc nodes (Except.error.inj h)
    | ok _ =>
      obtain ⟨order, -, -, ⟨plan, hok, -, -⟩ | ⟨herr, -⟩⟩ := compile_eq sha256 hv options hc
      · simp [hok]
      · simp [herr]
  · obtain ⟨order, hs, hperm, hcase⟩ := compile_eq sha256 hv options hc
    have hfree := hazards_nil_iff hs hperm
    rcases hcase with ⟨plan, hok, -, hnil⟩ | ⟨herr, hne⟩
    · exact ⟨iff_of_true ⟨plan, hok⟩ (hfree.mp hnil), fun hn => absurd (hfree.mp hnil) hn⟩
    · refine ⟨iff_of_false (by simp [herr]) fun hf => hne (hfree.mpr hf), fun _ => ⟨_, herr, fun h => ?_⟩⟩
      simp only [hazards_iff hs hperm h, mem_pairHazards]

end Hipscope.Redline
