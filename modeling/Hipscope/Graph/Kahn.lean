import Hipscope.Graph.Search
import Mathlib.Data.List.Nodup
import Mathlib.Data.List.Count
import Mathlib.Data.List.Perm.Basic
import Mathlib.Data.List.Perm.Subperm

/-! Indegree-driven draining of a finite graph. Nothing fixes the order in
which the ready nodes are taken. -/
namespace Hipscope.Graph
variable {α : Type} [DecidableEq α]

/-- Take one incoming edge off every target, collecting those left with none. -/
def release : (α → ℕ) → List α → (α → ℕ) × List α
  | deg, [] => (deg, [])
  | deg, t :: ts =>
    let deg' := Function.update deg t (deg t - 1)
    let rest := release deg' ts
    (rest.1, if deg' t = 0 then t :: rest.2 else rest.2)

theorem release_deg {deg : α → ℕ} {ts : List α} (h : ts.Nodup) (a : α) :
    (release deg ts).1 a = if a ∈ ts then deg a - 1 else deg a := by
  induction ts generalizing deg with
  | nil => simp [release]
  | cons t ts ih =>
    have ht := (List.nodup_cons.mp h).1
    simp only [release, ih (List.nodup_cons.mp h).2]
    by_cases hat : a = t
    · subst hat
      simp [ht]
    · simp [hat]

theorem release_sublist (deg : α → ℕ) (ts : List α) : (release deg ts).2.Sublist ts := by
  induction ts generalizing deg with
  | nil => simp [release]
  | cons t ts ih =>
    simp only [release]
    split
    · exact (ih _).cons_cons t
    · exact (ih _).cons t

theorem mem_release {deg : α → ℕ} {ts : List α} (h : ts.Nodup) {a : α} :
    a ∈ (release deg ts).2 ↔ a ∈ ts ∧ deg a - 1 = 0 := by
  induction ts generalizing deg with
  | nil => simp [release]
  | cons t ts ih =>
    obtain ⟨ht, hts⟩ := List.nodup_cons.mp h
    have hrest : a ∈ (release (Function.update deg t (deg t - 1)) ts).2 ↔
        a ∈ ts ∧ deg a - 1 = 0 := by
      rw [ih hts]
      refine and_congr_right fun ha => ?_
      rw [Function.update_of_ne (ne_of_mem_of_not_mem ha ht)]
    simp only [release, Function.update_self]
    split
    · rename_i hzero
      rw [List.mem_cons, List.mem_cons, hrest, or_and_right]
      refine or_congr_left ⟨?_, And.left⟩
      rintro rfl
      exact ⟨rfl, hzero⟩
    · rename_i hpos
      rw [hrest, List.mem_cons, or_and_right]
      refine ⟨.inr, fun hmem => hmem.resolve_left ?_⟩
      rintro ⟨rfl, hzero⟩
      exact hpos hzero

/-- Incoming edges of a node from nodes that were not emitted yet. -/
def pendingDegree (succ : α → List α) (nodes done : List α) (a : α) : ℕ :=
  nodes.countP fun b => b ∉ done ∧ a ∈ succ b

private theorem pendingDegree_snoc (succ : α → List α) {nodes done : List α} {x : α}
    (hnodup : nodes.Nodup) (hx : x ∈ nodes) (hdone : x ∉ done) (a : α) :
    pendingDegree succ nodes done a =
      pendingDegree succ nodes (done ++ [x]) a + if a ∈ succ x then 1 else 0 := by
  have hperm := List.perm_cons_erase hx
  have herase : ∀ b ∈ nodes.erase x, b ≠ x := fun b hb => (hnodup.mem_erase_iff.mp hb).1
  simp only [pendingDegree, hperm.countP_eq, List.countP_cons]
  rw [List.countP_congr (q := fun b => decide (b ∉ done ++ [x] ∧ a ∈ succ b))]
  · simp [hdone]
  · intro b hb
    simp [herase b hb]

/-- The state of a drain: emitted nodes, ready nodes and remaining indegrees. -/
structure Draining (succ : α → List α) (nodes done ready : List α) (deg : α → ℕ) : Prop where
  nodup : (done ++ ready).Nodup
  sub : ∀ a ∈ done ++ ready, a ∈ nodes
  degree : ∀ a, deg a = pendingDegree succ nodes done a
  ready_iff : ∀ a ∈ nodes, a ∉ done → (a ∈ ready ↔ deg a = 0)
  closed : ∀ a ∈ done, ∀ b ∈ nodes, a ∈ succ b → b ∈ done
  ordered : done.Pairwise fun a b => a ∉ succ b

theorem draining_init {succ : α → List α} {nodes ready : List α} {deg : α → ℕ}
    (hnodup : ready.Nodup) (hready : ∀ a, a ∈ ready ↔ a ∈ nodes ∧ deg a = 0)
    (hdeg : ∀ a, deg a = nodes.countP fun b => a ∈ succ b) :
    Draining succ nodes [] ready deg where
  nodup := by simpa using hnodup
  sub a ha := ((hready a).mp (by simpa using ha)).1
  degree a := by simp [pendingDegree, hdeg]
  ready_iff a ha _ := by simp [hready, ha]
  closed a ha := by simp at ha
  ordered := .nil

namespace Draining
variable {succ : α → List α} {nodes done ready : List α} {deg : α → ℕ}

theorem perm {ready' : List α} (h : Draining succ nodes done ready deg)
    (hp : ready'.Perm ready) : Draining succ nodes done ready' deg where
  nodup := (hp.append_left done).nodup_iff.mpr h.nodup
  sub a ha := h.sub a ((hp.append_left done).mem_iff.mp ha)
  degree := h.degree
  ready_iff a ha hd := by rw [hp.mem_iff, h.ready_iff a ha hd]
  closed := h.closed
  ordered := h.ordered

private theorem pred_pending (h : Draining succ nodes done ready deg) {x a : α} (hx : x ∈ nodes)
    (hdone : x ∉ done) (ha : a ∈ succ x) : 0 < deg a := by
  rw [h.degree, pendingDegree, List.countP_pos_iff]
  exact ⟨x, hx, by simp [hdone, ha]⟩

/-- Emitting a ready node releases its successors. -/
theorem step {x : α} {rest : List α} (h : Draining succ nodes done (x :: rest) deg)
    (hnodes : nodes.Nodup) (hsucc : (succ x).Nodup) (hsub : ∀ a ∈ succ x, a ∈ nodes) :
    Draining succ nodes (done ++ [x]) ((release deg (succ x)).2 ++ rest)
      (release deg (succ x)).1 := by
  have hperm : (done ++ x :: rest).Perm (x :: (done ++ rest)) := List.perm_middle
  obtain ⟨hxout, hout⟩ := List.nodup_cons.mp (hperm.nodup_iff.mp h.nodup)
  obtain ⟨hxdone, hxrest⟩ : x ∉ done ∧ x ∉ rest := by simpa using hxout
  have hxnodes : x ∈ nodes := h.sub x (by simp)
  have hready {a : α} (ha : a ∈ x :: rest) : deg a = 0 := by
    have hd : a ∉ done := fun hd => List.disjoint_of_nodup_append h.nodup hd ha
    exact (h.ready_iff a (h.sub a (List.mem_append_right _ ha)) hd).mp ha
  have hpend {a : α} (ha : a ∈ succ x) : 0 < deg a := h.pred_pending hxnodes hxdone ha
  have hfresh {a : α} (ha : a ∈ succ x) : a ∉ done ∧ a ≠ x ∧ a ∉ rest := by
    refine ⟨fun hd => hxdone (h.closed a hd x hxnodes ha), ?_, ?_⟩
    · rintro rfl
      have := hpend ha
      rw [hready List.mem_cons_self] at this
      omega
    · intro hr
      have := hpend ha
      rw [hready (List.mem_cons_of_mem _ hr)] at this
      omega
  have hrel {a : α} (ha : a ∈ (release deg (succ x)).2) : a ∈ succ x :=
    (release_sublist deg (succ x)).subset ha
  refine ⟨?_, ?_, ?_, ?_, ?_, ?_⟩
  · have hall : (x :: (done ++ rest)).Nodup := List.nodup_cons.mpr ⟨hxout, hout⟩
    have hmix : (done ++ [x] ++ ((release deg (succ x)).2 ++ rest)).Perm
        ((release deg (succ x)).2 ++ (x :: (done ++ rest))) := by
      have hswap := List.perm_append_comm_assoc (done ++ [x]) (release deg (succ x)).2 rest
      rw [List.append_assoc done [x] rest] at hswap
      exact hswap.trans (hperm.append_left _)
    rw [hmix.nodup_iff, List.nodup_append]
    refine ⟨(release_sublist deg (succ x)).nodup hsucc, hall, ?_⟩
    rintro a ha b hb rfl
    obtain ⟨h1, h2, h3⟩ := hfresh (hrel ha)
    simp [h1, h2, h3] at hb
  · intro a ha
    simp only [List.mem_append, List.mem_singleton] at ha
    rcases ha with (ha | rfl) | ha | ha
    · exact h.sub a (by simp [ha])
    · exact hxnodes
    · exact hsub a (hrel ha)
    · exact h.sub a (by simp [ha])
  · intro a
    have hsnoc := pendingDegree_snoc succ hnodes hxnodes hxdone a
    rw [release_deg hsucc, h.degree a]
    split at hsnoc
    · rename_i ha
      rw [if_pos ha]
      omega
    · rename_i ha
      rw [if_neg ha]
      omega
  · intro a ha hd
    obtain ⟨hd, hax⟩ : a ∉ done ∧ a ≠ x := by simpa using hd
    rw [List.mem_append, mem_release hsucc, release_deg hsucc]
    by_cases has : a ∈ succ x
    · simp [has, (hfresh has).2.2]
    · have := h.ready_iff a ha hd
      simp only [List.mem_cons, hax, false_or] at this
      simp [has, this]
  · intro a ha b hb hab
    simp only [List.mem_append, List.mem_singleton] at ha ⊢
    rcases ha with ha | rfl
    · exact .inl (h.closed a ha b hb hab)
    · by_contra hout
      have := h.pred_pending hb (fun hd => hout (.inl hd)) hab
      rw [hready List.mem_cons_self] at this
      omega
  · rw [List.pairwise_append]
    refine ⟨h.ordered, List.pairwise_singleton .., ?_⟩
    intro a ha b hb hab
    obtain rfl := List.mem_singleton.mp hb
    exact hxdone (h.closed a ha _ hxnodes hab)

theorem length_le (h : Draining succ nodes done ready deg) :
    done.length + ready.length ≤ nodes.length := by
  simpa using (List.subperm_of_subset h.nodup h.sub).length_le

/-- With nothing ready, a well-founded graph has been emitted completely. -/
theorem complete (h : Draining succ nodes done [] deg)
    (hwf : WellFounded fun a b => b ∈ succ a) (hnodes : nodes.Nodup) : done.Perm nodes := by
  have hall (a : α) : a ∈ nodes → a ∈ done := by
    induction a using hwf.induction with
    | _ a ih =>
      intro ha
      by_contra hd
      have hdeg : deg a ≠ 0 := fun hz => by simpa using (h.ready_iff a ha hd).mpr hz
      rw [h.degree, pendingDegree, ← Nat.pos_iff_ne_zero, List.countP_pos_iff] at hdeg
      obtain ⟨b, hb, hbd⟩ := hdeg
      obtain ⟨hbd, hab⟩ : b ∉ done ∧ a ∈ succ b := by simpa using hbd
      exact hbd (ih b hab hb)
  have hnodup : done.Nodup := by simpa using h.nodup
  exact (List.perm_ext_iff_of_nodup hnodup hnodes).mpr fun a =>
    ⟨fun ha => h.sub a (by simpa using ha), hall a⟩

end Draining
end Hipscope.Graph

/-! Draining a graph level by level: the whole ready set is emitted before the
nodes it releases are looked at. -/
namespace Hipscope.Graph
variable {α : Type} [DecidableEq α]

/-- Release the successors of every node of a level, in level order. -/
def releaseLevel (succ : α → List α) : (α → ℕ) → List α → (α → ℕ) × List α
  | deg, [] => (deg, [])
  | deg, x :: level =>
    let first := release deg (succ x)
    let rest := releaseLevel succ first.1 level
    (rest.1, first.2 ++ rest.2)

/-- Emit levels while any node is ready; `arrange` orders one level. -/
def drainLevels (succ : α → List α) (arrange : List α → List α) : ℕ → (α → ℕ) → List α → List α
  | 0, _, _ => []
  | fuel + 1, deg, ready =>
    if ready = [] then [] else
      let level := arrange ready
      let next := releaseLevel succ deg level
      level ++ drainLevels succ arrange fuel next.1 next.2

namespace Draining
variable {succ : α → List α} {nodes done ready : List α} {deg : α → ℕ}

/-- Emitting the front of the ready set puts what it releases behind the rest. -/
theorem level (hnodes : nodes.Nodup) (hsucc : ∀ x, (succ x).Nodup)
    (hsub : ∀ x, ∀ a ∈ succ x, a ∈ nodes) (front rest : List α)
    (h : Draining succ nodes done (front ++ rest) deg) :
    Draining succ nodes (done ++ front) (rest ++ (releaseLevel succ deg front).2)
      (releaseLevel succ deg front).1 := by
  induction front generalizing done rest deg with
  | nil => simpa [releaseLevel] using h
  | cons x front ih =>
    have hstep := h.step hnodes (hsucc x) (hsub x)
    have hperm : (front ++ (rest ++ (release deg (succ x)).2)).Perm
        ((release deg (succ x)).2 ++ (front ++ rest)) := by
      rw [← List.append_assoc]
      exact List.perm_append_comm
    have hnext := ih _ (hstep.perm hperm)
    simpa [releaseLevel, List.append_assoc] using hnext

/-- With enough fuel the drain stops only when nothing is ready. -/
theorem levels (hnodes : nodes.Nodup) (hsucc : ∀ x, (succ x).Nodup)
    (hsub : ∀ x, ∀ a ∈ succ x, a ∈ nodes) {arrange : List α → List α}
    (harrange : ∀ l, (arrange l).Perm l) (fuel : ℕ) (h : Draining succ nodes done ready deg)
    (hfuel : nodes.length < done.length + fuel) :
    ∃ deg', Draining succ nodes (done ++ drainLevels succ arrange fuel deg ready) [] deg' := by
  induction fuel generalizing done ready deg with
  | zero =>
    have := h.length_le
    omega
  | succ fuel ih =>
    unfold drainLevels
    split
    · rename_i hready
      subst hready
      exact ⟨deg, by simpa using h⟩
    · rename_i hready
      have hlevel := level hnodes hsucc hsub (arrange ready) []
        (h.perm (by simpa using harrange ready))
      have hlen : (arrange ready).length = ready.length := (harrange ready).length_eq
      have hpos : 0 < ready.length := List.length_pos_iff.mpr hready
      obtain ⟨deg', hdone⟩ := ih hlevel (by simp only [List.length_append]; omega)
      exact ⟨deg', by simpa [List.append_assoc] using hdone⟩

/-- A level-by-level drain of a well-founded graph emits every node once, each
one before its successors. -/
theorem levels_complete (hnodes : nodes.Nodup) (hsucc : ∀ x, (succ x).Nodup)
    (hsub : ∀ x, ∀ a ∈ succ x, a ∈ nodes) (hwf : WellFounded fun a b => b ∈ succ a)
    {arrange : List α → List α} (harrange : ∀ l, (arrange l).Perm l)
    (h : Draining succ nodes [] ready deg) :
    (drainLevels succ arrange (nodes.length + 1) deg ready).Perm nodes ∧
      (drainLevels succ arrange (nodes.length + 1) deg ready).Pairwise fun a b => a ∉ succ b := by
  obtain ⟨deg', hdone⟩ := levels hnodes hsucc hsub harrange (nodes.length + 1) h (by simp)
  exact ⟨by simpa using hdone.complete hwf hnodes, by simpa using hdone.ordered⟩

end Draining
end Hipscope.Graph
