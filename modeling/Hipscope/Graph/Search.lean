import Mathlib.Logic.Relation
import Mathlib.Logic.Function.Basic
import Mathlib.Data.List.Basic
import Mathlib.Order.WellFounded
import Mathlib.Data.Fintype.Basic
import Mathlib.Data.Fintype.EquivFin
import Mathlib.Order.RelClasses

/-! Directed graphs as edge lists: depth-first search and cycle avoidance. -/
namespace Hipscope.Graph
variable {α : Type}

/-- One edge of the list. -/
def Edge (edges : List (α × α)) (a b : α) : Prop := (a, b) ∈ edges

def Acyclic (edges : List (α × α)) : Prop := ∀ a, ¬ Relation.TransGen (Edge edges) a a

section Search
variable [DecidableEq α]

instance (edges : List (α × α)) (a b : α) : Decidable (Edge edges a b) :=
  inferInstanceAs (Decidable ((a, b) ∈ edges))

/-- Targets of the edges leaving a node, in list order. -/
def successors (edges : List (α × α)) (a : α) : List α :=
  edges.filterMap fun e => if e.1 = a then some e.2 else none

@[simp] theorem mem_successors {edges : List (α × α)} {a b : α} :
    b ∈ successors edges a ↔ Edge edges a b := by
  simp only [successors, List.mem_filterMap, Option.ite_none_right_eq_some, Option.some.injEq, Edge]
  constructor
  · rintro ⟨⟨x, y⟩, he, rfl, rfl⟩
    exact he
  · intro he
    exact ⟨(a, b), he, rfl, rfl⟩

/-- Depth-first search for a target; the head of the list is the top of the stack. -/
def search (edges : List (α × α)) (target : α) : ℕ → List α → (α → Bool) → Bool
  | 0, _, _ => false
  | _ + 1, [], _ => false
  | fuel + 1, node :: stack, seen =>
    if node = target then true
    else if seen node then search edges target fuel stack seen
    else search edges target fuel ((successors edges node).reverse ++ stack)
      (Function.update seen node true)

/-- What the visited nodes promise: none is the target and their successors
are visited or stacked. -/
private def Closed (edges : List (α × α)) (target : α) (stack : List α) (seen : α → Bool) : Prop :=
  ∀ a, seen a = true → a ≠ target ∧ ∀ b, Edge edges a b → seen b = true ∨ b ∈ stack

private def unseenEdges (edges : List (α × α)) (seen : α → Bool) : ℕ :=
  (edges.filter fun e => !seen e.1).length

omit [DecidableEq α] in
private theorem Closed.escapes {edges : List (α × α)} {target : α} {stack : List α}
    {seen : α → Bool} (h : Closed edges target stack seen) {a : α} (ha : seen a = true)
    (hp : Relation.ReflTransGen (Edge edges) a target) :
    ∃ b ∈ stack, Relation.ReflTransGen (Edge edges) b target := by
  induction hp using Relation.ReflTransGen.head_induction_on with
  | refl => exact absurd rfl (h target ha).1
  | head hab hbt ih =>
    rcases (h _ ha).2 _ hab with hb | hb
    · exact ih hb
    · exact ⟨_, hb, hbt⟩

omit [DecidableEq α] in
private theorem Closed.pop {edges : List (α × α)} {target : α} {node : α} {stack : List α}
    {seen : α → Bool} (h : Closed edges target (node :: stack) seen) (hn : seen node = true) :
    Closed edges target stack seen := by
  intro a ha
  refine ⟨(h a ha).1, fun b hb => ?_⟩
  rcases (h a ha).2 b hb with hs | hs
  · exact .inl hs
  · rcases List.mem_cons.mp hs with rfl | hs
    · exact .inl hn
    · exact .inr hs

private theorem Closed.expand {edges : List (α × α)} {target : α} {node : α} {stack : List α}
    {seen : α → Bool} (h : Closed edges target (node :: stack) seen) (hn : node ≠ target) :
    Closed edges target ((successors edges node).reverse ++ stack)
      (Function.update seen node true) := by
  intro a ha
  by_cases han : a = node
  · subst han
    exact ⟨hn, fun b hb => .inr (by simp [hb])⟩
  · rw [Function.update_of_ne han] at ha
    refine ⟨(h a ha).1, fun b hb => ?_⟩
    by_cases hbn : b = node
    · exact .inl (by simp [hbn])
    · rcases (h a ha).2 b hb with hs | hs
      · exact .inl (by simpa [Function.update_of_ne hbn] using hs)
      · exact .inr (by simpa [hbn] using Or.inr (List.mem_of_ne_of_mem hbn hs))

private theorem unseenEdges_update (edges : List (α × α)) {seen : α → Bool} {node : α}
    (hn : seen node = false) :
    unseenEdges edges seen =
      (successors edges node).length + unseenEdges edges (Function.update seen node true) := by
  induction edges with
  | nil => rfl
  | cons e edges ih =>
    simp only [unseenEdges, successors, List.filter_cons, List.filterMap_cons] at ih ⊢
    by_cases he : e.1 = node
    · simp [he, hn, ih]
      omega
    · simp only [he, if_false, Function.update_of_ne he]
      split
      · simp [ih]
        omega
      · simp [ih]

/-- Search with enough fuel decides reachability. -/
private theorem search_closed {edges : List (α × α)} {target : α} {fuel : ℕ} {stack : List α}
    {seen : α → Bool} (h : Closed edges target stack seen)
    (hfuel : stack.length + unseenEdges edges seen < fuel) :
    search edges target fuel stack seen = true ↔
      ∃ a ∈ stack, Relation.ReflTransGen (Edge edges) a target := by
  induction fuel generalizing stack seen with
  | zero => omega
  | succ fuel ih =>
    cases stack with
    | nil => simp [search]
    | cons node stack =>
      rw [search]
      split
      · rename_i hn
        subst hn
        simp only [true_iff]
        exact ⟨node, List.mem_cons_self, .refl⟩
      · rename_i hn
        split
        · rename_i hseen
          have hpop := h.pop hseen
          rw [ih hpop (by simp only [List.length_cons] at hfuel; omega)]
          constructor
          · rintro ⟨a, ha, hp⟩
            exact ⟨a, List.mem_cons_of_mem _ ha, hp⟩
          · rintro ⟨a, ha, hp⟩
            rcases List.mem_cons.mp ha with rfl | ha
            · exact hpop.escapes hseen hp
            · exact ⟨a, ha, hp⟩
        · rename_i hseen
          rw [Bool.not_eq_true] at hseen
          have hcount := unseenEdges_update edges hseen
          rw [ih (h.expand hn) (by
            simp only [List.length_cons, List.length_append, List.length_reverse] at hfuel ⊢
            omega)]
          constructor
          · rintro ⟨a, ha, hp⟩
            simp only [List.mem_append, List.mem_reverse, mem_successors] at ha
            rcases ha with ha | ha
            · exact ⟨node, List.mem_cons_self, .head ha hp⟩
            · exact ⟨a, List.mem_cons_of_mem _ ha, hp⟩
          · rintro ⟨a, ha, hp⟩
            rcases List.mem_cons.mp ha with rfl | ha
            · rcases Relation.ReflTransGen.cases_head hp with rfl | ⟨b, hab, hbt⟩
              · exact absurd rfl hn
              · exact ⟨b, by simp [hab], hbt⟩
            · exact ⟨a, by simp [ha], hp⟩

/-- From one start node, fuel for every edge and one more pop suffices. -/
theorem search_iff {edges : List (α × α)} {source target : α} {fuel : ℕ}
    (hfuel : edges.length + 1 < fuel) :
    search edges target fuel [source] (fun _ => false) = true ↔
      Relation.ReflTransGen (Edge edges) source target := by
  rw [search_closed (by simp [Closed]) (by simpa [unseenEdges, Nat.add_comm] using hfuel)]
  simp

/-- The same search, `none` when the fuel is spent. -/
def searchLoop (edges : List (α × α)) (target : α) : ℕ → List α → (α → Bool) → Option Bool
  | 0, _, _ => none
  | _ + 1, [], _ => some false
  | fuel + 1, node :: stack, seen =>
    if node = target then some true
    else if seen node then searchLoop edges target fuel stack seen
    else searchLoop edges target fuel ((successors edges node).reverse ++ stack)
      (Function.update seen node true)

/-- Every pop takes from the stack or from the edges that leave unseen nodes. -/
private theorem searchLoop_of_fuel {edges : List (α × α)} {target : α} {fuel : ℕ} {stack : List α}
    {seen : α → Bool} (hfuel : stack.length + unseenEdges edges seen < fuel) :
    searchLoop edges target fuel stack seen = some (search edges target fuel stack seen) := by
  induction fuel generalizing stack seen with
  | zero => omega
  | succ fuel ih =>
    cases stack with
    | nil => rfl
    | cons node stack =>
      rw [List.length_cons] at hfuel
      rw [searchLoop, search]
      split_ifs with hn hseen
      · rfl
      · exact ih (by omega)
      · rw [Bool.not_eq_true] at hseen
        have hcount := unseenEdges_update edges hseen
        apply ih
        rw [List.length_append, List.length_reverse]
        omega

/-- From one start node the search ends, and finds the target exactly when a path leads there. -/
theorem searchLoop_iff {edges : List (α × α)} {source target : α} {fuel : ℕ}
    (hfuel : edges.length + 1 < fuel) :
    ∃ found, searchLoop edges target fuel [source] (fun _ => false) = some found ∧
      (found = true ↔ Relation.ReflTransGen (Edge edges) source target) := by
  refine ⟨_, searchLoop_of_fuel ?_, search_iff hfuel⟩
  simpa [unseenEdges, Nat.add_comm] using hfuel

end Search

/-- A path using one new edge either avoids it or reaches its source. -/
private theorem path_insert {edges edges' : List (α × α)} {p n : α}
    (h : ∀ a b, Edge edges' a b → Edge edges a b ∨ (a = p ∧ b = n)) {a b : α}
    (hab : Relation.TransGen (Edge edges') a b) :
    Relation.TransGen (Edge edges) a b ∨
      (Relation.ReflTransGen (Edge edges) a p ∧ Relation.ReflTransGen (Edge edges) n b) := by
  induction hab with
  | single hb =>
    rcases h _ _ hb with he | ⟨rfl, rfl⟩
    · exact .inl (.single he)
    · exact .inr ⟨.refl, .refl⟩
  | tail hac hcb ih =>
    rcases h _ _ hcb with he | ⟨rfl, rfl⟩
    · rcases ih with hac' | ⟨hap, hnc⟩
      · exact .inl (hac'.tail he)
      · exact .inr ⟨hap, hnc.tail he⟩
    · rcases ih with hac' | ⟨hap, -⟩
      · exact .inr ⟨hac'.to_reflTransGen, .refl⟩
      · exact .inr ⟨hap, .refl⟩

/-- An edge whose target does not reach its source closes no cycle. -/
theorem Acyclic.insert {edges edges' : List (α × α)} {p n : α} (hacyclic : Acyclic edges)
    (h : ∀ a b, Edge edges' a b → Edge edges a b ∨ (a = p ∧ b = n))
    (hpath : ¬ Relation.ReflTransGen (Edge edges) n p) : Acyclic edges' := by
  intro a ha
  rcases path_insert h ha with hc | ⟨hap, hna⟩
  · exact hacyclic a hc
  · exact hpath (hna.trans hap)

theorem Acyclic.no_path_back {edges : List (α × α)} {p n : α} (h : Acyclic ((p, n) :: edges)) :
    ¬ Relation.ReflTransGen (Edge edges) n p := by
  intro hpath
  have hlift : Relation.ReflTransGen (Edge ((p, n) :: edges)) n p :=
    Relation.ReflTransGen.mono (p := Edge ((p, n) :: edges)) (fun a b (he : (a, b) ∈ edges) =>
      List.mem_cons_of_mem (p, n) he) n p hpath
  exact h p (.head' List.mem_cons_self hlift)

/-- Over finitely many nodes an acyclic edge relation is well founded. -/
theorem Acyclic.wellFounded {edges : List (α × α)} {nodes : List α} (h : Acyclic edges)
    (hnodes : ∀ a b, Edge edges a b → a ∈ nodes ∧ b ∈ nodes) : WellFounded (Edge edges) := by
  classical
  let R (x y : {a // a ∈ nodes}) : Prop := Relation.TransGen (Edge edges) x.1 y.1
  have hR : WellFounded R := by
    have : IsTrans {a // a ∈ nodes} R := ⟨fun _ _ _ => Relation.TransGen.trans⟩
    have : Std.Irrefl R := ⟨fun x => h x.1⟩
    exact Finite.wellFounded_of_trans_of_irrefl R
  have acc (x : {a // a ∈ nodes}) : Acc (Edge edges) x.1 := by
    induction x using hR.induction with
    | _ x ih =>
      refine ⟨_, fun b hb => ?_⟩
      exact ih ⟨b, (hnodes b x.1 hb).1⟩ (.single hb)
  refine ⟨fun a => ⟨_, fun b hb => ?_⟩⟩
  exact acc ⟨b, (hnodes b a hb).1⟩

end Hipscope.Graph
