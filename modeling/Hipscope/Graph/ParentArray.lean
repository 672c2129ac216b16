import Mathlib.Data.List.Induction

/-! Trees given by an array of parents. Slot 0 is the root, slot `i + 1` the node at
index `i`, whose entry is the slot of its parent. -/
namespace Hipscope.Graph
variable {parents : List ℕ}

/-- Parents come before their children. -/
def Topological (parents : List ℕ) : Prop := ∀ ⦃i parent : ℕ⦄, parents[i]? = some parent → parent ≤ i

/-- The nodes from the root down to a slot. -/
inductive RootPath (parents : List ℕ) : List ℕ → ℕ → Prop
  | root : RootPath parents [] 0
  | child {path : List ℕ} {slot i : ℕ} : RootPath parents path slot → parents[i]? = some slot →
    RootPath parents (path ++ [i]) (i + 1)

namespace RootPath

theorem nil_iff {slot : ℕ} : RootPath parents [] slot ↔ slot = 0 := by
  constructor
  · intro h
    generalize hpath : ([] : List ℕ) = path at h
    cases h with
    | root => rfl
    | child => simp at hpath
  · rintro rfl
    exact .root

theorem snoc_iff {path : List ℕ} {i slot : ℕ} :
    RootPath parents (path ++ [i]) slot ↔
      slot = i + 1 ∧ ∃ parent, RootPath parents path parent ∧ parents[i]? = some parent := by
  constructor
  · intro h
    generalize hpath : path ++ [i] = whole at h
    cases h with
    | root => simp at hpath
    | child hparent hi =>
      obtain ⟨rfl, hlast⟩ := List.append_inj' hpath rfl
      cases hlast
      exact ⟨rfl, _, hparent, hi⟩
  · rintro ⟨rfl, parent, hparent, hi⟩
    exact .child hparent hi

theorem zero_iff {path : List ℕ} : RootPath parents path 0 ↔ path = [] := by
  constructor
  · intro h
    generalize hslot : 0 = slot at h
    cases h with
    | root => rfl
    | child => omega
  · rintro rfl
    exact .root

/-- A slot has one root path. -/
theorem unique {path path' : List ℕ} {slot : ℕ} (h : RootPath parents path slot)
    (h' : RootPath parents path' slot) : path = path' := by
  induction h generalizing path' with
  | root => exact (zero_iff.mp h').symm
  | child _ hi ih =>
    rcases List.eq_nil_or_concat path' with rfl | ⟨rest, last, rfl⟩
    · exact absurd (nil_iff.mp h') (Nat.succ_ne_zero _)
    · rw [List.concat_eq_append, snoc_iff] at h'
      obtain ⟨hlast, parent, hparent, hfound⟩ := h'
      obtain rfl := Nat.succ.inj hlast
      rw [hi] at hfound
      cases hfound
      rw [ih hparent, List.concat_eq_append]

/-- In topological order every slot has a root path. -/
theorem exists_of_le (h : Topological parents) {slot : ℕ} (hslot : slot ≤ parents.length) :
    ∃ path, RootPath parents path slot := by
  induction slot using Nat.strongRecOn with
  | ind slot ih =>
    cases slot with
    | zero => exact ⟨[], .root⟩
    | succ i =>
      have hi : parents[i]? = some parents[i] := List.getElem?_eq_getElem hslot
      obtain ⟨path, hpath⟩ := ih _ (Nat.lt_succ_of_le (h hi)) (Nat.le_trans (h hi) (Nat.le_of_lt hslot))
      exact ⟨path ++ [i], hpath.child hi⟩

/-- The nodes of a path come before its slot. -/
theorem lt_of_mem (h : Topological parents) {path : List ℕ} {slot i : ℕ} (hpath : RootPath parents path slot)
    (hi : i ∈ path) : i < slot := by
  induction hpath with
  | root => cases hi
  | child _ hparent ih =>
    rcases List.mem_append.mp hi with hi | hi
    · exact Nat.lt_succ_of_lt (Nat.lt_of_lt_of_le (ih hi) (h hparent))
    · rw [List.mem_singleton.mp hi]
      exact Nat.lt_succ_self _

theorem slot_le {path : List ℕ} {slot : ℕ} (h : RootPath parents path slot) : slot ≤ parents.length := by
  cases h with
  | root => exact Nat.zero_le _
  | child _ hi => exact (List.getElem?_eq_some_iff.mp hi).1

/-- Every part of a root path down from the root is one. -/
theorem front {path rest : List ℕ} {i slot : ℕ} (h : RootPath parents (path ++ i :: rest) slot) :
    ∃ parent, RootPath parents path parent ∧ parents[i]? = some parent := by
  induction rest using List.reverseRecOn generalizing slot with
  | nil => exact (snoc_iff.mp h).2
  | append_singleton rest last ih =>
    rw [← List.cons_append, ← List.append_assoc, snoc_iff] at h
    obtain ⟨-, parent, hparent, -⟩ := h
    exact ih hparent

/-- The slots a root path passes, its own included. -/
def slots (path : List ℕ) : List ℕ := 0 :: path.map (· + 1)

theorem mem_slots_snoc {path : List ℕ} {i j : ℕ} : j ∈ slots (path ++ [i]) ↔ j ∈ slots path ∨ j = i + 1 := by
  simp [slots, or_assoc]

theorem le_of_mem_slots (h : Topological parents) {path : List ℕ} {slot j : ℕ} (hpath : RootPath parents path slot)
    (hj : j ∈ slots path) : j ≤ slot := by
  rcases List.mem_cons.mp hj with rfl | hj
  · exact Nat.zero_le _
  · obtain ⟨i, hi, rfl⟩ := List.mem_map.mp hj
    exact hpath.lt_of_mem h hi

end RootPath
end Hipscope.Graph
