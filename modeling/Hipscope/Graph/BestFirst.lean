import Mathlib.Order.Lattice
import Mathlib.Data.List.Nodup
import Mathlib.Data.List.Perm.Basic
import Mathlib.Logic.Relation
import Mathlib.Order.Defs.LinearOrder

/-! Best-first exploration of a forest that is generated lazily: only what the taken elements
generate is in the frontier, and a heaviest element of the frontier is taken each time. -/
namespace Hipscope.Graph

/-- Every element but the root is generated by one element, and once. -/
structure Expansion (α : Type*) where
  root : α
  next : α → List α
  root_fresh : ∀ a, root ∉ next a
  unique : ∀ a b c, c ∈ next a → c ∈ next b → a = b
  nodup : ∀ a, (next a).Nodup

namespace Expansion
variable {α W : Type*} (X : Expansion α)

/-- Generated in one or more steps, or in none. -/
def Leads : α → α → Prop := Relation.ReflTransGen fun a b => b ∈ X.next a

def Reachable (a : α) : Prop := X.Leads X.root a

variable [LinearOrder W] (weight : α → W)

/-- What was taken, in order, and what its elements generated. -/
structure Explored (taken frontier : List α) : Prop where
  nodup : (taken ++ frontier).Nodup
  generated : ∀ a ∈ taken ++ frontier, a = X.root ∨ ∃ b ∈ taken, a ∈ X.next b
  covers : ∀ a, X.Reachable a → a ∈ taken ∨ ∃ b ∈ frontier, X.Leads b a
  reachable : ∀ a ∈ taken ++ frontier, X.Reachable a
  below : ∀ a ∈ taken, ∀ b ∈ frontier, weight b ≤ weight a

variable {X weight} {taken frontier rest : List α} {a : α}

theorem Explored.start : X.Explored weight [] [X.root] where
  nodup := List.nodup_singleton _
  generated a ha := .inl (List.mem_singleton.1 ha)
  covers a ha := .inr ⟨X.root, List.mem_singleton_self _, ha⟩
  reachable a ha := by
    rw [List.mem_singleton.1 ha]
    exact Relation.ReflTransGen.refl
  below a ha := absurd ha List.not_mem_nil

theorem Explored.perm {frontier' : List α} (h : X.Explored weight taken frontier) (hperm : frontier.Perm frontier') :
    X.Explored weight taken frontier' where
  nodup := (hperm.append_left taken).nodup_iff.1 h.nodup
  generated a ha := h.generated a ((hperm.append_left taken).mem_iff.2 ha)
  covers a ha := (h.covers a ha).imp_right fun ⟨b, hb, hlead⟩ => ⟨b, hperm.mem_iff.1 hb, hlead⟩
  reachable a ha := h.reachable a ((hperm.append_left taken).mem_iff.2 ha)
  below a ha b hb := h.below a ha b (hperm.mem_iff.2 hb)

/-- Taking a heaviest element of the frontier. -/
theorem Explored.step (hmono : ∀ a, X.Reachable a → ∀ b ∈ X.next a, weight b ≤ weight a)
    (h : X.Explored weight taken (a :: rest)) (hmax : ∀ b ∈ rest, weight b ≤ weight a) :
    X.Explored weight (taken ++ [a]) (X.next a ++ rest) := by
  have hmem : ∀ {b}, b ∈ (taken ++ [a]) ++ (X.next a ++ rest) ↔ b ∈ X.next a ∨ b ∈ taken ++ a :: rest := by
    intro b
    simp only [List.mem_append, List.mem_cons, List.not_mem_nil, or_false]
    tauto
  have hreach : X.Reachable a := h.reachable a (List.mem_append_right _ (List.mem_cons_self ..))
  have hnew : ∀ b ∈ X.next a, b ∉ taken ++ a :: rest := by
    intro b hb hold
    rcases h.generated b hold with rfl | ⟨c, hc, hbc⟩
    · exact X.root_fresh a hb
    · obtain rfl := X.unique c a b hbc hb
      exact List.disjoint_of_nodup_append h.nodup hc (List.mem_cons_self ..)
  refine ⟨?_, fun b hb => ?_, fun b hb => ?_, fun b hb => ?_, fun b hb c hc => ?_⟩
  · have hperm : ((taken ++ [a]) ++ (X.next a ++ rest)).Perm (X.next a ++ (taken ++ a :: rest)) := by
      have hmove : ((taken ++ [a]) ++ (X.next a ++ rest)).Perm ((X.next a ++ (taken ++ [a])) ++ rest) := by
        rw [← List.append_assoc]
        exact List.perm_append_comm.append_right rest
      simpa using hmove
    rw [hperm.nodup_iff, List.nodup_append']
    exact ⟨X.nodup a, h.nodup, hnew⟩
  · rcases hmem.1 hb with hb | hb
    · exact .inr ⟨a, List.mem_append_right _ (List.mem_singleton_self a), hb⟩
    · exact (h.generated b hb).imp_right fun ⟨c, hc, hbc⟩ => ⟨c, List.mem_append_left _ hc, hbc⟩
  · rcases h.covers b hb with hb | ⟨c, hc, hlead⟩
    · exact .inl (List.mem_append_left _ hb)
    · rcases List.mem_cons.1 hc with rfl | hc
      · rcases Relation.ReflTransGen.cases_head hlead with rfl | ⟨d, hd, hlead⟩
        · exact .inl (List.mem_append_right _ (List.mem_singleton_self _))
        · exact .inr ⟨d, List.mem_append_left _ hd, hlead⟩
      · exact .inr ⟨c, List.mem_append_right _ hc, hlead⟩
  · rcases hmem.1 hb with hb | hb
    · exact hreach.tail hb
    · exact h.reachable b hb
  · have hle : weight c ≤ weight a := by
      rcases List.mem_append.1 hc with hc | hc
      · exact hmono a hreach c hc
      · exact hmax c hc
    rcases List.mem_append.1 hb with hb | hb
    · exact le_trans hle (h.below b hb a (List.mem_cons_self ..))
    · rw [List.mem_singleton.1 hb]
      exact hle

/-- What an element leads to is not heavier. -/
theorem Leads.weight_le (hmono : ∀ a, X.Reachable a → ∀ b ∈ X.next a, weight b ≤ weight a) {b : α} (ha : X.Reachable a)
    (h : X.Leads a b) : weight b ≤ weight a := by
  induction h with
  | refl => exact le_rfl
  | tail hlead hstep ih => exact le_trans (hmono _ (ha.trans hlead) _ hstep) ih

/-- Nothing that was not taken is heavier than what was. -/
theorem Explored.optimal (hmono : ∀ a, X.Reachable a → ∀ b ∈ X.next a, weight b ≤ weight a)
    (h : X.Explored weight taken frontier) {b : α} (ha : a ∈ taken) (hb : X.Reachable b) (hnot : b ∉ taken) :
    weight b ≤ weight a := by
  obtain ⟨c, hc, hlead⟩ := (h.covers b hb).resolve_left hnot
  exact le_trans (hlead.weight_le hmono (h.reachable c (List.mem_append_right _ hc))) (h.below a ha c hc)

/-- With nothing left everything was taken. -/
theorem Explored.complete (h : X.Explored weight taken []) (ha : X.Reachable a) : a ∈ taken := by
  rcases h.covers a ha with hmem | ⟨b, hb, -⟩
  · exact hmem
  · exact absurd hb List.not_mem_nil

end Expansion
end Hipscope.Graph
