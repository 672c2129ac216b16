import Hipscope.Reap.Plan
import Mathlib.Data.UInt

/-! What an accepted plan says, beside what its JSON says. -/
namespace Hipscope.Reap

/-- The number written is `i`. -/
def Written (x : JsonValue) (i : UInt32) : Prop := ∃ n, x.asU64 = some n ∧ n.toNat = i.toNat

/-- The low half of the number written is `i`. -/
def Truncated (x : JsonValue) (i : UInt32) : Prop := ∃ n, x.asU64 = some n ∧ n.toUInt32 = i

def WithinU32 (x : JsonValue) : Prop := ∀ n, x.asU64 = some n → n.toNat < 2 ^ 32

section Says
variable (entry : JsonValue → UInt32 → Prop)

/-- The array `row` writes the entries of `r`, in order. -/
def RowSays (row : JsonValue) (r : List UInt32) : Prop := ∃ xs, row.asArray = some xs ∧ List.Forall₂ entry xs r

structure KeepSays (rows : JsonValue) (numLayers originalExperts : ℕ) (keep : List (List UInt32)) : Prop where
  written : ∃ arr, rows.asArray = some arr ∧ List.Forall₂ (RowSays entry) arr keep
  layers : keep.length = numLayers
  sameLength : ∃ kept > 0, ∀ row ∈ keep, row.length = kept
  distinct : ∀ row ∈ keep, row.Nodup
  below : ∀ row ∈ keep, ∀ i ∈ row, i.toNat < originalExperts

structure OverrideSays (numLayers originalExperts : ℕ) (o : JsonValue) (q : QuantOverride) : Prop where
  layer : ∃ n, (o.get "layer".toList).asU64 = some n ∧ n.toNat = q.layer
  layer_lt : q.layer < numLayers
  experts : List.Forall₂ entry (o.get "experts".toList).items q.experts
  below : ∀ i ∈ q.experts, i.toNat < originalExperts

/-- The plan says what is written in `v`, with the keep rows under `rows` and the overrides listed in `overrides`. -/
structure Says (v rows : JsonValue) (overrides : List JsonValue) (plan : ReapPlan) : Prop where
  originalExperts : ∀ n, (v.get "original_experts".toList).asU64 = some n → plan.originalExperts = n.toNat
  keepAll : plan.keep = none ↔ rows.asArray = none
  keep : ∀ keep, plan.keep = some keep → KeepSays entry rows plan.numLayers plan.originalExperts keep
  quantOverrides : List.Forall₂ (OverrideSays entry plan.numLayers plan.originalExperts) overrides plan.quantOverrides

end Says

/-- Every expert number listed in the rows and in the overrides fits 32 bits. -/
structure Fits (rows : JsonValue) (overrides : List JsonValue) : Prop where
  rows : ∀ row ∈ rows.items, ∀ x ∈ row.items, WithinU32 x
  overrides : ∀ o ∈ overrides, ∀ x ∈ (o.get "experts".toList).items, WithinU32 x

section Truncation
variable {x v rows : JsonValue} {i : UInt32} {r : List UInt32} {numLayers originalExperts : ℕ}

theorem Truncated.written_iff (h : Truncated x i) : Written x i ↔ WithinU32 x := by
  obtain ⟨n, hn, rfl⟩ := h
  have hlow : n.toUInt32.toNat = n.toNat % 2 ^ 32 := UInt64.toNat_toUInt32 n
  constructor
  · rintro ⟨m, hm, hsame⟩ k hk
    obtain rfl := Option.some.inj (hn.symm.trans hm)
    obtain rfl := Option.some.inj (hn.symm.trans hk)
    exact hsame ▸ UInt32.toNat_lt _
  · intro hfits
    exact ⟨n, hn, by rw [hlow, Nat.mod_eq_of_lt (hfits n hn)]⟩

theorem RowSays.written_iff (h : RowSays Truncated x r) : RowSays Written x r ↔ ∀ y ∈ x.items, WithinU32 y := by
  obtain ⟨xs, hxs, hall⟩ := h
  have hentries : List.Forall₂ Written xs r ↔ ∀ y ∈ xs, WithinU32 y :=
    Lists.forall₂_iff_all (fun _ _ => Truncated.written_iff) hall
  rw [JsonValue.items_of_asArray hxs, ← hentries]
  constructor
  · rintro ⟨ys, hys, hwritten⟩
    exact Option.some.inj (hxs.symm.trans hys) ▸ hwritten
  · exact fun hwritten => ⟨xs, hxs, hwritten⟩

theorem KeepSays.written_iff {keep : List (List UInt32)} (h : KeepSays Truncated rows numLayers originalExperts keep) :
    KeepSays Written rows numLayers originalExperts keep ↔ ∀ row ∈ rows.items, ∀ x ∈ row.items, WithinU32 x := by
  obtain ⟨arr, harr, hall⟩ := h.written
  have hrows : List.Forall₂ (RowSays Written) arr keep ↔ ∀ row ∈ arr, ∀ x ∈ row.items, WithinU32 x :=
    Lists.forall₂_iff_all (fun _ _ => RowSays.written_iff) hall
  rw [JsonValue.items_of_asArray harr, ← hrows]
  constructor
  · intro hstated
    obtain ⟨arr', harr', hwritten⟩ := hstated.written
    exact Option.some.inj (harr.symm.trans harr') ▸ hwritten
  · exact fun hwritten => ⟨⟨arr, harr, hwritten⟩, h.layers, h.sameLength, h.distinct, h.below⟩

theorem OverrideSays.written_iff {q : QuantOverride} (h : OverrideSays Truncated numLayers originalExperts x q) :
    OverrideSays Written numLayers originalExperts x q ↔ ∀ y ∈ (x.get "experts".toList).items, WithinU32 y := by
  have hexperts : List.Forall₂ Written (x.get "experts".toList).items q.experts ↔
      ∀ y ∈ (x.get "experts".toList).items, WithinU32 y :=
    Lists.forall₂_iff_all (fun _ _ => Truncated.written_iff) h.experts
  rw [← hexperts]
  exact ⟨fun hstated => hstated.experts, fun hwritten => ⟨h.layer, h.layer_lt, hwritten, h.below⟩⟩

theorem Says.written_iff {overrides : List JsonValue} {plan : ReapPlan} (h : Says Truncated v rows overrides plan) :
    Says Written v rows overrides plan ↔ Fits rows overrides := by
  have hoverrides : List.Forall₂ (OverrideSays Written plan.numLayers plan.originalExperts) overrides
      plan.quantOverrides ↔ ∀ o ∈ overrides, ∀ x ∈ (o.get "experts".toList).items, WithinU32 x :=
    Lists.forall₂_iff_all (fun _ _ => OverrideSays.written_iff) h.quantOverrides
  have hrows : (∀ keep, plan.keep = some keep → KeepSays Written rows plan.numLayers plan.originalExperts keep) ↔
      ∀ row ∈ rows.items, ∀ x ∈ row.items, WithinU32 x := by
    cases hkeep : plan.keep with
    | none =>
      rw [JsonValue.items_of_none (h.keepAll.mp hkeep)]
      exact ⟨fun _ row hrow => absurd hrow List.not_mem_nil, fun _ keep hsome => absurd hsome (Option.some_ne_none keep).symm⟩
    | some keep =>
      rw [← (h.keep keep hkeep).written_iff]
      exact ⟨fun hall => hall keep rfl, fun hstated _ hsome => Option.some.inj hsome ▸ hstated⟩
  constructor
  · exact fun hstated => ⟨hrows.mp hstated.keep, hoverrides.mp hstated.quantOverrides⟩
  · exact fun hfits => ⟨h.originalExperts, h.keepAll, hrows.mpr hfits.rows, hoverrides.mpr hfits.overrides⟩

end Truncation
end Hipscope.Reap

/-! The checks behind a plan that is accepted. -/
namespace Hipscope.Reap
variable {label : String} {v x : JsonValue} {l i j numLayers originalExperts kept : ℕ} {seen r : List UInt32}

theorem okOr_ok {α : Type} {x : Option α} {message : String} {a : α} (h : okOr x message = .ok a) : x = some a := by
  cases x with
  | none => cases h
  | some b => exact congrArg some (Except.ok.inj h)

section Rows

end Rows

section Overrides

end Overrides

namespace ReapPlan
variable {dir : List Char} {plan : ReapPlan}

end ReapPlan
end Hipscope.Reap
