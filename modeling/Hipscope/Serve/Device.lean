import Hipscope.Serve.Engine

/-! The device seen from one slot: what leaves its slab and its recurrent state
alone, and when both come from feeding tokens to a fresh slot. -/
namespace Hipscope.Serve

section Addresses
variable {cap slot other pos pos' : ℕ}

theorem kvAddress_div (slot : ℕ) (hpos : pos < cap) : kvAddress cap slot pos / cap = slot := by
  rw [kvAddress, Nat.add_comm, Nat.add_mul_div_right _ _ (Nat.zero_lt_of_lt hpos), Nat.div_eq_of_lt hpos,
    Nat.zero_add]

/-- Positions within their slabs meet in one slot only. -/
theorem kvAddress_ne (hpos : pos < cap) (hpos' : pos' < cap) (h : other ≠ slot) :
    kvAddress cap other pos ≠ kvAddress cap slot pos' := fun heq =>
  h (by rw [← kvAddress_div other hpos, heq, kvAddress_div slot hpos'])

theorem kvAddress_inj (h : kvAddress cap slot pos = kvAddress cap slot pos') : pos = pos' :=
  Nat.add_left_cancel h

theorem inSlab_iff (hpos : pos < cap) : inSlab cap slot (kvAddress cap other pos) = true ↔ other = slot := by
  simp only [inSlab, Bool.and_eq_true, decide_eq_true_eq]
  constructor
  · rintro ⟨hlow, hhigh⟩
    have hdiv : kvAddress cap other pos / cap = slot :=
      Nat.div_eq_of_lt_le hlow (by rw [Nat.succ_mul]; exact hhigh)
    rw [← hdiv, kvAddress_div other hpos]
  · rintro rfl
    exact ⟨Nat.le_add_right _ _, Nat.add_lt_add_left hpos _⟩

end Addresses

section Frame
variable {Cell Rec : Type} {model : Model Cell Rec} {cap slot other pos n : ℕ}

/-- The slab and the recurrent state of the slot are the same in both. -/
def SlotFrame (cap slot : ℕ) (m m' : DeviceMemory Cell Rec) : Prop :=
  (∀ pos < cap, m'.arena (kvAddress cap slot pos) = m.arena (kvAddress cap slot pos)) ∧
    m'.dnStates slot = m.dnStates slot

namespace SlotFrame
variable {m m' m'' garbage : DeviceMemory Cell Rec}

theorem refl (m : DeviceMemory Cell Rec) : SlotFrame cap slot m m := ⟨fun _ _ => rfl, rfl⟩

theorem trans (h : SlotFrame cap slot m m') (h' : SlotFrame cap slot m' m'') : SlotFrame cap slot m m'' :=
  ⟨fun pos hpos => (h'.1 pos hpos).trans (h.1 pos hpos), h'.2.trans h.2⟩

theorem kvBefore (h : SlotFrame cap slot m m') (hn : n ≤ cap) :
    m'.kvBefore cap slot n = m.kvBefore cap slot n :=
  List.map_congr_left fun pos hpos => h.1 pos ((List.mem_range.mp hpos).trans_le hn)

/-- A row within its slab stays out of the other slots. -/
theorem write_other (hpos : pos < cap) (hother : other ≠ slot) (m : DeviceMemory Cell Rec) (token : Token) :
    SlotFrame cap other m (m.write model cap slot pos token) :=
  ⟨fun _ hpos' => Function.update_of_ne (kvAddress_ne hpos' hpos hother) _ _, Function.update_of_ne hother _ _⟩

/-- What a row writes to its slot depends on the slot alone. -/
theorem write (h : SlotFrame cap slot m m') (hpos : pos < cap) (token : Token) :
    SlotFrame cap slot (m.write model cap slot pos token) (m'.write model cap slot pos token) := by
  simp only [DeviceMemory.write, h.kvBefore hpos.le, h.2]
  refine ⟨fun pos' hpos' => ?_, by simp only [Function.update_self]⟩
  simp only [Function.update_apply]
  split
  · rfl
  · exact h.1 pos' hpos'

theorem load_other {snap : SlotSnapshot Cell Rec} (hfits : snap.kv.length ≤ cap) (hother : other ≠ slot)
    (m : DeviceMemory Cell Rec) : SlotFrame cap other m (m.load cap slot snap) := by
  refine ⟨fun pos hpos => ?_, Function.update_of_ne hother _ _⟩
  have hout : inSlab cap slot (kvAddress cap other pos) = false :=
    Bool.eq_false_iff.mpr (mt (inSlab_iff hpos).mp hother)
  simp only [inSlab, Bool.and_eq_false_iff, decide_eq_false_iff_not] at hout
  simp only [DeviceMemory.load]
  split
  · rename_i hlow
    rcases hout with hout | hout
    · exact absurd hlow hout
    · rw [List.getD_eq_getElem?_getD, List.getElem?_eq_none (by omega), Option.getD_none]
  · rfl

theorem spoil {addresses slots : ℕ → Bool} (haddresses : ∀ pos < cap, addresses (kvAddress cap slot pos) = false)
    (hslots : slots slot = false) (m garbage : DeviceMemory Cell Rec) :
    SlotFrame cap slot m (m.spoil garbage addresses slots) := by
  refine ⟨fun pos hpos => ?_, ?_⟩
  · simp only [DeviceMemory.spoil, haddresses pos hpos, Bool.false_eq_true, if_false]
  · simp only [DeviceMemory.spoil, hslots, Bool.false_eq_true, if_false]

/-- A failed copy stays in its slot if its snapshot fits. -/
theorem failed_copy {slot other : ℕ} {snap : SlotSnapshot Cell Rec} (hfits : snap.kv.length ≤ cap)
    (hother : other ≠ slot) (m garbage : DeviceMemory Cell Rec) :
    SlotFrame cap other m (m.spoil garbage (fun address => slot * cap ≤ address &&
      address < slot * cap + max cap snap.kv.length) (fun sl => sl = slot)) := by
  rw [Nat.max_eq_left hfits]
  exact spoil (fun pos hpos => Bool.eq_false_iff.mpr (mt (inSlab_iff hpos).mp hother)) (decide_eq_false hother) m garbage

theorem setDn_other (hother : other ≠ slot) (m : DeviceMemory Cell Rec) (dn : Rec) :
    SlotFrame cap other m (m.setDn slot dn) :=
  ⟨fun _ _ => rfl, Function.update_of_ne hother _ _⟩

end SlotFrame
end Frame

section Feeding
variable {Cell Rec : Type} {model : Model Cell Rec} {cap slot : ℕ}

/-- KV and recurrent state after feeding tokens to a fresh slot. -/
def Model.fed (model : Model Cell Rec) (tokens : List Token) : List Cell × Rec :=
  tokens.foldl (fun state token =>
    let fed := model.feed state.1 state.2 token
    (state.1 ++ [fed.1], fed.2)) ([], model.fresh)

theorem Model.fed_snoc (tokens : List Token) (token : Token) :
    model.fed (tokens ++ [token]) =
      ((model.fed tokens).1 ++ [(model.feed (model.fed tokens).1 (model.fed tokens).2 token).1],
        (model.feed (model.fed tokens).1 (model.fed tokens).2 token).2) := by
  simp [Model.fed, List.foldl_append]

theorem Model.fed_length (model : Model Cell Rec) (tokens : List Token) :
    (model.fed tokens).1.length = tokens.length := by
  induction tokens using List.reverseRecOn with
  | nil => rfl
  | append_singleton tokens token ih => simp [fed_snoc, ih]

/-- The first `n` positions and the recurrent state come from the first `n` tokens. -/
structure Mirrors (model : Model Cell Rec) (cap slot : ℕ) (m : DeviceMemory Cell Rec) (n : ℕ)
    (tokens : List Token) : Prop where
  fits : n ≤ cap
  held : n ≤ tokens.length
  fed : (m.kvBefore cap slot n, m.dnStates slot) = model.fed (tokens.take n)

namespace DeviceMemory

theorem kvBefore_succ (m : DeviceMemory Cell Rec) (n : ℕ) :
    m.kvBefore cap slot (n + 1) = m.kvBefore cap slot n ++ [m.arena (kvAddress cap slot n)] := by
  simp [kvBefore, List.range_succ]

theorem kvBefore_write (m : DeviceMemory Cell Rec) (n : ℕ) (token : Token) :
    (m.write model cap slot n token).kvBefore cap slot n = m.kvBefore cap slot n := by
  refine List.map_congr_left fun pos hpos => Function.update_of_ne (fun heq => ?_) _ _
  exact (List.mem_range.mp hpos).ne (kvAddress_inj heq)

theorem kvBefore_load (m : DeviceMemory Cell Rec) (cap slot : ℕ) (snap : SlotSnapshot Cell Rec) :
    (m.load cap slot snap).kvBefore cap slot snap.kv.length = snap.kv := by
  apply List.ext_getElem
  · simp [kvBefore]
  · intro i hi hi'
    simp [kvBefore, load, kvAddress, hi']

end DeviceMemory

namespace Mirrors
variable {m m' : DeviceMemory Cell Rec} {n : ℕ} {tokens : List Token}

theorem fresh (m : DeviceMemory Cell Rec) (h : m.dnStates slot = model.fresh) (tokens : List Token) :
    Mirrors model cap slot m 0 tokens :=
  ⟨Nat.zero_le _, Nat.zero_le _, by rw [h]; rfl⟩

theorem frame (h : Mirrors model cap slot m n tokens) (hframe : SlotFrame cap slot m m') :
    Mirrors model cap slot m' n tokens :=
  ⟨h.fits, h.held, by rw [hframe.kvBefore h.fits, hframe.2]; exact h.fed⟩

/-- More tokens to come change nothing. -/
theorem extend (h : Mirrors model cap slot m n tokens) (rest : List Token) :
    Mirrors model cap slot m n (tokens ++ rest) := by
  refine ⟨h.fits, ?_, ?_⟩
  · rw [List.length_append]
    exact h.held.trans (Nat.le_add_right _ _)
  · rw [List.take_append_of_le_length h.held]
    exact h.fed

/-- Feeding the next token keeps the mirror while the slab lasts. -/
theorem write (h : Mirrors model cap slot m n tokens) (hn : n < cap) {token : Token}
    (ht : tokens[n]? = some token) :
    Mirrors model cap slot (m.write model cap slot n token) (n + 1) tokens := by
  obtain ⟨hlt, hget⟩ := List.getElem?_eq_some_iff.mp ht
  refine ⟨hn, hlt, ?_⟩
  rw [List.take_succ_eq_append_getElem hlt, hget, Model.fed_snoc, ← h.fed,
    DeviceMemory.kvBefore_succ, DeviceMemory.kvBefore_write]
  simp [DeviceMemory.write]

/-- Feeding a run of pending tokens from where the slot stands. -/
theorem writeAll (chunk : List Token) (h : Mirrors model cap slot m n tokens) {rest : List Token}
    (hpending : tokens.drop n = chunk ++ rest) (hfits : n + chunk.length ≤ cap) :
    Mirrors model cap slot ((chunk.zipIdx n).foldl (fun m x => m.write model cap slot x.2 x.1) m)
      (n + chunk.length) tokens := by
  induction chunk generalizing m n with
  | nil => simpa using h
  | cons token chunk ih =>
    have ht : tokens[n]? = some token := by
      rw [← Nat.add_zero n, ← List.getElem?_drop, hpending]
      rfl
    have hnext : tokens.drop (n + 1) = chunk ++ rest := by
      rw [← List.tail_drop, hpending]
      rfl
    rw [List.length_cons] at hfits
    rw [List.zipIdx_cons, List.foldl_cons, List.length_cons, Nat.add_comm chunk.length, ← Nat.add_assoc]
    exact ih (h.write (by omega) ht) hnext (by omega)

end Mirrors

/-- A snapshot that was computed from the tokens and fits a slab. -/
structure SlotSnapshot.Of (model : Model Cell Rec) (cap : ℕ) (snap : SlotSnapshot Cell Rec)
    (tokens : List Token) : Prop where
  fits : snap.seqLen ≤ cap
  held : snap.seqLen ≤ tokens.length
  fed : (snap.kv, snap.dn) = model.fed (tokens.take snap.seqLen)

namespace SlotSnapshot.Of
variable {snap : SlotSnapshot Cell Rec} {tokens : List Token}

theorem length (h : snap.Of model cap tokens) : snap.kv.length = snap.seqLen := by
  have hfed := model.fed_length (tokens.take snap.seqLen)
  rw [← h.fed, List.length_take] at hfed
  exact hfed.trans (Nat.min_eq_left h.held)

theorem mirrors (h : snap.Of model cap tokens) (m : DeviceMemory Cell Rec) :
    Mirrors model cap slot (m.load cap slot snap) snap.seqLen tokens := by
  refine ⟨h.fits, h.held, ?_⟩
  have hload := m.kvBefore_load cap slot snap
  rw [h.length] at hload
  rw [hload]
  simp only [DeviceMemory.load, Function.update_self]
  exact h.fed

end SlotSnapshot.Of

/-- What a slot mirrors, its capture was computed from. -/
theorem Mirrors.capture {pool : SlotPool} {m : DeviceMemory Cell Rec} {tokens : List Token}
    (h : Mirrors model pool.capTokens slot m (pool.seqLen slot) tokens) (named : List Token) :
    (captureSlot pool m slot named).Of model pool.capTokens tokens :=
  ⟨h.fits, h.held, h.fed⟩

end Feeding
end Hipscope.Serve
