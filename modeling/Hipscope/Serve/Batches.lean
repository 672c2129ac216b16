import Hipscope.Serve.Operations

/-! A batched forward seen from one slot: the rows it contributes, what they
write and where they leave its length. -/
namespace Hipscope.Serve

namespace PendingWork
variable {w : PendingWork} {chunkSize slot : ℕ}

theorem taken_le (w : PendingWork) (chunkSize : ℕ) : w.taken chunkSize ≤ w.remainingPrompt.length := by
  unfold taken
  split
  · exact Nat.min_le_left _ _
  · exact Nat.min_le_left _ _

/-- A slot with pending tokens contributes a row to every step. -/
theorem taken_pos (hchunk : 0 < chunkSize) (h : w.remainingPrompt ≠ []) : 0 < w.taken chunkSize := by
  have hlen := List.length_pos_of_ne_nil h
  unfold taken
  split
  · exact Nat.lt_min.mpr ⟨hlen, Nat.one_pos⟩
  · exact Nat.lt_min.mpr ⟨hlen, hchunk⟩

theorem taken_le_chunk (w : PendingWork) (hchunk : 0 < chunkSize) : w.taken chunkSize ≤ chunkSize := by
  unfold taken
  split
  · exact (Nat.min_le_right _ _).trans hchunk
  · exact Nat.min_le_right _ _

theorem rows_eq (w : PendingWork) (chunkSize slot : ℕ) : w.rows chunkSize slot =
    ((w.remainingPrompt.take (w.taken chunkSize)).zipIdx w.nextPos).map fun x => ⟨slot, x.1, x.2⟩ := by
  rw [rows, List.zipIdx_eq_map_add (i := w.nextPos), List.map_map]
  rfl

theorem rows_length (w : PendingWork) (chunkSize slot : ℕ) :
    (w.rows chunkSize slot).length = w.taken chunkSize := by
  simp [rows, w.taken_le chunkSize]

theorem rows_slot {row : Row} (h : row ∈ w.rows chunkSize slot) : row.slot = slot := by
  rw [rows_eq, List.mem_map] at h
  obtain ⟨x, -, rfl⟩ := h
  rfl

theorem rows_position {row : Row} (h : row ∈ w.rows chunkSize slot) :
    row.position < w.nextPos + w.taken chunkSize := by
  rw [rows_eq, List.mem_map] at h
  obtain ⟨x, hx, rfl⟩ := h
  have hlt := (List.mem_zipIdx hx).2.1
  rwa [List.length_take_of_le (w.taken_le chunkSize)] at hlt

/-- The last row sits right before where the slot stands afterwards. -/
theorem rows_getLast? (w : PendingWork) (chunkSize slot : ℕ) :
    ((w.rows chunkSize slot).getLast?).elim w.nextPos (fun last => last.position + 1) =
      w.nextPos + w.taken chunkSize := by
  have hlen := w.rows_length chunkSize slot
  rw [List.getLast?_eq_getElem?, hlen]
  cases htaken : w.taken chunkSize with
  | zero =>
    have hnil : w.rows chunkSize slot = [] := List.length_eq_zero_iff.mp (hlen.trans htaken)
    simp [hnil]
  | succ n =>
    have hn : n < w.remainingPrompt.length := by
      have hle := w.taken_le chunkSize
      omega
    simp [rows, htaken, hn, Nat.add_assoc]

end PendingWork

section Batch
variable {Cell Rec : Type}

private theorem filter_flatMap_range {f : ℕ → List Row} (hf : ∀ k, ∀ row ∈ f k, row.slot = k)
    (n slot : ℕ) : ((List.range n).flatMap f).filter (fun row => row.slot = slot) =
      if slot < n then f slot else [] := by
  have hone (k : ℕ) : (f k).filter (fun row => row.slot = slot) = if k = slot then f slot else [] := by
    split
    · rename_i hk
      subst hk
      exact List.filter_eq_self.mpr fun row hrow => decide_eq_true (hf k row hrow)
    · rename_i hk
      exact List.filter_eq_nil_iff.mpr fun row hrow => by simp [hf k row hrow, hk]
  induction n with
  | zero => rfl
  | succ n ih =>
    rw [List.range_succ, List.flatMap_append, List.filter_append, ih, List.flatMap_singleton, hone]
    by_cases hlt : slot < n
    · rw [if_pos hlt, if_neg hlt.ne', if_pos (hlt.trans (Nat.lt_succ_self n)), List.append_nil]
    · rw [if_neg hlt, List.nil_append]
      exact if_congr (by omega) rfl rfl

namespace Engine
variable {cfg : EngineConfig Cell Rec} {e : Engine Cell Rec}

theorem chunkSize_pos (cfg : EngineConfig Cell Rec) : 0 < chunkSize cfg :=
  Nat.lt_of_lt_of_le Nat.one_pos (Nat.le_max_right _ _)

/-- The rows of a slot are the chunk of its pending tokens. -/
theorem batchRows_filter (cfg : EngineConfig Cell Rec) (e : Engine Cell Rec) (slot : ℕ) :
    (e.batchRows cfg).filter (fun row => row.slot = slot) =
      if slot < cfg.nSlots then (e.work slot).rows (chunkSize cfg) slot else [] :=
  filter_flatMap_range (fun _ _ hrow => PendingWork.rows_slot hrow) cfg.nSlots slot

/-- Nothing pending, nothing scheduled. -/
theorem scheduled_eq (h : e.batchRows cfg = []) : e.scheduled cfg = e := by
  have hwork (slot : ℕ) (hlt : slot < cfg.nSlots) :
      (e.work slot).advance (chunkSize cfg) = e.work slot := by
    have hrows := batchRows_filter cfg e slot
    rw [h, if_pos hlt] at hrows
    have htaken := (e.work slot).rows_length (chunkSize cfg) slot
    rw [← hrows] at htaken
    simp [PendingWork.advance, ← htaken]
  have hsame : (fun slot => if slot < cfg.nSlots then (e.work slot).advance (chunkSize cfg)
      else e.work slot) = e.work := by
    funext slot
    split
    · rename_i hlt
      exact hwork slot hlt
    · rfl
  rw [scheduled, hsame]

/-- What a batch writes to a slot is what its own rows write, as long as every
row stays within its slab. -/
theorem foldl_writeRow (cfg : EngineConfig Cell Rec) {cap slot : ℕ} {rows : List Row}
    (hrows : ∀ row ∈ rows, row.position < cap) {m m' : DeviceMemory Cell Rec} (h : SlotFrame cap slot m m') :
    SlotFrame cap slot ((rows.filter fun row => row.slot = slot).foldl
      (fun m row => m.write cfg.model cap slot row.position row.token) m) (rows.foldl (writeRow cfg cap) m') := by
  induction rows generalizing m m' with
  | nil => exact h
  | cons row rows ih =>
    have hpos := hrows row List.mem_cons_self
    have hrest := fun r hr => hrows r (List.mem_cons_of_mem _ hr)
    rw [List.foldl_cons]
    by_cases hrow : row.slot = slot
    · rw [List.filter_cons_of_pos (by simpa using hrow), List.foldl_cons, writeRow, hrow]
      exact ih hrest (h.write hpos row.token)
    · rw [List.filter_cons_of_neg (by simpa using hrow), writeRow]
      exact ih hrest (h.trans (.write_other hpos (Ne.symm hrow) _ _))

/-- Where a finished advance leaves each slot. -/
theorem advanceSlotSeqLens_ok {rows : List Row} {pool pool' : SlotPool} {slots : List ℕ}
    (h : advanceSlotSeqLens rows pool slots = (pool', true)) (slot : ℕ) :
    pool'.seqLen slot = if slot ∈ slots then
      ((rows.filter fun row => row.slot = slot).getLast?).elim (pool.seqLen slot)
        (fun last => last.position + 1) else pool.seqLen slot := by
  induction slots generalizing pool with
  | nil =>
    cases h
    rfl
  | cons next rest ih =>
    rw [advanceSlotSeqLens] at h
    split at h
    · rename_i hnone
      rw [ih h]
      by_cases hslot : slot = next
      · subst hslot
        simp [hnone]
      · simp [hslot]
    · rename_i last hlast
      split at h
      · cases h
      · rename_i advanced hset
        obtain ⟨-, rfl⟩ := SlotPool.setSeqLen_eq_some hset
        rw [ih h]
        by_cases hslot : slot = next
        · subst hslot
          simp [hlast]
        · simp [hslot]

/-- A failed advance has moved only slots with rows. -/
theorem advanceSlotSeqLens_untouched {rows : List Row} (pool : SlotPool) (slots : List ℕ) {slot : ℕ}
    (h : rows.filter (fun row => row.slot = slot) = []) :
    (advanceSlotSeqLens rows pool slots).1.seqLen slot = pool.seqLen slot := by
  induction slots generalizing pool with
  | nil => rfl
  | cons next rest ih =>
    rw [advanceSlotSeqLens]
    split
    · exact ih pool
    · rename_i last hlast
      split
      · rfl
      · rename_i advanced hset
        obtain ⟨-, rfl⟩ := SlotPool.setSeqLen_eq_some hset
        rw [ih]
        refine Function.update_of_ne ?_ _ _
        rintro rfl
        simp [h] at hlast

theorem forward_cap {io : StepIo Cell Rec} {rows : List Row} {e' : Engine Cell Rec} {ok : Bool}
    (h : forward cfg io (e.scheduled cfg) rows = some (e', ok)) : e'.pool.capTokens = e.pool.capTokens := by
  unfold forward at h
  split at h
  · cases h
  split at h
  · cases h
    rfl
  · cases h
    exact (advanceSlotSeqLens_frame rows e.pool (List.range cfg.nSlots)).2.2

/-- A forward that goes through feeds every slot its chunk. -/
theorem forward_ok {io : StepIo Cell Rec} {e' : Engine Cell Rec}
    (h : forward cfg io (e.scheduled cfg) (e.batchRows cfg) = some (e', true))
    (hfits : ∀ row ∈ e.batchRows cfg, row.position < e.pool.capTokens) (slot : ℕ) (hlt : slot < cfg.nSlots) :
    SlotFrame e.pool.capTokens slot ((((e.work slot).remainingPrompt.take
        ((e.work slot).taken (chunkSize cfg))).zipIdx (e.work slot).nextPos).foldl
        (fun m x => m.write cfg.model e.pool.capTokens slot x.2 x.1) e.memory) e'.memory ∧
      ((e.work slot).nextPos = e.pool.seqLen slot →
        e'.pool.seqLen slot = e.pool.seqLen slot + (e.work slot).taken (chunkSize cfg)) := by
  unfold forward at h
  split at h
  · cases h
  split at h
  · cases h
  obtain ⟨rfl, hok⟩ := Prod.mk.inj (Option.some.inj h)
  have hrows := batchRows_filter cfg e slot
  rw [if_pos hlt] at hrows
  refine ⟨?_, fun hpos => ?_⟩
  · have hsame : SlotFrame e.pool.capTokens slot e.memory e.memory := .refl _
    have hfed := foldl_writeRow cfg hfits hsame
    rwa [hrows, PendingWork.rows_eq, List.foldl_map] at hfed
  · dsimp only
    rw [advanceSlotSeqLens_ok (Prod.ext rfl hok), if_pos (List.mem_range.mpr hlt), hrows]
    have hlast := (e.work slot).rows_getLast? (chunkSize cfg) slot
    rw [hpos] at hlast
    exact hlast

theorem forward_ok_io {io : StepIo Cell Rec} {rows : List Row} {e' : Engine Cell Rec}
    (h : forward cfg io e rows = some (e', true)) : io.forward = none := by
  unfold forward at h
  split at h
  · cases h
  split at h
  · cases h
  · assumption

/-- Failed kernels reach no slot without rows. -/
theorem spoilRows_untouched {rows : List Row} (hfits : ∀ row ∈ rows, row.position < e.pool.capTokens)
    {slot : ℕ} (hrows : rows.filter (fun row => row.slot = slot) = []) (garbage : DeviceMemory Cell Rec) :
    SlotFrame e.pool.capTokens slot e.memory (e.spoilRows rows garbage) := by
  have hnone := List.filter_eq_nil_iff.mp hrows
  simp only [decide_eq_true_eq] at hnone
  refine .spoil (fun pos hpos => ?_) ?_ _ _
  · refine List.any_eq_false.mpr fun row hrow => ?_
    have hne : slot ≠ row.slot := Ne.symm (hnone row hrow)
    rw [Bool.or_eq_true, decide_eq_true_eq]
    rintro (hslab | haddress)
    · exact hne ((inSlab_iff hpos).mp hslab)
    · exact kvAddress_ne hpos (hfits row hrow) hne haddress.symm
  · exact List.any_eq_false.mpr fun row hrow => by simpa using hnone row hrow

/-- Whatever becomes of a forward, slots without rows keep their state as long as
every row stays within its slab. -/
theorem forward_untouched {io : StepIo Cell Rec} {rows : List Row} {e' : Engine Cell Rec} {ok : Bool}
    (h : forward cfg io e rows = some (e', ok)) (hfits : ∀ row ∈ rows, row.position < e.pool.capTokens)
    {slot : ℕ} (hrows : rows.filter (fun row => row.slot = slot) = []) :
    SlotFrame e.pool.capTokens slot e.memory e'.memory ∧ e'.pool.seqLen slot = e.pool.seqLen slot := by
  unfold forward at h
  split at h
  · cases h
  split at h
  · rename_i garbage hfailed
    cases h
    refine ⟨spoilRows_untouched hfits hrows garbage.1, ?_⟩
    have hnone : (rows.any fun row => row.slot = slot) = false := by
      rw [List.any_eq_false]
      exact List.filter_eq_nil_iff.mp hrows
    simp only [scramble, hnone, Bool.false_eq_true, if_false]
  · cases h
    refine ⟨?_, advanceSlotSeqLens_untouched e.pool _ hrows⟩
    have hsame : SlotFrame e.pool.capTokens slot e.memory e.memory := .refl _
    have hkept := foldl_writeRow cfg hfits hsame
    rwa [hrows, List.foldl_nil] at hkept

end Engine
end Batch
end Hipscope.Serve
