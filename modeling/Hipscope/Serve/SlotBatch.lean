import Hipscope.Serve.Batches

/-! The scheduler's batch as the flat arrays of a forward step, over runs of steps and pushes. -/
namespace Hipscope.Serve.Scheduler

/-- A slot with its outstanding work. -/
structure SlotWork extends PendingWork where
  slot : ℕ
  deriving DecidableEq

/-- A step's rows, packed slot after slot; the absolute positions and the slots are `i32`. -/
structure SlotBatch where
  mPerSlot : List ℕ
  tokens : List Token
  positions : List Int32
  rowSlot : List Int32
  deriving DecidableEq

namespace SlotBatch

def empty : SlotBatch := ⟨[], [], [], []⟩

/-- Append the tokens of one slot. -/
def pack (b : SlotBatch) (slot : ℕ) (toks : List Token) (startPos : ℕ) : SlotBatch where
  mPerSlot := b.mPerSlot ++ [toks.length]
  tokens := b.tokens ++ toks
  positions := b.positions ++ toks.zipIdx.map fun m => Int32.ofNat (startPos + m.2)
  rowSlot := b.rowSlot ++ toks.map fun _ => Int32.ofNat slot

def build (perSlot : List (ℕ × List Token × ℕ)) : SlotBatch :=
  perSlot.foldl (fun b p => b.pack p.1 p.2.1 p.2.2) empty

def totalRows (b : SlotBatch) : ℕ := b.tokens.length

/-- The rows whose logits are read, with their slots: the last row of each slot that has one. -/
def logitsRows : ℕ → ℕ → List ℕ → List (ℕ × ℕ)
  | _, _, [] => []
  | slot, rowOff, m :: ms =>
    if 0 < m then (slot, rowOff + m - 1) :: logitsRows (slot + 1) (rowOff + m) ms
    else logitsRows (slot + 1) (rowOff + m) ms

/-- The first row of a slot. -/
def rowOff (b : SlotBatch) (i : ℕ) : ℕ := (b.mPerSlot.take i).sum

/-- A slot's part of an array. -/
def slice {α : Type} (b : SlotBatch) (i : ℕ) (xs : List α) : List α :=
  (xs.drop (b.rowOff i)).take (b.mPerSlot.getD i 0)

end SlotBatch

/-- Take the next tokens of every slot in turn. -/
def nextBatchFrom (chunkSize : ℕ) (b : SlotBatch) : List SlotWork → SlotBatch × List SlotWork
  | [] => (b, [])
  | w :: work =>
    let toks := w.remainingPrompt.take (w.taken chunkSize)
    let out := nextBatchFrom chunkSize (b.pack w.slot toks w.nextPos) work
    (out.1, { w with toPendingWork := w.advance chunkSize } :: out.2)

def nextBatch (chunkSize : ℕ) (work : List SlotWork) : SlotBatch × List SlotWork :=
  nextBatchFrom chunkSize .empty work

/-- What happens to the work of the slots: new tokens, the turn to decoding or back, and steps. -/
inductive Op where
  | push (i : ℕ) (tokens : List Token)
  | setDecoding (i : ℕ) (decoding : Bool)
  | step
  deriving DecidableEq

def apply (chunkSize : ℕ) (work : List SlotWork) : Op → List SlotBatch × List SlotWork
  | .push i tokens => ([], work.modify i fun w => { w with remainingPrompt := w.remainingPrompt ++ tokens })
  | .setDecoding i decoding => ([], work.modify i fun w => { w with decoding := decoding })
  | .step => ([(nextBatch chunkSize work).1], (nextBatch chunkSize work).2)

/-- The batches of a run and the work it leaves. -/
def run (chunkSize : ℕ) : List SlotWork → List Op → List SlotBatch × List SlotWork
  | work, [] => ([], work)
  | work, op :: ops =>
    let now := apply chunkSize work op
    let later := run chunkSize now.2 ops
    (now.1 ++ later.1, later.2)

/-- The tokens that a run pushes for a slot. -/
def pushed (i : ℕ) : List Op → List Token
  | [] => []
  | .push j tokens :: ops => (if j = i then tokens else []) ++ pushed i ops
  | _ :: ops => pushed i ops

/-- The arrays of a batch over the given slots line up: the counts cut them into
one slice a slot, and the logits rows are the last rows of the slices that have one. -/
structure SlotBatch.Agrees (b : SlotBatch) (slots : List ℕ) : Prop where
  entries : b.mPerSlot.length = slots.length
  tokens_length : b.tokens.length = b.mPerSlot.sum
  positions_length : b.positions.length = b.mPerSlot.sum
  rowSlot_length : b.rowSlot.length = b.mPerSlot.sum
  rowSlot_slice : ∀ i slot, slots[i]? = some slot →
    b.slice i b.rowSlot = List.replicate (b.mPerSlot.getD i 0) (Int32.ofNat slot)
  logits : ∀ i row, (i, row) ∈ SlotBatch.logitsRows 0 0 b.mPerSlot ↔
    0 < b.mPerSlot.getD i 0 ∧ row = b.rowOff i + b.mPerSlot.getD i 0 - 1

section Segments
variable {α β : Type} {f : β → List α} {n : β → ℕ}

private theorem length_flatMap_segments (hn : ∀ x, (f x).length = n x) (xs : List β) :
    (xs.flatMap f).length = (xs.map n).sum := by
  rw [List.length_flatMap]
  exact congrArg List.sum (List.map_congr_left fun x _ => hn x)

/-- The counts cut a concatenation back into its segments. -/
private theorem segment_flatMap (hn : ∀ x, (f x).length = n x) (xs : List β) (i : ℕ) :
    ((xs.flatMap f).drop ((xs.map n).take i).sum).take ((xs.map n).getD i 0) = xs[i]?.elim [] f := by
  induction xs generalizing i with
  | nil => simp
  | cons x xs ih =>
    rw [List.flatMap_cons]
    cases i with
    | zero =>
      change ((f x ++ xs.flatMap f).drop 0).take (n x) = f x
      rw [List.drop_zero, ← hn x, List.take_left]
    | succ i =>
      change ((f x ++ xs.flatMap f).drop (n x + ((xs.map n).take i).sum)).take ((xs.map n).getD i 0) = _
      rw [← hn x, List.drop_length_add_append]
      exact ih i

end Segments

namespace SlotBatch

/-- The positions of a slot's rows follow its start. -/
private theorem positions_eq (toks : List Token) (startPos : ℕ) :
    (toks.zipIdx.map fun m => Int32.ofNat (startPos + m.2)) = (List.range' startPos toks.length).map Int32.ofNat := by
  have hsnd : toks.zipIdx.map (fun m => startPos + m.2) = List.range' startPos toks.length := by
    calc toks.zipIdx.map (fun m => startPos + m.2)
        = (toks.zipIdx.map Prod.snd).map (startPos + ·) := by rw [List.map_map]; rfl
      _ = List.range' startPos toks.length := by
        rw [List.zipIdx_map_snd, List.map_add_range']
        rfl
  rw [← hsnd, List.map_map]
  rfl

/-- The arrays of a batch are the concatenations of its slots' parts. -/
theorem build_eq (perSlot : List (ℕ × List Token × ℕ)) : build perSlot =
    { mPerSlot := perSlot.map fun p => p.2.1.length
      tokens := perSlot.flatMap fun p => p.2.1
      positions := perSlot.flatMap fun p => (List.range' p.2.2 p.2.1.length).map Int32.ofNat
      rowSlot := perSlot.flatMap fun p => List.replicate p.2.1.length (Int32.ofNat p.1) } := by
  induction perSlot using List.reverseRecOn with
  | nil => rfl
  | append_singleton perSlot p ih =>
    have hstep : build (perSlot ++ [p]) = (build perSlot).pack p.1 p.2.1 p.2.2 := by
      rw [build, List.foldl_append]
      rfl
    rw [hstep, ih, pack, positions_eq, List.map_const']
    simp only [List.map_append, List.flatMap_append, List.flatMap_singleton, List.map_singleton]

private theorem mem_logitsRows_cons {slot off m : ℕ} {ms : List ℕ} {entry : ℕ × ℕ} :
    entry ∈ logitsRows slot off (m :: ms) ↔
      (0 < m ∧ entry = (slot, off + m - 1)) ∨ entry ∈ logitsRows (slot + 1) (off + m) ms := by
  rw [logitsRows]
  split
  · rename_i hm
    rw [List.mem_cons, and_iff_right hm]
  · rename_i hm
    exact ⟨Or.inr, fun h => h.resolve_left fun hhead => hm hhead.1⟩

/-- A slot has a logits row as soon as it has a row, and it is the last of them. -/
private theorem mem_logitsRows {slot off s row : ℕ} (ms : List ℕ) : (s, row) ∈ logitsRows slot off ms ↔
    ∃ i, s = slot + i ∧ 0 < ms.getD i 0 ∧ row = off + (ms.take i).sum + ms.getD i 0 - 1 := by
  induction ms generalizing slot off with
  | nil => simp [logitsRows]
  | cons m ms ih =>
    rw [mem_logitsRows_cons, ih]
    constructor
    · rintro (⟨hm, heq⟩ | ⟨i, hs, hpos, hrow⟩)
      · obtain ⟨rfl, rfl⟩ := Prod.mk.inj heq
        exact ⟨0, rfl, hm, rfl⟩
      · refine ⟨i + 1, by omega, hpos, ?_⟩
        rw [hrow, List.take_succ_cons, List.sum_cons, List.getD_cons_succ, Nat.add_assoc off]
    · rintro ⟨i, hs, hpos, hrow⟩
      cases i with
      | zero => exact Or.inl ⟨hpos, Prod.ext hs hrow⟩
      | succ i =>
        refine Or.inr ⟨i, by omega, hpos, ?_⟩
        rw [hrow, List.take_succ_cons, List.sum_cons, List.getD_cons_succ, Nat.add_assoc off m]

variable (perSlot : List (ℕ × List Token × ℕ))

theorem build_tokens_slice (i : ℕ) :
    (build perSlot).slice i (build perSlot).tokens = perSlot[i]?.elim [] fun p => p.2.1 := by
  rw [build_eq]
  exact segment_flatMap (fun _ => rfl) perSlot i

theorem build_positions_slice (i : ℕ) : (build perSlot).slice i (build perSlot).positions =
    perSlot[i]?.elim [] fun p => (List.range' p.2.2 p.2.1.length).map Int32.ofNat := by
  rw [build_eq]
  exact segment_flatMap (fun p => by rw [List.length_map, List.length_range']) perSlot i

theorem build_agrees : (build perSlot).Agrees (perSlot.map Prod.fst) where
  entries := by rw [build_eq, List.length_map, List.length_map]
  tokens_length := by
    rw [build_eq]
    exact length_flatMap_segments (fun _ => rfl) perSlot
  positions_length := by
    rw [build_eq]
    exact length_flatMap_segments (fun p => by rw [List.length_map, List.length_range']) perSlot
  rowSlot_length := by
    rw [build_eq]
    exact length_flatMap_segments (fun p => List.length_replicate) perSlot
  rowSlot_slice := by
    intro i slot hslot
    rw [List.getElem?_map, Option.map_eq_some_iff] at hslot
    obtain ⟨p, hp, rfl⟩ := hslot
    have hcut := segment_flatMap (fun p : ℕ × List Token × ℕ => List.length_replicate (n := p.2.1.length) (a := Int32.ofNat p.1))
      perSlot i
    rw [hp] at hcut
    rw [build_eq]
    refine hcut.trans ?_
    rw [List.getD_eq_getElem?_getD, List.getElem?_map, hp]
    rfl
  logits := by
    intro i row
    rw [mem_logitsRows]
    simp only [Nat.zero_add, rowOff, exists_eq_left']

end SlotBatch

section Step
variable (chunkSize : ℕ)

/-- What a slot contributes to the next step. -/
def SlotWork.part (w : SlotWork) : ℕ × List Token × ℕ :=
  (w.slot, w.remainingPrompt.take (w.taken chunkSize), w.nextPos)

def SlotWork.advanced (w : SlotWork) : SlotWork := { w with toPendingWork := w.advance chunkSize }

private theorem nextBatchFrom_eq (b : SlotBatch) (work : List SlotWork) : nextBatchFrom chunkSize b work =
    (((work.map (SlotWork.part chunkSize)).foldl (fun b p => b.pack p.1 p.2.1 p.2.2) b),
      work.map (SlotWork.advanced chunkSize)) := by
  induction work generalizing b with
  | nil => rfl
  | cons w work ih =>
    rw [nextBatchFrom, ih]
    rfl

/-- A step packs the parts of the slots and advances each of them. -/
theorem nextBatch_eq (work : List SlotWork) : nextBatch chunkSize work =
    (.build (work.map (SlotWork.part chunkSize)), work.map (SlotWork.advanced chunkSize)) :=
  nextBatchFrom_eq chunkSize .empty work

/-- The tokens and the positions that batches hold for an entry. -/
def emittedTokens (i : ℕ) (bs : List SlotBatch) : List Token := bs.flatMap fun b => b.slice i b.tokens

def emittedPositions (i : ℕ) (bs : List SlotBatch) : List Int32 := bs.flatMap fun b => b.slice i b.positions

/-- The batches took the front of an entry's queue, the added tokens at its
back, at the positions from the entry's own on. -/
structure Served (i : ℕ) (w : SlotWork) (added : List Token) (bs : List SlotBatch) (w' : SlotWork) : Prop where
  slot : w'.slot = w.slot
  tokens : emittedTokens i bs ++ w'.remainingPrompt = w.remainingPrompt ++ added
  positions : emittedPositions i bs = (List.range' w.nextPos (emittedTokens i bs).length).map Int32.ofNat
  nextPos : w'.nextPos = w.nextPos + (emittedTokens i bs).length

namespace Served
variable {i : ℕ} {w w' w'' : SlotWork} {added added' : List Token} {bs bs' : List SlotBatch}

theorem trans (h : Served i w added bs w') (h' : Served i w' added' bs' w'') :
    Served i w (added ++ added') (bs ++ bs') w'' where
  slot := h'.slot.trans h.slot
  tokens := by
    rw [emittedTokens, List.flatMap_append, List.append_assoc]
    change _ ++ (emittedTokens i bs' ++ _) = _
    rw [h'.tokens, ← List.append_assoc, ← List.append_assoc, ← h.tokens]
    rfl
  positions := by
    have hboth : emittedTokens i (bs ++ bs') = emittedTokens i bs ++ emittedTokens i bs' := List.flatMap_append
    rw [hboth, List.length_append, ← List.range'_append_1, List.map_append, ← h.positions, ← h.nextPos,
      ← h'.positions]
    exact List.flatMap_append
  nextPos := by
    have hboth : emittedTokens i (bs ++ bs') = emittedTokens i bs ++ emittedTokens i bs' := List.flatMap_append
    rw [hboth, List.length_append, ← Nat.add_assoc, ← h.nextPos, h'.nextPos]

/-- An entry that only gets tokens. -/
theorem of_push (hslot : w'.slot = w.slot) (hnext : w'.nextPos = w.nextPos)
    (htokens : w'.remainingPrompt = w.remainingPrompt ++ added) : Served i w added [] w' :=
  ⟨hslot, htokens, rfl, hnext⟩

end Served

theorem served_step {i : ℕ} {w : SlotWork} {work : List SlotWork} (hw : work[i]? = some w) :
    Served i w [] [(nextBatch chunkSize work).1] (w.advanced chunkSize) := by
  have hpart : (work.map (SlotWork.part chunkSize))[i]? = some (w.part chunkSize) := by
    rw [List.getElem?_map, hw]
    rfl
  have htokens : emittedTokens i [(nextBatch chunkSize work).1] = w.remainingPrompt.take (w.taken chunkSize) := by
    rw [emittedTokens, List.flatMap_singleton, nextBatch_eq, SlotBatch.build_tokens_slice, hpart]
    rfl
  have hpositions : emittedPositions i [(nextBatch chunkSize work).1] =
      (List.range' w.nextPos (w.remainingPrompt.take (w.taken chunkSize)).length).map Int32.ofNat := by
    rw [emittedPositions, List.flatMap_singleton, nextBatch_eq, SlotBatch.build_positions_slice, hpart]
    rfl
  refine ⟨rfl, ?_, ?_, ?_⟩
  · rw [htokens, List.append_nil]
    exact List.take_append_drop ..
  · rw [hpositions, htokens]
  · rw [htokens, List.length_take_of_le (w.taken_le chunkSize)]
    rfl

private theorem getElem?_modify_of {i : ℕ} {w : SlotWork} {work : List SlotWork} (hw : work[i]? = some w) (j : ℕ)
    (f : SlotWork → SlotWork) : (work.modify j f)[i]? = some (if j = i then f w else w) := by
  rw [List.getElem?_modify, hw]
  rfl

theorem served_apply {i : ℕ} {w : SlotWork} {work : List SlotWork} (hw : work[i]? = some w) (op : Op) :
    ∃ w', (apply chunkSize work op).2[i]? = some w' ∧ Served i w (pushed i [op]) (apply chunkSize work op).1 w' := by
  cases op with
  | push j tokens =>
    refine ⟨_, getElem?_modify_of hw j _, ?_⟩
    rw [pushed, pushed, List.append_nil]
    split
    · exact .of_push rfl rfl rfl
    · exact .of_push rfl rfl (List.append_nil _).symm
  | setDecoding j decoding =>
    refine ⟨_, getElem?_modify_of hw j _, ?_⟩
    split
    · exact .of_push rfl rfl (List.append_nil _).symm
    · exact .of_push rfl rfl (List.append_nil _).symm
  | step =>
    refine ⟨w.advanced chunkSize, ?_, served_step chunkSize hw⟩
    rw [apply, nextBatch_eq, List.getElem?_map, hw]
    rfl

private theorem pushed_cons (i : ℕ) (op : Op) (ops : List Op) : pushed i (op :: ops) = pushed i [op] ++ pushed i ops := by
  cases op with
  | push j tokens => rw [pushed, pushed, pushed, List.append_nil]
  | setDecoding j decoding => rfl
  | step => rfl

theorem served_run {i : ℕ} {w : SlotWork} {work : List SlotWork} (hw : work[i]? = some w) (ops : List Op) :
    ∃ w', (run chunkSize work ops).2[i]? = some w' ∧ Served i w (pushed i ops) (run chunkSize work ops).1 w' := by
  induction ops generalizing work w with
  | nil => exact ⟨w, hw, .of_push rfl rfl (List.append_nil _).symm⟩
  | cons op ops ih =>
    obtain ⟨w₁, hw₁, hnow⟩ := served_apply chunkSize hw op
    obtain ⟨w', hw', hlater⟩ := ih hw₁
    rw [pushed_cons]
    exact ⟨w', hw', hnow.trans hlater⟩

/-- What every batch of a run is like. -/
structure SlotBatch.Fits (b : SlotBatch) (slots : List ℕ) : Prop extends b.Agrees slots where
  chunk : ∀ m ∈ b.mPerSlot, m ≤ max chunkSize 1

theorem nextBatch_fits (work : List SlotWork) :
    (nextBatch chunkSize work).1.Fits chunkSize (work.map SlotWork.slot) := by
  rw [nextBatch_eq]
  have hagrees := SlotBatch.build_agrees (work.map (SlotWork.part chunkSize))
  rw [List.map_map] at hagrees
  refine ⟨hagrees, fun m hm => ?_⟩
  rw [SlotBatch.build_eq, List.mem_map] at hm
  obtain ⟨p, hp, rfl⟩ := hm
  obtain ⟨w, -, rfl⟩ := List.mem_map.mp hp
  change (w.remainingPrompt.take (w.taken chunkSize)).length ≤ _
  rw [List.length_take_of_le (w.taken_le chunkSize), PendingWork.taken]
  split
  · exact (Nat.min_le_right _ _).trans (Nat.le_max_right _ _)
  · exact (Nat.min_le_right _ _).trans (Nat.le_max_left _ _)

private theorem map_slot_modify {f : SlotWork → SlotWork} (hf : ∀ w, (f w).slot = w.slot) (j : ℕ)
    (work : List SlotWork) : (work.modify j f).map SlotWork.slot = work.map SlotWork.slot := by
  apply List.ext_getElem?
  intro i
  rw [List.getElem?_map, List.getElem?_modify, List.getElem?_map]
  cases work[i]? with
  | none => rfl
  | some w =>
    change some (if j = i then f w else w).slot = some w.slot
    split
    · rw [hf]
    · rfl

private theorem slots_apply (work : List SlotWork) (op : Op) :
    (apply chunkSize work op).2.map SlotWork.slot = work.map SlotWork.slot := by
  cases op with
  | push j tokens =>
    apply map_slot_modify
    intro w
    rfl
  | setDecoding j decoding =>
    apply map_slot_modify
    intro w
    rfl
  | step =>
    rw [apply, nextBatch_eq, List.map_map]
    rfl

theorem run_fits (work : List SlotWork) (ops : List Op) :
    ∀ b ∈ (run chunkSize work ops).1, b.Fits chunkSize (work.map SlotWork.slot) := by
  induction ops generalizing work with
  | nil =>
    intro b hb
    exact absurd hb List.not_mem_nil
  | cons op ops ih =>
    intro b hb
    obtain hnow | hlater := List.mem_append.mp hb
    · cases op with
      | push j tokens => exact absurd hnow List.not_mem_nil
      | setDecoding j decoding => exact absurd hnow List.not_mem_nil
      | step =>
        rw [List.mem_singleton.mp hnow]
        exact nextBatch_fits chunkSize work
    · rw [← slots_apply chunkSize work op]
      exact ih _ b hlater

private theorem rows_token (w : PendingWork) (slot : ℕ) :
    (w.rows chunkSize slot).map Row.token = w.remainingPrompt.take (w.taken chunkSize) := by
  rw [PendingWork.rows_eq, List.map_map]
  exact List.zipIdx_map_fst ..

private theorem rows_position (w : PendingWork) (slot : ℕ) : (w.rows chunkSize slot).map Row.position =
    List.range' w.nextPos (w.remainingPrompt.take (w.taken chunkSize)).length := by
  rw [PendingWork.rows_eq, List.map_map]
  exact List.zipIdx_map_snd ..

private theorem rows_slot_eq (w : PendingWork) (slot : ℕ) : (w.rows chunkSize slot).map Row.slot =
    List.replicate (w.remainingPrompt.take (w.taken chunkSize)).length slot := by
  rw [PendingWork.rows_eq, List.map_map, ← List.length_zipIdx (i := w.nextPos)]
  exact List.map_const' ..

/-- The flat arrays list the rows of the step one after the other. -/
theorem nextBatch_rows (nSlots : ℕ) (work : ℕ → PendingWork) :
    (nextBatch chunkSize ((List.range nSlots).map fun slot => ⟨work slot, slot⟩)).1 =
      { mPerSlot := (Serve.nextBatch nSlots chunkSize work).mPerSlot
        tokens := (Serve.nextBatch nSlots chunkSize work).rows.map Row.token
        positions := (Serve.nextBatch nSlots chunkSize work).rows.map fun row => Int32.ofNat row.position
        rowSlot := (Serve.nextBatch nSlots chunkSize work).rows.map fun row => Int32.ofNat row.slot } := by
  rw [nextBatch_eq, SlotBatch.build_eq, List.map_map]
  simp only [SlotBatch.mk.injEq, Serve.nextBatch, List.map_map, List.flatMap_map, List.map_flatMap]
  refine ⟨?_, ?_, ?_, ?_⟩
  · apply List.map_congr_left
    intro slot _
    exact List.length_take_of_le ((work slot).taken_le chunkSize)
  · apply congrArg (List.flatMap · (List.range nSlots))
    funext slot
    exact (rows_token chunkSize (work slot) slot).symm
  · apply congrArg (List.flatMap · (List.range nSlots))
    funext slot
    have hposition := congrArg (List.map Int32.ofNat) (rows_position chunkSize (work slot) slot)
    rw [List.map_map] at hposition
    exact hposition.symm
  · apply congrArg (List.flatMap · (List.range nSlots))
    funext slot
    have hslot := congrArg (List.map Int32.ofNat) (rows_slot_eq chunkSize (work slot) slot)
    rw [List.map_map, List.map_replicate] at hslot
    exact hslot.symm

end Step

/-- Batch scheduling: every entry's tokens leave in the order they were queued,
at consecutive positions, in batches whose arrays line up. -/
theorem scheduling_fifo (chunkSize : ℕ) (work : List SlotWork) (ops : List Op) :
    (∀ i w, work[i]? = some w → ∃ w', (run chunkSize work ops).2[i]? = some w' ∧
      Served i w (pushed i ops) (run chunkSize work ops).1 w' ∧
      (w'.nextPos ≤ 2 ^ 31 → (emittedPositions i (run chunkSize work ops).1).map Int32.toInt =
        (List.range' w.nextPos (emittedTokens i (run chunkSize work ops).1).length).map Nat.cast)) ∧
    ∀ b ∈ (run chunkSize work ops).1, b.Fits chunkSize (work.map SlotWork.slot) := by
  refine ⟨fun i w hw => ?_, run_fits chunkSize work ops⟩
  obtain ⟨w', hw', hserved⟩ := served_run chunkSize hw ops
  refine ⟨w', hw', hserved, fun hsmall => ?_⟩
  rw [hserved.positions, List.map_map]
  apply List.map_congr_left
  intro p hp
  have hp' := List.mem_range'_1.mp hp
  rw [hserved.nextPos] at hsmall
  exact Int32.toInt_ofNat_of_lt (by omega)

/-- Decoding past the chunk and past the positions of an `i32`. -/
theorem row_without_chunk :
    let b := (nextBatch 0 [⟨⟨[5], 2 ^ 31, true⟩, 0⟩]).1
    ¬ (∀ m ∈ b.mPerSlot, m ≤ 0) ∧ b.positions.map Int32.toInt ≠ [2 ^ 31] := by
  decide

/-- A prompt fed in chunks of two while another slot decodes. -/
theorem scheduling_fifo_chunked : ∃ w', (run 2 [⟨⟨[1, 2, 3], 4, false⟩, 0⟩, ⟨⟨[], 9, true⟩, 1⟩]
    [.push 1 [7], .step, .push 0 [8], .step]).2[0]? = some w' ∧ w'.nextPos = 8 := by
  obtain ⟨w', hw', hserved, -⟩ := (scheduling_fifo 2 [⟨⟨[1, 2, 3], 4, false⟩, 0⟩, ⟨⟨[], 9, true⟩, 1⟩]
    [.push 1 [7], .step, .push 0 [8], .step]).1 0 ⟨⟨[1, 2, 3], 4, false⟩, 0⟩ rfl
  exact ⟨w', hw', hserved.nextPos⟩

end Hipscope.Serve.Scheduler
