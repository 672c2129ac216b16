import Hipscope.Replay.Access
import Hipscope.Graph.Kahn
import Mathlib.Data.List.Sort

/-! The antichain-widening reorder of a recorded launch list: a level-by-level
drain of the conflict graph inside windows of consecutive launches, checked
against every conflicting pair before it is used. -/
namespace Hipscope.Replay
open Redline Hipscope.Graph

/-- Why the pass kept the recorded order. -/
inductive ReorderWarning where
  | drained (scheduled span start stop : ℕ)
  | produced (length launches : ℕ)
  | notPermutation
  | violated (i j : ℕ)
  deriving DecidableEq, Repr

/-- The recorded launches at both indices are not independent. -/
def dependentAt (recorded : List RecordedHipLaunch) (i j : ℕ) : Bool :=
  match recorded[i]?, recorded[j]? with
  | some left, some right => !launchesAreIndependent left right
  | _, _ => false

/-- Conflict edges of a chunk, by offsets; they only point forward. -/
def chunkSuccessors (recorded : List RecordedHipLaunch) (start span i : ℕ) : List ℕ :=
  (List.range' (i + 1) (span - (i + 1))).filter fun j => dependentAt recorded (start + i) (start + j)

def chunkIndegree (recorded : List RecordedHipLaunch) (start span j : ℕ) : ℕ :=
  (List.range span).countP fun i => j ∈ chunkSuccessors recorded start span i

/-- Offsets of one chunk drained level by level, each level in ascending order. -/
def chunkOrder (recorded : List RecordedHipLaunch) (start span : ℕ) : List ℕ :=
  let indegree := chunkIndegree recorded start span
  let ready := (List.range span).filter fun index => indegree index = 0
  drainLevels (chunkSuccessors recorded start span) (List.insertionSort (· ≤ ·)) (span + 1)
    indegree ready

def scheduleChunk (recorded : List RecordedHipLaunch) (start stop : ℕ) :
    Except ReorderWarning (List ℕ) :=
  let order := chunkOrder recorded start (stop - start)
  if order.length ≠ stop - start then
    .error (.drained order.length (stop - start) start stop)
  else .ok (order.map (start + ·))

/-- Chunks of `window` launches from `start` on. -/
def scheduleFrom (recorded : List RecordedHipLaunch) (window : ℕ) :
    ℕ → ℕ → Except ReorderWarning (List ℕ)
  | 0, _ => .ok []
  | fuel + 1, start =>
    if start < recorded.length then do
      let stop := min (start + window) recorded.length
      let chunk ← scheduleChunk recorded start stop
      let rest ← scheduleFrom recorded window fuel stop
      return chunk ++ rest
    else .ok []

/-- The slot of every index; a repeated or foreign index is refused. -/
def place (launches : ℕ) : List (ℕ × ℕ) → (ℕ → Option ℕ) → Except ReorderWarning (ℕ → Option ℕ)
  | [], position => .ok position
  | (index, slot) :: rest, position =>
    if launches ≤ index ∨ position index ≠ none then .error .notPermutation
    else place launches rest (Function.update position index (some slot))

/-- The first slot is not before the second; an unplaced index counts as last. -/
def notBefore : Option ℕ → Option ℕ → Bool
  | none, _ => true
  | some _, none => false
  | some i, some j => decide (j ≤ i)

def violation (recorded : List RecordedHipLaunch) (position : ℕ → Option ℕ) :
    Option ReorderWarning :=
  (List.range recorded.length).findSome? fun i =>
    (List.range' (i + 1) (recorded.length - (i + 1))).findSome? fun j =>
      if dependentAt recorded i j && notBefore (position i) (position j) then
        some (.violated i j) else none

/-- The scheduled order with all of its checks. -/
def widthSchedule (recorded : List RecordedHipLaunch) (window : ℕ) :
    Except ReorderWarning (List ℕ) := do
  let order ← scheduleFrom recorded window recorded.length 0
  if order.length ≠ recorded.length then .error (.produced order.length recorded.length)
  else do
    let position ← place recorded.length order.zipIdx fun _ => none
    match violation recorded position with
    | some warning => .error warning
    | none => .ok order

def pm4WidthReorder (recorded : List RecordedHipLaunch) (window : ℕ) : List ℕ :=
  if recorded.length = 0 ∨ window < 2 then List.range recorded.length
  else match widthSchedule recorded window with
    | .ok order => order
    | .error _ => List.range recorded.length

theorem dependentAt_iff {recorded : List RecordedHipLaunch} {i j : ℕ} {left right : RecordedHipLaunch}
    (hi : recorded[i]? = some left) (hj : recorded[j]? = some right) :
    dependentAt recorded i j = true ↔ launchesAreIndependent left right = false := by
  simp [dependentAt, hi, hj]

/-- Dependent launches keep their recorded relative order. -/
def Respects (recorded : List RecordedHipLaunch) (order : List ℕ) : Prop :=
  order.Pairwise fun a b => b < a → dependentAt recorded b a = false

theorem mem_chunkSuccessors {recorded : List RecordedHipLaunch} {start span i j : ℕ} :
    j ∈ chunkSuccessors recorded start span i ↔
      i < j ∧ j < span ∧ dependentAt recorded (start + i) (start + j) = true := by
  simp only [chunkSuccessors, List.mem_filter, List.mem_range'_1]
  constructor
  · rintro ⟨⟨hij, hj⟩, hd⟩
    exact ⟨by omega, by omega, hd⟩
  · rintro ⟨hij, hj, hd⟩
    exact ⟨⟨by omega, by omega⟩, hd⟩

private theorem chunk_wf (recorded : List RecordedHipLaunch) (start span : ℕ) :
    WellFounded fun a b => b ∈ chunkSuccessors recorded start span a := by
  refine Subrelation.wf ?_ (measure id).wf
  intro a b h
  exact (mem_chunkSuccessors.mp h).1

private theorem chunk_drains (recorded : List RecordedHipLaunch) (start span : ℕ) :
    Draining (chunkSuccessors recorded start span) (List.range span) []
      ((List.range span).filter fun index => chunkIndegree recorded start span index = 0)
      (chunkIndegree recorded start span) := by
  refine draining_init (List.nodup_range.filter _) ?_ fun _ => rfl
  intro a
  simp

private theorem chunkOrder_spec (recorded : List RecordedHipLaunch) (start span : ℕ) :
    (chunkOrder recorded start span).Perm (List.range span) ∧
      (chunkOrder recorded start span).Pairwise fun a b =>
        a ∉ chunkSuccessors recorded start span b := by
  have h := Draining.levels_complete List.nodup_range
    (fun x => List.Nodup.filter (fun j => dependentAt recorded (start + x) (start + j))
      (List.nodup_range' : (List.range' (x + 1) (span - (x + 1))).Nodup))
    (fun x a ha => List.mem_range.mpr (mem_chunkSuccessors.mp ha).2.1)
    (chunk_wf recorded start span) (fun l => List.perm_insertionSort (· ≤ ·) l)
    (chunk_drains recorded start span)
  rw [List.length_range] at h
  exact h

/-- Every chunk drains completely and respects the recorded order. -/
theorem scheduleChunk_ok (recorded : List RecordedHipLaunch) (start stop : ℕ) :
    ∃ chunk, scheduleChunk recorded start stop = .ok chunk ∧
      chunk.Perm (List.range' start (stop - start)) ∧ Respects recorded chunk := by
  obtain ⟨hperm, hpair⟩ := chunkOrder_spec recorded start (stop - start)
  refine ⟨(chunkOrder recorded start (stop - start)).map (start + ·), ?_, ?_, ?_⟩
  · have hlen := hperm.length_eq
    rw [List.length_range] at hlen
    simp only [scheduleChunk]
    rw [if_neg (by simpa using hlen)]
  · have hmap := hperm.map (start + ·)
    rwa [← List.range'_eq_map_range] at hmap
  · rw [Respects, List.pairwise_map]
    refine hpair.imp_of_mem ?_
    intro a b ha hb hab hlt
    have ha' := List.mem_range.mp (hperm.mem_iff.mp ha)
    by_contra hd
    exact hab (mem_chunkSuccessors.mpr ⟨by omega, ha', by simpa using hd⟩)

/-- No launch is moved by `window` positions or more. -/
def Near (window start : ℕ) (order : List ℕ) : Prop :=
  ∀ slot index, order[slot]? = some index → start + slot < index + window ∧
    index < start + slot + window

private theorem near_chunk {window start span : ℕ} {chunk : List ℕ} (hspan : span ≤ window)
    (hperm : chunk.Perm (List.range' start span)) : Near window start chunk := by
  intro slot index hslot
  have hindex := List.mem_range'_1.mp (hperm.mem_iff.mp (List.mem_of_getElem? hslot))
  have hlen := hperm.length_eq
  rw [List.length_range'] at hlen
  have hlt := (List.getElem?_eq_some_iff.mp hslot).1
  omega

private theorem near_append {window start span : ℕ} {chunk rest : List ℕ}
    (hchunk : Near window start chunk) (hlen : chunk.length = span)
    (hrest : Near window (start + span) rest) : Near window start (chunk ++ rest) := by
  intro slot index hslot
  rcases Nat.lt_or_ge slot chunk.length with h | h
  · rw [List.getElem?_append_left h] at hslot
    exact hchunk slot index hslot
  · rw [List.getElem?_append_right h] at hslot
    have := hrest _ _ hslot
    omega

/-- Enough fuel schedules every launch from `start` on. -/
theorem scheduleFrom_ok (recorded : List RecordedHipLaunch) {window fuel start : ℕ}
    (hw : 0 < window) (hstart : start ≤ recorded.length)
    (hfuel : recorded.length - start ≤ fuel) :
    ∃ order, scheduleFrom recorded window fuel start = .ok order ∧
      order.Perm (List.range' start (recorded.length - start)) ∧ Respects recorded order ∧
      Near window start order := by
  induction fuel generalizing start with
  | zero =>
    have : recorded.length - start = 0 := by omega
    exact ⟨[], rfl, by simp [this], .nil, by simp [Near]⟩
  | succ fuel ih =>
    unfold scheduleFrom
    split
    · rename_i hlt
      obtain ⟨chunk, hchunk, hperm, hresp⟩ :=
        scheduleChunk_ok recorded start (min (start + window) recorded.length)
      obtain ⟨rest, hrest, hperm', hresp', hnear'⟩ :=
        @ih (min (start + window) recorded.length) (by omega) (by omega)
      have hspan : start + (min (start + window) recorded.length - start) =
          min (start + window) recorded.length := by omega
      refine ⟨chunk ++ rest, by simp only [hchunk, hrest]; rfl, ?_, ?_, ?_⟩
      · have hjoin := List.range'_append_1 (s := start)
          (m := min (start + window) recorded.length - start)
          (n := recorded.length - min (start + window) recorded.length)
        rw [hspan] at hjoin
        have htotal : min (start + window) recorded.length - start +
            (recorded.length - min (start + window) recorded.length) =
            recorded.length - start := by omega
        rw [htotal] at hjoin
        rw [← hjoin]
        exact hperm.append hperm'
      · rw [Respects, List.pairwise_append]
        refine ⟨hresp, hresp', ?_⟩
        intro a ha b hb hba
        have ha' := List.mem_range'_1.mp (hperm.mem_iff.mp ha)
        have hb' := List.mem_range'_1.mp (hperm'.mem_iff.mp hb)
        omega
      · have hlen := hperm.length_eq
        rw [List.length_range'] at hlen
        refine near_append (near_chunk (by omega) hperm) hlen ?_
        rw [hspan]
        exact hnear'
    · have : recorded.length - start = 0 := by omega
      exact ⟨[], rfl, by simp [this], .nil, by simp [Near]⟩

/-- Placing distinct indices below the bound never fails, and records the slot
of each of them. -/
private theorem place_ok {launches : ℕ} (base : ℕ) {order : List ℕ} (position : ℕ → Option ℕ)
    (hnodup : order.Nodup) (hbound : ∀ index ∈ order, index < launches)
    (hfree : ∀ index ∈ order, position index = none) :
    ∃ position', place launches (order.zipIdx base) position = .ok position' ∧
      (∀ index ∉ order, position' index = position index) ∧
      ∀ slot index, order[slot]? = some index → position' index = some (base + slot) := by
  induction order generalizing base position with
  | nil => exact ⟨position, rfl, fun _ _ => rfl, by simp⟩
  | cons first order ih =>
    obtain ⟨hfirst, hnodup⟩ := List.nodup_cons.mp hnodup
    obtain ⟨position', hplace, hout, hslots⟩ :=
      ih (base + 1) (Function.update position first (some base)) hnodup
        (fun index hi => hbound index (List.mem_cons_of_mem _ hi)) fun index hi => by
          rw [Function.update_of_ne (ne_of_mem_of_not_mem hi hfirst)]
          exact hfree index (List.mem_cons_of_mem _ hi)
    refine ⟨position', ?_, ?_, ?_⟩
    · rw [List.zipIdx_cons, place, if_neg]
      · exact hplace
      · rintro (h | h)
        · have := hbound first List.mem_cons_self
          omega
        · exact h (hfree first List.mem_cons_self)
    · intro index hi
      obtain ⟨hne, hi⟩ : index ≠ first ∧ index ∉ order := by simpa using hi
      rw [hout index hi, Function.update_of_ne hne]
    · intro slot index hslot
      cases slot with
      | zero =>
        obtain rfl : first = index := by simpa using hslot
        rw [hout first hfirst, Function.update_self, Nat.add_zero]
      | succ slot =>
        rw [hslots slot index (by simpa using hslot)]
        congr 1
        omega

private theorem violation_none {recorded : List RecordedHipLaunch} {order : List ℕ}
    {position : ℕ → Option ℕ} (hperm : order.Perm (List.range recorded.length))
    (hresp : Respects recorded order)
    (hslots : ∀ slot index, order[slot]? = some index → position index = some slot) :
    violation recorded position = none := by
  simp only [violation, List.findSome?_eq_none_iff, List.mem_range, List.mem_range'_1,
    ite_eq_right_iff, reduceCtorEq, imp_false, Bool.not_eq_true]
  intro i hi j hj
  obtain ⟨a, ha⟩ := List.mem_iff_getElem?.mp (hperm.mem_iff.mpr (List.mem_range.mpr hi))
  obtain ⟨b, hb⟩ := List.mem_iff_getElem?.mp
    (hperm.mem_iff.mpr (List.mem_range.mpr (show j < recorded.length by omega)))
  rw [hslots a i ha, hslots b j hb]
  rcases Nat.lt_or_ge a b with hab | hab
  · simp [notBefore, hab]
  · have hba : b < a := by
      rcases Nat.lt_or_eq_of_le hab with h | rfl
      · exact h
      · rw [ha] at hb
        cases hb
        omega
    rw [Respects, List.pairwise_iff_getElem] at hresp
    obtain ⟨hal, rfl⟩ := List.getElem?_eq_some_iff.mp ha
    obtain ⟨hbl, rfl⟩ := List.getElem?_eq_some_iff.mp hb
    rw [hresp b a hbl hal hba (by omega), Bool.false_and]

/-- The pass never gives up: what it schedules passes every check. -/
theorem widthSchedule_ok (recorded : List RecordedHipLaunch) {window : ℕ} (hw : 0 < window) :
    ∃ order, widthSchedule recorded window = .ok order ∧
      order.Perm (List.range recorded.length) ∧ Respects recorded order ∧ Near window 0 order := by
  obtain ⟨order, horder, hperm, hresp, hnear⟩ :=
    scheduleFrom_ok recorded hw (Nat.zero_le _) (Nat.le_refl _)
  rw [Nat.sub_zero] at horder hperm
  rw [← List.range_eq_range'] at hperm
  obtain ⟨position, hplace, -, hslots⟩ := place_ok 0 (fun _ => none)
    (hperm.nodup_iff.mpr List.nodup_range) (fun index hi => List.mem_range.mp (hperm.mem_iff.mp hi))
    fun _ _ => rfl
  have hlen : order.length = recorded.length := by
    rw [hperm.length_eq, List.length_range]
  have hviol := violation_none hperm hresp (by simpa using hslots)
  refine ⟨order, ?_, hperm, hresp, hnear⟩
  simp only [widthSchedule, horder, bind, Except.bind]
  rw [if_neg (by simpa using hlen), hplace]
  simp only [hviol]

theorem respects_range (recorded : List RecordedHipLaunch) (n : ℕ) :
    Respects recorded (List.range n) :=
  List.pairwise_lt_range.imp fun hab hba => absurd hba (by omega)

/-- For every window the result is a permutation that keeps dependent launches
in recorded order. -/
theorem pm4WidthReorder_spec (recorded : List RecordedHipLaunch) (window : ℕ) :
    (pm4WidthReorder recorded window).Perm (List.range recorded.length) ∧
      Respects recorded (pm4WidthReorder recorded window) := by
  unfold pm4WidthReorder
  split
  · exact ⟨.refl _, respects_range recorded _⟩
  · rename_i hw
    obtain ⟨order, horder, hperm, hresp, -⟩ := widthSchedule_ok recorded (show 0 < window by omega)
    rw [horder]
    exact ⟨hperm, hresp⟩

/-- From two launches on, a window bounds how far any launch moves. -/
theorem pm4WidthReorder_scheduled (recorded : List RecordedHipLaunch) {window : ℕ}
    (hw : 2 ≤ window) : widthSchedule recorded window = .ok (pm4WidthReorder recorded window) ∧
      Near window 0 (pm4WidthReorder recorded window) := by
  obtain ⟨order, horder, hperm, -, hnear⟩ := widthSchedule_ok recorded (show 0 < window by omega)
  have hresult : pm4WidthReorder recorded window = order := by
    unfold pm4WidthReorder
    split
    · rename_i h
      have hempty : recorded.length = 0 := by omega
      rw [hempty, List.range_zero] at hperm ⊢
      exact hperm.eq_nil.symm
    · rw [horder]
  rw [hresult]
  exact ⟨horder, hnear⟩

end Hipscope.Replay
