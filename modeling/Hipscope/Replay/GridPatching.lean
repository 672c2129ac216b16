import Hipscope.Replay.BuiltCommands
import Hipscope.Replay.DynamicGrid

/-! What the retained buffer holds after any number of replays with position-bound
grids, as long as bound launches are emitted at their recorded slots. -/
namespace Hipscope.Replay
open Redline Pm4

section Redimension

/-- The same packet, but for the dimensions of a dispatch. -/
inductive SameButDimensions : Packet → Packet → Prop
  | dispatch (x y z a b c initiator : UInt32) :
      SameButDimensions (.dispatchDirect x y z initiator) (.dispatchDirect a b c initiator)
  | refl (p : Packet) : SameButDimensions p p

/-- Two streams that differ in the dimensions of dispatches only. -/
def Redimensioned (ps qs : List Packet) : Prop := List.Forall₂ SameButDimensions ps qs

theorem SameButDimensions.trans {p q r : Packet} (h : SameButDimensions p q)
    (h' : SameButDimensions q r) : SameButDimensions p r := by
  cases h with
  | refl => exact h'
  | dispatch x y z a b c initiator =>
    cases h' with
    | refl => exact .dispatch x y z a b c initiator
    | dispatch _ _ _ a' b' c' _ => exact .dispatch x y z a' b' c' initiator

theorem Redimensioned.refl (ps : List Packet) : Redimensioned ps ps :=
  List.forall₂_same.mpr fun p _ => .refl p

theorem Redimensioned.trans {ps qs rs : List Packet} (h : Redimensioned ps qs)
    (h' : Redimensioned qs rs) : Redimensioned ps rs := by
  induction h generalizing rs with
  | nil => exact h'
  | cons hpq _ ih =>
    cases h' with
    | cons hqr hrest => exact .cons (hpq.trans hqr) (ih hrest)

/-- One dispatch of a stream gets new dimensions. -/
theorem redimensioned_at (before after : List Packet) (x y z a b c initiator : UInt32) :
    Redimensioned (before ++ .dispatchDirect x y z initiator :: after)
      (before ++ .dispatchDirect a b c initiator :: after) := by
  induction before with
  | nil => exact .cons (.dispatch x y z a b c initiator) (Redimensioned.refl after)
  | cons p before ih => exact .cons (.refl p) ih

theorem SameButDimensions.shape {p q : Packet} (h : SameButDimensions p q) :
    q.encode.length = p.encode.length ∧ q.dispatch?.isSome = p.dispatch?.isSome := by
  cases h with
  | refl => exact ⟨rfl, rfl⟩
  | dispatch => exact ⟨rfl, rfl⟩

theorem Redimensioned.cursors {ps qs : List Packet} (h : Redimensioned ps qs) (cursor : ℕ) :
    dispatchCursors cursor qs = dispatchCursors cursor ps := by
  induction h generalizing cursor with
  | nil => rfl
  | cons hpq _ ih =>
    obtain ⟨hlen, hsome⟩ := hpq.shape
    rw [dispatchCursors, dispatchCursors, hlen, hsome, ih]

/-- The dimensions of all dispatches after one of them changed. -/
theorem dispatches_at {before after : List Packet} {x y z initiator : UInt32} (a b c : UInt32) :
    dispatches (before ++ .dispatchDirect a b c initiator :: after) =
      (dispatches (before ++ .dispatchDirect x y z initiator :: after)).set (dispatches before).length
        [a, b, c] := by
  have hcons (x y z : UInt32) : dispatches (.dispatchDirect x y z initiator :: after) =
      [x, y, z] :: dispatches after := rfl
  rw [dispatches_append, dispatches_append, hcons, hcons, List.set_append_right _ _ (le_refl _),
    Nat.sub_self, List.set_cons_zero]

end Redimension

section Graph

/-- The buffer holds a stream that differs from the prepared one in dimensions. -/
structure Holds (prepared : List Packet) (graph : SingleQueuePm4Ib) (held : List Packet) : Prop where
  bytes : graph.indirect = asBytes (encodeStream held)
  offsets : graph.dispatchWorkgroupOffsets = (dispatchCursors 0 prepared).map (· * 4)
  redimensioned : Redimensioned prepared held

theorem Holds.patch {prepared held : List Packet} {graph next : SingleQueuePm4Ib}
    (h : Holds prepared graph held) {k : ℕ} {a b c : UInt32}
    (hn : graph.patchDispatchDimensions k a b c = .ok next) :
    next.usable = graph.usable ∧ k < (dispatches held).length ∧ ∃ held', Holds prepared next held' ∧
      dispatches held' = (dispatches held).set k [a, b, c] := by
  have hcursors : graph.dispatchWorkgroupOffsets = (dispatchCursors 0 held).map (· * 4) := by
    rw [h.offsets, h.redimensioned.cursors]
  obtain ⟨husable, hnonzero, hk⟩ := SingleQueuePm4Ib.patchDispatchDimensions_ok hn
  have hlt : k < (dispatches held).length := by
    rwa [hcursors, List.length_map, dispatchCursors_length] at hk
  obtain ⟨x, y, z, initiator, before, after, hat⟩ := exists_dispatchAt hlt
  have hgraph : graph = ⟨asBytes (encodeStream held), (dispatchCursors 0 held).map (· * 4), true⟩ := by
    rw [← h.bytes, ← hcursors, ← husable]
  rw [hgraph, hat.patch hnonzero] at hn
  cases hn
  refine ⟨by rw [husable], hlt, before ++ .dispatchDirect a b c initiator :: after, ⟨rfl, ?_, ?_⟩, ?_⟩
  · rw [h.redimensioned.cursors]
  · refine h.redimensioned.trans ?_
    rw [hat.split]
    exact redimensioned_at before after x y z a b c initiator
  · rw [hat.split, dispatches_at a b c, hat.index]

/-- The dimensions a grid gets at a position. -/
def BoundTo (architecture : Pm4Architecture) (position : ℕ) (grid : DynamicGrid)
    (dims : List UInt32) : Prop :=
  ∃ workgroups native, grid.binding.bind position grid.recorded = .ok workgroups ∧
    nativeDimensions architecture workgroups grid.workgroup = .ok native ∧
    dims = native.axes.map UInt32.ofNat

theorem patchGrid_ok {architecture : Pm4Architecture} {position : ℕ} {grid : DynamicGrid}
    {graph next : SingleQueuePm4Ib} {prepared held : List Packet} (h : Holds prepared graph held)
    (hn : patchGrid architecture position grid graph = .ok next) :
    next.usable = graph.usable ∧ grid.dispatch < (dispatches held).length ∧ ∃ held' dims,
      Holds prepared next held' ∧ BoundTo architecture position grid dims ∧
      dispatches held' = (dispatches held).set grid.dispatch dims := by
  obtain ⟨workgroups, hbind, hn⟩ := bind_ok hn
  obtain ⟨native, hnative, hn⟩ := bind_ok hn
  have hpatch : graph.patchDispatchDimensions grid.dispatch (UInt32.ofNat native.x)
      (UInt32.ofNat native.y) (UInt32.ofNat native.z) = .ok next := by
    generalize graph.patchDispatchDimensions _ _ _ _ = patched at hn
    cases patched with
    | error e => cases hn
    | ok patched =>
      cases hn
      rfl
  obtain ⟨husable, hlt, held', hholds, hdims⟩ := h.patch hpatch
  exact ⟨husable, hlt, held', _, hholds, ⟨workgroups, native, hbind, hnative, rfl⟩, hdims⟩

/-- What binding a list of grids does to the dimensions, complete or not. -/
structure Rebound (architecture : Pm4Architecture) (position : ℕ) (grids : List DynamicGrid)
    (outcome : Except GridError Unit) (old new : List (List UInt32)) : Prop where
  others : ∀ k, (∀ grid ∈ grids, grid.dispatch ≠ k) → new[k]? = old[k]?
  bound : ∀ grid ∈ grids, new[grid.dispatch]? = old[grid.dispatch]? ∨
    ∃ dims, BoundTo architecture position grid dims ∧ new[grid.dispatch]? = some dims
  complete : outcome = .ok () → ∀ grid ∈ grids, ∃ dims, BoundTo architecture position grid dims ∧
    new[grid.dispatch]? = some dims

/-- By induction on the grids; distinct dispatches keep the later patches from
overwriting the earlier ones. -/
theorem bindGrids_spec {architecture : Pm4Architecture} {position : ℕ} {grids : List DynamicGrid}
    {graph : SingleQueuePm4Ib} {prepared held : List Packet} (h : Holds prepared graph held)
    (hdistinct : (grids.map DynamicGrid.dispatch).Nodup) :
    (bindGrids architecture position grids graph).2.usable = graph.usable ∧ ∃ held',
      Holds prepared (bindGrids architecture position grids graph).2 held' ∧
      Rebound architecture position grids (bindGrids architecture position grids graph).1
        (dispatches held) (dispatches held') := by
  induction grids generalizing graph held with
  | nil => exact ⟨rfl, held, h, ⟨fun _ _ => rfl, by simp, by simp⟩⟩
  | cons grid grids ih =>
    rw [List.map_cons, List.nodup_cons] at hdistinct
    have hfresh : ∀ later ∈ grids, later.dispatch ≠ grid.dispatch := fun later hl heq =>
      hdistinct.1 (heq ▸ List.mem_map_of_mem hl)
    unfold bindGrids
    cases hp : patchGrid architecture position grid graph with
    | error e => exact ⟨rfl, held, h, ⟨fun _ _ => rfl, fun _ _ => .inl rfl, by simp⟩⟩
    | ok next =>
      obtain ⟨husable, hlt, held', dims, hholds, hbound, hdims⟩ := patchGrid_ok h hp
      obtain ⟨husable', held'', hholds', hrest⟩ := ih hholds hdistinct.2
      have hhead : (dispatches held'')[grid.dispatch]? = some dims := by
        rw [hrest.others grid.dispatch hfresh, hdims, List.getElem?_set_self hlt]
      have htail (k : ℕ) (hk : grid.dispatch ≠ k) : (dispatches held')[k]? = (dispatches held)[k]? := by
        rw [hdims, List.getElem?_set_ne hk]
      refine ⟨husable'.trans husable, held'', hholds', ⟨fun k hk => ?_, fun g hg => ?_, fun hok g hg => ?_⟩⟩
      · rw [hrest.others k fun g hg => hk g (List.mem_cons_of_mem _ hg),
          htail k (hk grid List.mem_cons_self)]
      · rcases List.mem_cons.mp hg with rfl | hg
        · exact .inr ⟨dims, hbound, hhead⟩
        · rw [← htail g.dispatch (hfresh g hg).symm]
          exact hrest.bound g hg
      · rcases List.mem_cons.mp hg with rfl | hg
        · exact ⟨dims, hbound, hhead⟩
        · exact hrest.complete hok g hg

end Graph

section Geometry

/-- Positive counts of a positive size with a 32-bit product. -/
def Fits (count size : ℕ) : Prop := 0 < count ∧ 0 < size ∧ count * size < 2 ^ 32

def Fits3 (grid block : Dim3) : Prop :=
  Fits grid.x block.x ∧ Fits grid.y block.y ∧ Fits grid.z block.z

/-- The geometry of a grid of work-groups. -/
def geometryOf (grid block : Dim3) : LaunchGeometry :=
  ⟨⟨grid.x * block.x, grid.y * block.y, grid.z * block.z⟩, block, 3⟩

private theorem axes_none {α : Type} (grid block : Dim3) (f : (ℕ × ℕ) × ℕ → Option α) :
    (grid.axes.zip block.axes).zipIdx.findSome? f = none ↔
      f ((grid.x, block.x), 0) = none ∧ f ((grid.y, block.y), 1) = none ∧
        f ((grid.z, block.z), 2) = none := by
  simp [Dim3.axes]

private theorem new_eq {grid block : Dim3} (h : LaunchGeometry.axisError grid block = none) :
    ∃ rank, LaunchGeometry.new grid block = .ok ⟨grid, block, rank⟩ := by
  unfold LaunchGeometry.new
  rw [h]
  dsimp only
  by_cases hz : grid.z ≠ 1 ∨ block.z ≠ 1
  · exact ⟨3, by simp [hz]⟩
  by_cases hy : grid.y ≠ 1 ∨ block.y ≠ 1
  · exact ⟨2, by simp [hz, hy]⟩
  · exact ⟨1, by simp [hz, hy]⟩

private theorem axisError_none {grid block : Dim3} :
    LaunchGeometry.axisError ⟨grid.x * block.x, grid.y * block.y, grid.z * block.z⟩ block = none ↔
      (0 < grid.x ∧ 0 < block.x) ∧ (0 < grid.y ∧ 0 < block.y) ∧ 0 < grid.z ∧ 0 < block.z := by
  have haxis (count size axis : ℕ) : (if count * size = 0 ∨ size = 0 then
      some (PacketError.zeroDimension axis)
      else if size > count * size then some (.workgroupExceedsGrid axis size (count * size)) else none) =
      none ↔ 0 < count ∧ 0 < size := by
    rcases Nat.eq_zero_or_pos count with rfl | hc
    · simp
    rcases Nat.eq_zero_or_pos size with rfl | hs
    · simp
    simp [hc, hs, hc.ne', hs.ne']
  rw [LaunchGeometry.axisError, axes_none]
  exact and_congr (haxis _ _ _) (and_congr (haxis _ _ _) (haxis _ _ _))

theorem fromHipWorkgroups_iff {grid block : Dim3} {geometry : LaunchGeometry} :
    LaunchGeometry.fromHipWorkgroups grid block = .ok geometry ↔
      Fits3 grid block ∧ geometry = geometryOf grid block := by
  have hover (count size axis : ℕ) : (if count * size ≥ 2 ^ 32 then
      some (PacketError.gridDimensionOverflow axis count size) else none) = none ↔
      count * size < 2 ^ 32 := by simp
  unfold LaunchGeometry.fromHipWorkgroups LaunchGeometry.fromWorkgroups
  split
  · rename_i hsome
    have hnot : ¬ Fits3 grid block := by
      rintro ⟨⟨-, -, hx⟩, ⟨-, -, hy⟩, -, -, hz⟩
      rw [(axes_none grid block _).mpr
        ⟨(hover _ _ _).mpr hx, (hover _ _ _).mpr hy, (hover _ _ _).mpr hz⟩] at hsome
      cases hsome
    simp [hnot, bind, Except.bind]
  · rename_i hnone
    rw [axes_none] at hnone
    have hx32 := (hover _ _ _).mp hnone.1
    have hy32 := (hover _ _ _).mp hnone.2.1
    have hz32 := (hover _ _ _).mp hnone.2.2
    cases he : LaunchGeometry.axisError ⟨grid.x * block.x, grid.y * block.y, grid.z * block.z⟩ block with
    | some e =>
      have hnot : ¬ Fits3 grid block := by
        rintro ⟨⟨hx, hx', -⟩, ⟨hy, hy', -⟩, hz, hz', -⟩
        rw [axisError_none.mpr ⟨⟨hx, hx'⟩, ⟨hy, hy'⟩, hz, hz'⟩] at he
        cases he
      simp [LaunchGeometry.new, he, hnot, bind, Except.bind]
    | none =>
      obtain ⟨rank, hnew⟩ := new_eq he
      obtain ⟨⟨hx, hx'⟩, ⟨hy, hy'⟩, hz, hz'⟩ := axisError_none.mp he
      have hfits : Fits3 grid block :=
        ⟨⟨hx, hx', hx32⟩, ⟨hy, hy', hy32⟩, hz, hz', hz32⟩
      rw [hnew]
      simp [hfits, geometryOf, bind, Except.bind, pure, Except.pure, eq_comm]

theorem dimensions_geometryOf {grid block : Dim3} (h : Fits3 grid block) (gfx12 : Bool) :
    dimensions gfx12 (geometryOf grid block) = .ok ((if gfx12 then
        (geometryOf grid block).gridWorkitems else grid).axes.map UInt32.ofNat) := by
  obtain ⟨⟨-, hx, -⟩, ⟨-, hy, -⟩, -, hz, -⟩ := h
  cases gfx12 with
  | true => rfl
  | false =>
    have hcounts : Gfx10Pm4CommandBuffer.workgroups (geometryOf grid block) = .ok grid := by
      unfold Gfx10Pm4CommandBuffer.workgroups
      rw [show (geometryOf grid block).workgroup = block from rfl, (axes_none _ _ _).mpr]
      · simp [geometryOf, Nat.mul_div_cancel _ hx, Nat.mul_div_cancel _ hy, Nat.mul_div_cancel _ hz]
      · simp [geometryOf]
    simp [dimensions, hcounts, Except.map]

/-- A bound grid is no larger than the recorded one, and not empty. -/
theorem bind_narrows {binding : ReplayGridBinding} {position : ℕ} {recorded grid block : Dim3}
    (h : binding.bind position recorded = .ok grid) (hfits : Fits3 recorded block) :
    Fits3 grid block ∧ grid.x ≤ recorded.x ∧ grid.y ≤ recorded.y ∧ grid.z ≤ recorded.z := by
  obtain ⟨axis, addend, divisor⟩ := binding
  unfold ReplayGridBinding.bind at h
  dsimp only at h
  split at h
  · cases h
  rename_i haxis
  split at h
  · cases h
  split at h
  · cases h
  generalize hunits : max ((position + addend + (divisor - 1)) / divisor) 1 = units at h
  have hpos : 0 < units := by omega
  have hnarrow {count size : ℕ} (hf : Fits count size) : Fits (min units count) size :=
    ⟨by have := hf.1; omega, hf.2.1,
      lt_of_le_of_lt (Nat.mul_le_mul_right size (Nat.min_le_right units count)) hf.2.2⟩
  cases h
  obtain ⟨hx, hy, hz⟩ := hfits
  obtain rfl | rfl | rfl : axis = 0 ∨ axis = 1 ∨ axis = 2 := by omega
  · exact ⟨⟨hnarrow hx, hy, hz⟩, Nat.min_le_right _ _, le_rfl, le_rfl⟩
  · exact ⟨⟨hx, hnarrow hy, hz⟩, le_rfl, Nat.min_le_right _ _, le_rfl⟩
  · exact ⟨⟨hx, hy, hnarrow hz⟩, le_rfl, le_rfl, Nat.min_le_right _ _⟩

theorem nativeDimensions_ok {architecture : Pm4Architecture} {workgroups workgroup native : Dim3}
    (h : nativeDimensions architecture workgroups workgroup = .ok native) :
    native = if architecture = .gfx12 then (geometryOf workgroups workgroup).gridWorkitems
      else workgroups := by
  unfold nativeDimensions at h
  split at h
  · rename_i hgfx
    rw [if_pos hgfx]
    split at h
    · cases h
    · cases h
      rfl
  · rename_i hgfx
    rw [if_neg hgfx]
    cases h
    rfl

/-- No dimension is larger. -/
def NoLarger (dims dims' : List UInt32) : Prop := List.Forall₂ (fun d d' => d ≤ d') dims dims'

theorem noLarger_axes {d d' : Dim3} (hx : d.x ≤ d'.x) (hy : d.y ≤ d'.y) (hz : d.z ≤ d'.z)
    (hx' : d'.x < 2 ^ 32) (hy' : d'.y < 2 ^ 32) (hz' : d'.z < 2 ^ 32) :
    NoLarger (d.axes.map UInt32.ofNat) (d'.axes.map UInt32.ofNat) := by
  have hle {n m : ℕ} (h : n ≤ m) (hm : m < 2 ^ 32) : UInt32.ofNat n ≤ UInt32.ofNat m := by
    rw [UInt32.le_iff_toNat_le, UInt32.toNat_ofNat_of_lt' (by simpa using lt_of_le_of_lt h hm),
      UInt32.toNat_ofNat_of_lt' (by simpa using hm)]
    exact h
  exact .cons (hle hx hx') (.cons (hle hy hy') (.cons (hle hz hz') .nil))

/-- The dimensions of a bound grid are those the encoder writes for it, and no
larger than the recorded ones. -/
theorem BoundTo.encoded {architecture : Pm4Architecture} {position : ℕ} {grid : DynamicGrid}
    {dims : List UInt32} {geometry : LaunchGeometry} (h : BoundTo architecture position grid dims)
    (hgeometry : LaunchGeometry.fromHipWorkgroups grid.recorded grid.workgroup = .ok geometry) :
    ∃ workgroups bound dims', grid.binding.bind position grid.recorded = .ok workgroups ∧
      LaunchGeometry.fromHipWorkgroups workgroups grid.workgroup = .ok bound ∧
      dimensions (architecture = .gfx12) bound = .ok dims ∧
      dimensions (architecture = .gfx12) geometry = .ok dims' ∧ NoLarger dims dims' := by
  obtain ⟨workgroups, native, hbind, hnative, rfl⟩ := h
  obtain ⟨hfits, rfl⟩ := fromHipWorkgroups_iff.mp hgeometry
  obtain ⟨hfits', hx, hy, hz⟩ := bind_narrows hbind hfits
  refine ⟨workgroups, geometryOf workgroups grid.workgroup, _, hbind,
    fromHipWorkgroups_iff.mpr ⟨hfits', rfl⟩, ?_, dimensions_geometryOf hfits _, ?_⟩
  · rw [dimensions_geometryOf hfits', nativeDimensions_ok hnative]
    simp
  · rw [nativeDimensions_ok hnative]
    obtain ⟨⟨-, hbx, hpx⟩, ⟨-, hby, hpy⟩, -, hbz, hpz⟩ := hfits
    by_cases hgfx : architecture = .gfx12
    · simp only [hgfx, decide_true, if_true]
      exact noLarger_axes (Nat.mul_le_mul_right _ hx) (Nat.mul_le_mul_right _ hy)
        (Nat.mul_le_mul_right _ hz) hpx hpy hpz
    · simp only [hgfx, decide_false, if_false, Bool.false_eq_true]
      exact noLarger_axes hx hy hz (lt_of_le_of_lt (Nat.le_mul_of_pos_right _ hbx) hpx)
        (lt_of_le_of_lt (Nat.le_mul_of_pos_right _ hby) hpy)
        (lt_of_le_of_lt (Nat.le_mul_of_pos_right _ hbz) hpz)

end Geometry

section Runs

def PreparedPm4Replay.run : PreparedPm4Replay → List ReplayStep →
    List (ReplayStep × PreparedPm4Replay × Option (List UInt8))
  | _, [] => []
  | replay, step :: steps =>
    let next := replay.replayAndWait step
    (step, next) :: next.1.run steps

/-- The packets of the retained buffer of a stream. -/
def Pm4Commands.timedPackets (dispatchProfile : Bool) (timestamps : ℕ) (commands : Pm4Commands) :
    List Packet :=
  match commands with
  | .legacy _ commands _ => (commands.withGpuTimestamps timestamps (timestamps + 8)).packets
  | .gfx12 commands =>
    if dispatchProfile then (commands.withPerDispatchTimestamps timestamps).packets
    else (commands.withGpuTimestamps timestamps (timestamps + 8)).packets

/-- A submitted buffer is the prepared one with the bound launches narrowed to
the position, and only those. -/
def SubmittedAt (gfx12 : Bool) (recorded : List RecordedHipLaunch) (order : List ℕ)
    (prepared : List Packet) (position : ℕ) (bytes : List UInt8) : Prop :=
  ∃ held, bytes = asBytes (encodeStream held) ∧ Redimensioned prepared held ∧
    ∀ (slot index : ℕ) (launch : RecordedHipLaunch), order[slot]? = some index →
      recorded[index]? = some launch →
      (launch.gridBinding = none → (dispatches held)[slot]? = (dispatches prepared)[slot]?) ∧
      ∀ binding : ReplayGridBinding, launch.gridBinding = some binding → ∃ workgroups geometry dims,
        binding.bind position launch.grid = .ok workgroups ∧
        LaunchGeometry.fromHipWorkgroups workgroups launch.block = .ok geometry ∧
        dimensions gfx12 geometry = .ok dims ∧ (dispatches held)[slot]? = some dims

/-- No dispatch of the buffer is larger than the prepared one. -/
def WithinRecorded (prepared : List Packet) (bytes : List UInt8) : Prop :=
  ∃ held, bytes = asBytes (encodeStream held) ∧ Redimensioned prepared held ∧
    ∀ (slot : ℕ) (dims dims' : List UInt32), (dispatches held)[slot]? = some dims →
      (dispatches prepared)[slot]? = some dims' → NoLarger dims dims'

/-- In every replay of a run the grids follow the position, and a replay that
fails leaves no grid larger than recorded. -/
def GridsFollow (gfx12 : Bool) (recorded : List RecordedHipLaunch) (order : List ℕ)
    (prepared : List Packet) (replay : PreparedPm4Replay) (steps : List ReplayStep) : Prop :=
  ∀ entry ∈ replay.run steps,
    (∀ bytes, entry.2.2 = some bytes →
      SubmittedAt gfx12 recorded order prepared entry.1.position bytes) ∧
    WithinRecorded prepared entry.2.1.graph.indirect

theorem mem_dynamicGrids {recorded : List RecordedHipLaunch} {grid : DynamicGrid}
    (h : grid ∈ dynamicGrids recorded) : ∃ launch, recorded[grid.dispatch]? = some launch ∧
      launch.gridBinding = some grid.binding ∧ grid.recorded = launch.grid ∧
      grid.workgroup = launch.block := by
  obtain ⟨⟨launch, index⟩, hmem, hgrid⟩ := List.mem_filterMap.mp h
  obtain ⟨binding, hbinding, rfl⟩ := Option.map_eq_some_iff.mp hgrid
  exact ⟨launch, List.mem_zipIdx_iff_getElem?.mp hmem, hbinding, rfl, rfl⟩

theorem dynamicGrids_of_binding {recorded : List RecordedHipLaunch} {index : ℕ}
    {launch : RecordedHipLaunch} {binding : ReplayGridBinding} (h : recorded[index]? = some launch)
    (hb : launch.gridBinding = some binding) :
    ⟨index, binding, launch.grid, launch.block⟩ ∈ dynamicGrids recorded := by
  refine List.mem_filterMap.mpr ⟨(launch, index), List.mem_zipIdx_iff_getElem?.mpr h, ?_⟩
  simp [hb]

theorem dynamicGrids_distinct (recorded : List RecordedHipLaunch) :
    ((dynamicGrids recorded).map DynamicGrid.dispatch).Nodup := by
  have hsub : ((dynamicGrids recorded).map DynamicGrid.dispatch).Sublist
      (recorded.zipIdx.map Prod.snd) := by
    unfold dynamicGrids
    generalize recorded.zipIdx = pairs
    induction pairs with
    | nil => exact .slnil
    | cons pair pairs ih =>
      rw [List.filterMap_cons]
      cases hb : pair.1.gridBinding with
      | none => simpa [hb] using ih.cons pair.2
      | some binding => simpa [hb] using ih.cons_cons pair.2
  refine hsub.nodup ?_
  rw [List.zipIdx_map_snd]
  exact List.nodup_range'

/-- What a run maintains. -/
structure Following (recorded : List RecordedHipLaunch) (prepared : List Packet)
    (replay : PreparedPm4Replay) (held : List Packet) : Prop where
  grids : replay.dynamicGrids = dynamicGrids recorded
  holds : Holds prepared replay.graph held
  others : ∀ slot, (∀ grid ∈ dynamicGrids recorded, grid.dispatch ≠ slot) →
    (dispatches held)[slot]? = (dispatches prepared)[slot]?
  within : ∀ (slot : ℕ) (dims dims' : List UInt32), (dispatches held)[slot]? = some dims →
    (dispatches prepared)[slot]? = some dims' → NoLarger dims dims'

/-- Where bound launches keep their slots, the dispatch a grid patches is its own. -/
theorem grid_dispatch {gfx12 : Bool} {recorded : List RecordedHipLaunch} {order : List ℕ}
    {prepared : List Packet} {grid : DynamicGrid} (hgrid : grid ∈ dynamicGrids recorded)
    (hdispatched : List.Forall₂ (DispatchOf gfx12 recorded) order (dispatches prepared))
    (hkept : order[grid.dispatch]? = some grid.dispatch) :
    ∃ geometry dims, LaunchGeometry.fromHipWorkgroups grid.recorded grid.workgroup = .ok geometry ∧
      dimensions gfx12 geometry = .ok dims ∧ (dispatches prepared)[grid.dispatch]? = some dims := by
  obtain ⟨hlen, hall⟩ := List.forall₂_iff_get.mp hdispatched
  obtain ⟨hlt, hget⟩ := List.getElem?_eq_some_iff.mp hkept
  have hlt' : grid.dispatch < (dispatches prepared).length := hlen ▸ hlt
  obtain ⟨launch, geometry, hlaunch, hgeometry, hdims⟩ := hall grid.dispatch hlt hlt'
  obtain ⟨launch', hlaunch', -, hrecorded, hworkgroup⟩ := mem_dynamicGrids hgrid
  have hsame : recorded[grid.dispatch]? = some launch := by
    rw [← hlaunch]
    exact congrArg _ hget.symm
  rw [hsame, Option.some.injEq] at hlaunch'
  subst hlaunch'
  exact ⟨geometry, _, by rwa [hrecorded, hworkgroup], hdims, List.getElem?_eq_getElem hlt'⟩

section Step
variable {gfx12 : Bool} {recorded : List RecordedHipLaunch} {order : List ℕ} {prepared : List Packet}

/-- Binding the grids of a recording keeps every dispatch within its recorded
dimensions, also when it stops half way. -/
theorem Following.bind {replay : PreparedPm4Replay} {held : List Packet}
    (h : Following recorded prepared replay held)
    (hgfx : gfx12 = decide (replay.architecture = .gfx12))
    (hdispatched : List.Forall₂ (DispatchOf gfx12 recorded) order (dispatches prepared))
    (hkept : ∀ grid ∈ dynamicGrids recorded, order[grid.dispatch]? = some grid.dispatch)
    (position : ℕ) :
    ∃ held', Following recorded prepared
        { replay with graph := (bindGrids replay.architecture position replay.dynamicGrids replay.graph).2 }
        held' ∧
      Rebound replay.architecture position (dynamicGrids recorded)
        (bindGrids replay.architecture position replay.dynamicGrids replay.graph).1
        (dispatches held) (dispatches held') := by
  rw [h.grids]
  obtain ⟨-, held', hholds, hrebound⟩ := @bindGrids_spec replay.architecture position
    (dynamicGrids recorded) replay.graph prepared held h.holds (dynamicGrids_distinct recorded)
  refine ⟨held', ⟨rfl, hholds, fun slot hslot => ?_, fun slot dims dims' hnew hold => ?_⟩, hrebound⟩
  · rw [hrebound.others slot hslot, h.others slot hslot]
  · by_cases hslot : ∃ grid ∈ dynamicGrids recorded, grid.dispatch = slot
    · obtain ⟨grid, hgrid, rfl⟩ := hslot
      rcases hrebound.bound grid hgrid with hsame | ⟨dims'', hbound, hat⟩
      · rw [hsame] at hnew
        exact h.within grid.dispatch dims dims' hnew hold
      · obtain ⟨geometry, recordedDims, hgeometry, hrecorded, hprepared⟩ :=
          grid_dispatch hgrid hdispatched (hkept grid hgrid)
        obtain ⟨-, -, dims₀, -, -, -, hdims₀, hle⟩ := hbound.encoded hgeometry
        rw [← hgfx, hrecorded, Except.ok.injEq] at hdims₀
        rw [hat, Option.some.injEq] at hnew
        rw [hprepared, Option.some.injEq] at hold
        rwa [← hnew, ← hold, hdims₀]
    · have hother : ∀ grid ∈ dynamicGrids recorded, grid.dispatch ≠ slot := fun grid hg heq =>
        hslot ⟨grid, hg, heq⟩
      rw [hrebound.others slot hother] at hnew
      exact h.within slot dims dims' hnew hold

/-- A buffer whose grids were all bound to the position. -/
theorem Following.submitted {replay : PreparedPm4Replay} {held held' : List Packet} {position : ℕ}
    (h : Following recorded prepared replay held')
    (hgfx : gfx12 = decide (replay.architecture = .gfx12))
    (hdispatched : List.Forall₂ (DispatchOf gfx12 recorded) order (dispatches prepared))
    (hperm : order.Perm (List.range recorded.length))
    (hkept : ∀ grid ∈ dynamicGrids recorded, order[grid.dispatch]? = some grid.dispatch)
    (hrebound : Rebound replay.architecture position (dynamicGrids recorded) (.ok ())
      (dispatches held) (dispatches held')) :
    SubmittedAt gfx12 recorded order prepared position replay.graph.indirect := by
  have hnodup : order.Nodup := hperm.nodup_iff.mpr List.nodup_range
  refine ⟨held', h.holds.bytes, h.holds.redimensioned, fun slot index launch hslot hlaunch => ⟨?_, ?_⟩⟩
  · intro hnone
    refine h.others slot fun grid hgrid heq => ?_
    have hown := hkept grid hgrid
    rw [heq, hslot, Option.some.injEq] at hown
    obtain ⟨launch', hlaunch', hbinding, -⟩ := mem_dynamicGrids hgrid
    rw [heq, ← hown, hlaunch, Option.some.injEq] at hlaunch'
    rw [← hlaunch', hnone] at hbinding
    cases hbinding
  · intro binding hbinding
    have hgrid := dynamicGrids_of_binding hlaunch hbinding
    have hown : order[index]? = some index := hkept _ hgrid
    obtain rfl : slot = index := by
      obtain ⟨hs, hsi⟩ := List.getElem?_eq_some_iff.mp hslot
      obtain ⟨hi, hii⟩ := List.getElem?_eq_some_iff.mp hown
      exact (hnodup.getElem_inj_iff).mp (hsi.trans hii.symm)
    obtain ⟨dims, hbound, hat⟩ := hrebound.complete rfl _ hgrid
    obtain ⟨geometry, -, hgeometry, -⟩ := grid_dispatch hgrid hdispatched hown
    obtain ⟨workgroups, bound, -, hbind, hgeo, hdims, -⟩ := hbound.encoded hgeometry
    exact ⟨workgroups, bound, dims, hbind, hgeo, by rwa [hgfx], hat⟩

theorem Following.within_recorded {replay : PreparedPm4Replay} {held : List Packet}
    (h : Following recorded prepared replay held) :
    WithinRecorded prepared replay.graph.indirect :=
  ⟨held, h.holds.bytes, h.holds.redimensioned, h.within⟩

/-- One replay. -/
theorem Following.step {replay : PreparedPm4Replay} {held : List Packet}
    (h : Following recorded prepared replay held)
    (hgfx : gfx12 = decide (replay.architecture = .gfx12))
    (hdispatched : List.Forall₂ (DispatchOf gfx12 recorded) order (dispatches prepared))
    (hperm : order.Perm (List.range recorded.length))
    (hkept : ∀ grid ∈ dynamicGrids recorded, order[grid.dispatch]? = some grid.dispatch)
    (step : ReplayStep) :
    (replay.replayAndWait step).1.architecture = replay.architecture ∧
      (∃ held', Following recorded prepared (replay.replayAndWait step).1 held') ∧
      ∀ bytes, (replay.replayAndWait step).2 = some bytes →
        SubmittedAt gfx12 recorded order prepared step.position bytes := by
  obtain ⟨held', hfollowing, hrebound⟩ := h.bind hgfx hdispatched hkept step.position
  unfold PreparedPm4Replay.replayAndWait
  generalize patchFrames step.reserve replay.dynamicGdnFrames.zipIdx replay.kernargs = framed
  generalize bindGrids replay.architecture step.position replay.dynamicGrids replay.graph = bound
    at hfollowing hrebound ⊢
  obtain ⟨framed, kernargs⟩ := framed
  obtain ⟨outcome, graph⟩ := bound
  have hgraph (usable : Bool) : Following recorded prepared
      { replay with kernargs := kernargs, graph := { graph with usable := usable } } held' :=
    ⟨hfollowing.grids, ⟨hfollowing.holds.bytes, hfollowing.holds.offsets,
      hfollowing.holds.redimensioned⟩, hfollowing.others, hfollowing.within⟩
  cases framed with
  | error e =>
    refine ⟨rfl, ⟨held, h.grids, ⟨h.holds.bytes, h.holds.offsets, h.holds.redimensioned⟩, h.others,
      h.within⟩, ?_⟩
    intro bytes hb
    cases hb
  | ok =>
    cases outcome with
    | error e =>
      refine ⟨rfl, ⟨held', hgraph graph.usable⟩, ?_⟩
      intro bytes hb
      cases hb
    | ok =>
      dsimp only
      split
      · refine ⟨rfl, ⟨held', hgraph step.completes⟩, fun bytes hb => ?_⟩
        obtain rfl : graph.indirect = bytes := by simpa using hb
        exact hfollowing.submitted hgfx hdispatched hperm hkept hrebound
      · refine ⟨rfl, ⟨held', hgraph graph.usable⟩, ?_⟩
        intro bytes hb
        cases hb

/-- Every replay of a run. -/
theorem Following.run {replay : PreparedPm4Replay} {held : List Packet}
    (h : Following recorded prepared replay held)
    (hgfx : gfx12 = decide (replay.architecture = .gfx12))
    (hdispatched : List.Forall₂ (DispatchOf gfx12 recorded) order (dispatches prepared))
    (hperm : order.Perm (List.range recorded.length))
    (hkept : ∀ grid ∈ dynamicGrids recorded, order[grid.dispatch]? = some grid.dispatch)
    (steps : List ReplayStep) : GridsFollow gfx12 recorded order prepared replay steps := by
  induction steps generalizing replay held with
  | nil => simp [GridsFollow, PreparedPm4Replay.run]
  | cons step steps ih =>
    obtain ⟨harch, ⟨held', hnext⟩, hsubmitted⟩ := h.step hgfx hdispatched hperm hkept step
    intro entry hentry
    rcases List.mem_cons.mp hentry with rfl | hentry
    · exact ⟨hsubmitted, hnext.within_recorded⟩
    · exact ih hnext (by rwa [harch]) entry hentry

end Step

theorem timedPackets_built {commands : Pm4Commands} (h : commands.Built) (dispatchProfile : Bool)
    (timestamps : ℕ) : WellFormedStream (commands.timedPackets dispatchProfile timestamps) ∧
      dispatches (commands.timedPackets dispatchProfile timestamps) = dispatches commands.packets := by
  have hbracket (ps : List Packet) : dispatches ([.copyTimestamp timestamps] ++ ps ++
      [.releaseTimestamp (timestamps + 8)]) = dispatches ps := by
    have hstart : dispatches [.copyTimestamp timestamps] = [] := rfl
    have hstop : dispatches [.releaseTimestamp (timestamps + 8)] = [] := rfl
    rw [dispatches_append, dispatches_append, hstart, hstop, List.nil_append, List.append_nil]
  cases commands with
  | legacy architecture buffer mode =>
    refine ⟨?_, hbracket buffer.packets⟩
    exact Gfx10Built.wellFormed (.apply (.withGpuTimestamps timestamps (timestamps + 8)) h (by simp))
  | gfx12 buffer =>
    cases dispatchProfile with
    | false =>
      refine ⟨?_, hbracket buffer.packets⟩
      exact Gfx12Built.wellFormed (.apply (.withGpuTimestamps timestamps (timestamps + 8)) h)
    | true =>
      refine ⟨?_, dispatches_instrument timestamps buffer.packets⟩
      exact Gfx12Built.wellFormed (.apply (.withPerDispatchTimestamps timestamps) h)

private theorem liftError_ok {ε ε' α : Type} {wrap : ε → ε'} {x : Except ε α} {a : α}
    (h : liftError wrap x = .ok a) : x = .ok a := by
  cases x with
  | ok b =>
    cases h
    rfl
  | error e => cases h

theorem createEncoded_ok {ps : List Packet} (h : WellFormedStream ps) {graph : SingleQueuePm4Ib}
    (hg : SingleQueuePm4Ib.createEncoded (encodeStream ps) = .ok graph) : Holds ps graph ps := by
  unfold SingleQueuePm4Ib.createEncoded at hg
  split at hg
  · cases hg
  rw [pm4DispatchWorkgroupOffsets_encodeStream h] at hg
  cases hg
  exact ⟨rfl, rfl, .refl ps⟩

theorem createGraph_ok {commands : Pm4Commands} (h : commands.Built) {dispatchProfile : Bool}
    {timestamps : ℕ} {graph : SingleQueuePm4Ib}
    (hg : commands.createGraph dispatchProfile timestamps = .ok graph) :
    Holds (commands.timedPackets dispatchProfile timestamps) graph
      (commands.timedPackets dispatchProfile timestamps) := by
  refine createEncoded_ok (timedPackets_built h dispatchProfile timestamps).1 ?_
  unfold Pm4Commands.createGraph at hg
  split at hg
  · cases hg
  cases commands with
  | legacy architecture buffer mode => exact liftError_ok hg
  | gfx12 buffer =>
    cases dispatchProfile with
    | false => exact liftError_ok hg
    | true =>
      obtain ⟨timed, htimed, hg⟩ := bind_ok hg
      have hinstrument := withPerDispatchTimestamps_encodeStream (Gfx12Built.wellFormed h) timestamps
      rw [show encodeStream buffer.packets = buffer.dwords from rfl, liftError_ok htimed,
        Except.ok.injEq] at hinstrument
      rw [hinstrument] at hg
      exact liftError_ok hg

/-- As long as every launch with a grid binding is emitted at its recorded slot,
in every run of replays the bound grids, and no other dispatches, follow the
position. -/
theorem replay_gridsFollow (env : Pm4Environment) (recorded : List RecordedHipLaunch) (count : ℕ)
    (dispatchProfile : Bool) (timestamps : ℕ) (ib : SingleIb) (replay : PreparedPm4Replay)
    (hib : prepareSingleIb env recorded count = .ok ib)
    (hreplay : preparePm4 env recorded count dispatchProfile timestamps = .ok replay)
    (hkept : ∀ (index : ℕ) (launch : RecordedHipLaunch), (recorded.take count)[index]? = some launch →
      launch.gridBinding ≠ none → (emissionOrder env (recorded.take count))[index]? = some index)
    (steps : List ReplayStep) :
    GridsFollow (env.settings.architecture = .gfx12) (recorded.take count) ib.order
      (ib.commands.timedPackets dispatchProfile timestamps) replay steps := by
  obtain ⟨-, items, hprepared⟩ := prepareSingleIb_ok hib
  obtain ⟨mode, hcommands⟩ := hprepared.commands
  obtain ⟨hbuilt, hgfx⟩ := singleIbCommands_built hcommands
  obtain ⟨hwell, hsame⟩ := timedPackets_built hbuilt dispatchProfile timestamps
  obtain ⟨ib', hib', hreplay⟩ := bind_ok hreplay
  obtain rfl : ib = ib' := by
    have hsame := liftError_ok hib'
    rw [hib] at hsame
    exact Except.ok.inj hsame
  obtain ⟨graph, hgraph, hreplay⟩ := bind_ok hreplay
  cases hreplay
  have hholds := createGraph_ok hbuilt hgraph
  have hdispatched := hprepared.dispatched
  rw [hgfx, ← hsame] at hdispatched
  have hstart : Following (recorded.take count) (ib.commands.timedPackets dispatchProfile timestamps)
      ⟨graph, ib.tape.map TapeLaunch.kernarg, dynamicGdnFrames (recorded.take count),
        dynamicGrids (recorded.take count), env.settings.architecture⟩
      (ib.commands.timedPackets dispatchProfile timestamps) := by
    refine ⟨rfl, hholds, fun _ _ => rfl, fun slot dims dims' h h' => ?_⟩
    rw [h, Option.some.injEq] at h'
    rw [h']
    exact List.forall₂_same.mpr fun d _ => UInt32.le_refl d
  refine hstart.run rfl hdispatched hprepared.order_spec.1 (fun grid hgrid => ?_) steps
  obtain ⟨launch, hlaunch, hbinding, -⟩ := mem_dynamicGrids hgrid
  rw [hprepared.order]
  exact hkept grid.dispatch launch hlaunch (by simp [hbinding])

end Runs

section Example

/-- The dimensions a buffer holds for a dispatch, read off its bytes. -/
theorem Redimensioned.held_dims {prepared held : List Packet} (h : Redimensioned prepared held)
    {k cursor : ℕ} (hc : (dispatchCursors 0 prepared)[k]? = some cursor) :
    ∃ dims, (dispatches held)[k]? = some dims ∧
      dims = dwordsOfBytes (((asBytes (encodeStream held)).drop (cursor * 4)).take 12) := by
  rw [← h.cursors] at hc
  have hlt : k < (dispatches held).length := by
    rw [← dispatchCursors_length 0]
    exact (List.getElem?_eq_some_iff.mp hc).1
  obtain ⟨x, y, z, initiator, before, after, hat⟩ := exists_dispatchAt hlt
  obtain rfl : (encodeStream before).length + 1 = cursor := by simpa [hat.cursor] using hc
  refine ⟨[x, y, z], ?_, ?_⟩
  · rw [hat.split, dispatches_append, List.getElem?_append_right hat.index.le, hat.index, Nat.sub_self]
    rfl
  · rw [hat.bytes, dwordsOfBytes_asBytes]

/-- A launch of eight work-groups that follows the position. -/
def boundLaunch : RecordedHipLaunch :=
  { touchLaunch 8192 .write with
    grid := ⟨8, 1, 1⟩
    gridBinding := some (.positionCeilDiv 0 0 1) }

/-- A producer, its consumer, and a bound launch that the reordering moves
between them. -/
def movedBinding : List RecordedHipLaunch :=
  [touchLaunch 4096 .write, touchLaunch 4096 .read, boundLaunch]

set_option maxRecDepth 100000 in
theorem movedBinding_patches_consumer : ∃ ib replay,
    prepareSingleIb gfx11Environment movedBinding 3 = .ok ib ∧
      preparePm4 gfx11Environment movedBinding 3 false 65536 = .ok replay ∧
      ¬ GridsFollow false movedBinding ib.order (ib.commands.timedPackets false 65536) replay
        [⟨5, fun _ => 0, true⟩] := by
  refine ⟨_, _, rfl, rfl, fun h => ?_⟩
  obtain ⟨-, held, hbytes, hredim, hwithin⟩ := h _ List.mem_cons_self
  -- the third dispatch is the consumer's, of two work-groups
  obtain ⟨dims, hdims, hread⟩ := hredim.held_dims (k := 2) rfl
  rw [← hbytes] at hread
  have hlarger : NoLarger dims [2, 1, 1] := hwithin 2 dims [2, 1, 1] hdims rfl
  obtain rfl : dims = [5, 1, 1] := hread.trans (by decide +kernel)
  cases hlarger with
  | cons hle _ => exact absurd hle (by decide)

/-- The same launches in recorded order. -/
def recordedOrder : Pm4Environment := { gfx11Environment with reorderWindow := none }

set_option maxRecDepth 100000 in
theorem movedBinding_follows : ∃ ib replay,
    prepareSingleIb recordedOrder movedBinding 3 = .ok ib ∧
      preparePm4 recordedOrder movedBinding 3 false 65536 = .ok replay ∧
      GridsFollow false movedBinding ib.order (ib.commands.timedPackets false 65536) replay
        [⟨5, fun _ => 0, true⟩, ⟨2 ^ 64, fun _ => 0, true⟩] ∧
      (replay.run [⟨5, fun _ => 0, true⟩, ⟨2 ^ 64, fun _ => 0, true⟩]).map
        (fun entry => entry.2.2.isSome) = [true, false] := by
  refine ⟨_, _, rfl, rfl, replay_gridsFollow recordedOrder movedBinding 3 false 65536 _ _ rfl rfl
    (fun index launch hlaunch _ => ?_) _, rfl⟩
  have hlt : index < 3 := (List.getElem?_eq_some_iff.mp hlaunch).1
  change (List.range 3)[index]? = some index
  rw [List.getElem?_range hlt]

end Example
end Hipscope.Replay
