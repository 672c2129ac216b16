import Hipscope.Emit.EosChunks

/-! When a marker shows in the output of the filter. -/
namespace Hipscope.Emit
open Text

namespace EosFilterConfig
variable {c : EosFilterConfig} {s t : Bool × List UInt8} {l l' : Option UInt8} {m stream : List UInt8}

/-- The stream writes `m` with something hidden inside it, and goes on to its end as prose or to
where the text up to `m` is well-formed UTF-8. -/
def Shows (c : EosFilterConfig) (stream m : List UInt8) : Prop :=
  ∃ u v before after stop, Keeps c.Reads (c.stripThink && c.startedInThink, stream) u before ∧
    Parted c.Reads before m after ∧ Keeps c.Reads after v stop ∧
      (stop = (false, []) ∨ (u ++ m).length ≤ utf8SafeEnd (u ++ m ++ v))

theorem adjoins_starts (h : Adjoins c.Reads s m t) : m <+: s.2 := by
  induction h with
  | one h => cases h with | prose => exact List.cons_prefix_cons.mpr ⟨rfl, List.nil_prefix⟩
  | cons h _ ih => cases h with | prose => exact List.cons_prefix_cons.mpr ⟨rfl, ih⟩

/-- No marker is read byte by byte with nothing in between: a shorter one inside it would be. -/
theorem not_adjoins {marker : EventKind × List UInt8} (hmem : marker ∈ c.markers) : ¬ Adjoins c.Reads s marker.2 t := by
  induction hn : marker.2.length using Nat.strong_induction_on generalizing marker s t with
  | h n ih =>
    intro h
    have hstart := adjoins_starts h
    have hinner : ∃ m' ∈ c.markers, m'.2 ≠ marker.2 ∧ m'.2 <:+: marker.2 := by
      generalize hm : marker.2 = m at h
      cases h with
      | one h => cases h with | prose hprose => exact hm ▸ hprose marker hmem hstart
      | cons h _ => cases h with | prose hprose => exact hm ▸ hprose marker hmem hstart
    obtain ⟨m', hmem', hne, hin⟩ := hinner
    have hshorter : m'.2.length < n := hn ▸ lt_of_le_of_ne hin.length_le fun hlength => hne (hin.eq_of_length hlength)
    obtain ⟨s', t', hword⟩ := h.of_infix (ne_nil_of_mem_markers hmem') hin
    exact ih _ hshorter hmem' rfl hword

/-- Where no marker contains another one, only one of them starts. -/
theorem Separate.unique (hc : c.Separate) {kind kind' : EventKind} {m' : List UInt8} (hm : (kind, m) ∈ c.markers)
    (hm' : (kind', m') ∈ c.markers) (h : m <+: stream) (h' : m' <+: stream) : kind = kind' :=
  congrArg Prod.fst (hc.eq_of_starts hm hm' h h')

/-- The one way to go on where no marker contains another one. -/
def follow (c : EosFilterConfig) : Bool × List UInt8 → Option UInt8 × Bool × List UInt8
  | (true, s) => (none, if thinkClose.isPrefixOf s then (false, s.drop thinkClose.length) else (true, s.tail))
  | (false, s) =>
    if c.stripThink && thinkOpen.isPrefixOf s then (none, true, s.drop thinkOpen.length)
    else if c.stripThink && thinkClose.isPrefixOf s then (none, false, s.drop thinkClose.length)
    else (s.head?, false, s.tail)

private theorem starts_append (m s : List UInt8) : m.isPrefixOf (m ++ s) = true :=
  List.isPrefixOf_iff_prefix.mpr (List.prefix_append m s)

theorem Reads.follow (hc : c.Separate) (h : c.Reads s l t) : c.follow s = (l, t) := by
  have hopen (h : c.stripThink = true) : (.thinkOpen, thinkOpen) ∈ c.markers := mem_markers.mpr (.inr ⟨h, .inl ⟨rfl, rfl⟩⟩)
  have hclose (h : c.stripThink = true) : (.thinkClose, thinkClose) ∈ c.markers :=
    mem_markers.mpr (.inr ⟨h, .inr ⟨rfl, rfl⟩⟩)
  cases h with
  | @prose b s h =>
    have hnone := hc.prose h
    have hnoOpen : ¬ (c.stripThink && thinkOpen.isPrefixOf (b :: s)) := by
      simp only [Bool.and_eq_true, List.isPrefixOf_iff_prefix, not_and]
      exact fun hstrip => hnone _ (hopen hstrip)
    have hnoClose : ¬ (c.stripThink && thinkClose.isPrefixOf (b :: s)) := by
      simp only [Bool.and_eq_true, List.isPrefixOf_iff_prefix, not_and]
      exact fun hstrip => hnone _ (hclose hstrip)
    rw [EosFilterConfig.follow, if_neg hnoOpen, if_neg hnoClose]
    rfl
  | @opened s h =>
    rw [EosFilterConfig.follow, if_pos (by rw [h, starts_append]; rfl), List.drop_left]
  | @orphan s h =>
    have hnoOpen : ¬ (c.stripThink && thinkOpen.isPrefixOf (thinkClose ++ s)) := by
      simp only [Bool.and_eq_true, List.isPrefixOf_iff_prefix, not_and]
      intro _ hboth
      cases hc.unique (hopen h) (hclose h) hboth (List.prefix_append _ _)
    rw [EosFilterConfig.follow, if_neg hnoOpen, if_pos (by rw [h, starts_append]; rfl), List.drop_left]
  | @hidden b s h =>
    rw [EosFilterConfig.follow, if_neg (by rwa [List.isPrefixOf_iff_prefix])]
    rfl
  | @closed s => rw [EosFilterConfig.follow, if_pos (starts_append thinkClose s), List.drop_left]

theorem reads_deterministic (hc : c.Separate) : Deterministic c.Reads := by
  intro s l t l' t' h h'
  exact Prod.mk.inj ((h.follow hc).symm.trans (h'.follow hc))

/-- A stop marker is read no further. -/
theorem not_reads_halted (hc : c.Separate) {rest : List UInt8} (h : EosFilter.Halts c rest) :
    ¬ c.Reads (false, rest) l t := by
  obtain ⟨m, hmem, hstart⟩ := h
  intro hread
  generalize hs : (false, rest) = s at hread
  cases hread with
  | prose hprose =>
    obtain rfl := congrArg Prod.snd hs
    exact hc.prose hprose _ hmem hstart
  | opened hstrip =>
    obtain rfl := congrArg Prod.snd hs
    cases hc.unique hmem (mem_markers.mpr (.inr ⟨hstrip, .inl ⟨rfl, rfl⟩⟩)) hstart (List.prefix_append _ _)
  | orphan hstrip =>
    obtain rfl := congrArg Prod.snd hs
    cases hc.unique hmem (mem_markers.mpr (.inr ⟨hstrip, .inr ⟨rfl, rfl⟩⟩)) hstart (List.prefix_append _ _)
  | hidden => cases hs
  | closed => cases hs

theorem not_reads_nil {inThink : Bool} : ¬ c.Reads (inThink, []) l t := by
  intro hread
  generalize hs : (inThink, ([] : List UInt8)) = s at hread
  cases hread <;> cases hs

end EosFilterConfig

namespace EosFilter
open EosFilterConfig

variable {c : EosFilterConfig} {text u stream m : List UInt8} {stop : Bool × List UInt8} {out : List UInt8 × Bool}

/-- What is handed out is a beginning of the text. -/
theorem Outcome.begins (h : Outcome c text stop out) : out.1 <+: text := by
  cases h with
  | prose => exact List.prefix_rfl
  | hidden => exact List.take_prefix _ _
  | stop => exact List.take_prefix _ _

theorem Outcome.final (hc : c.Separate) (h : Outcome c text stop out) :
    ∀ l t, ¬ c.Reads stop l t := by
  intro l t
  cases h with
  | prose => exact not_reads_nil
  | hidden => exact not_reads_nil
  | stop h => exact not_reads_halted hc h

/-- What is handed out of the text: all of it, or its well-formed beginning. -/
theorem Outcome.covers_iff (h : Outcome c text stop out) (hu : u <+: text) :
    u <+: out.1 ↔ stop = (false, []) ∨ u.length ≤ utf8SafeEnd text := by
  cases h with
  | prose => exact ⟨fun _ => .inl rfl, fun _ => hu⟩
  | hidden =>
    have hne : ¬ (true, ([] : List UInt8)) = (false, []) := by simp
    rw [List.prefix_take_iff, or_iff_right hne, and_iff_right hu]
  | @stop rest h =>
    have hne : ¬ (false, rest) = (false, ([] : List UInt8)) := by
      intro hnil
      obtain rfl : rest = [] := congrArg Prod.snd hnil
      obtain ⟨m, hmem, hstart⟩ := h
      exact ne_nil_of_mem_markers hmem (List.prefix_nil.mp hstart)
    rw [List.prefix_take_iff, or_iff_right hne, and_iff_right hu]

theorem Accounted.clean (h : Accounted c stream out) (hshows : ∀ marker ∈ c.markers, ¬ c.Shows stream marker.2) :
    ∀ marker ∈ c.markers, ¬ marker.2 <:+: out.1 := by
  obtain ⟨text, stop, hkeeps, hout⟩ := h
  rintro marker hmem ⟨u, w, hin⟩
  obtain ⟨z, hz⟩ := hout.begins
  have htext : text = u ++ marker.2 ++ (w ++ z) := by rw [← hz, ← hin, List.append_assoc (u ++ marker.2)]
  have hfront : u ++ marker.2 <+: out.1 := hin ▸ List.prefix_append _ _
  have hcovers := (hout.covers_iff (htext ▸ List.prefix_append _ _)).mp hfront
  rw [htext] at hkeeps hcovers
  obtain ⟨before, after, hu, hparted, hv⟩ := hkeeps.parted (ne_nil_of_mem_markers hmem) fun _ _ => not_adjoins hmem
  exact hshows marker hmem ⟨u, w ++ z, before, after, stop, hu, hparted, hv, hcovers⟩

/-- Where no marker contains another one, every marker written so is handed out. -/
theorem Accounted.shown (hc : c.Separate) (h : Accounted c stream out) (hshows : c.Shows stream m) : m <:+: out.1 := by
  obtain ⟨text, stop, hkeeps, hout⟩ := h
  obtain ⟨u, v, before, after, stop', hu, hparted, hv, hcovers⟩ := hshows
  have hfinal := hout.final hc
  obtain ⟨w, rfl, hw⟩ := ((hu.trans hparted.keeps).trans hv).goes_on (reads_deterministic hc) hkeeps hfinal
  have hfront : u ++ m <+: out.1 := by
    refine (hout.covers_iff (List.append_assoc (u ++ m) v w ▸ List.prefix_append _ _)).mpr ?_
    obtain rfl | hsafe := hcovers
    · exact .inl (hw.stuck fun _ _ => not_reads_nil)
    · refine .inr (hsafe.trans ?_)
      rw [utf8SafeEnd_append (u ++ m ++ v) w]
      exact Nat.le_add_right _ _
  exact (List.suffix_append u m).isInfix.trans hfront.isInfix

/-- However a stream is cut, the output shows no marker if the stream nowhere writes one around
something hidden; where no marker contains another one, it shows none only then. -/
theorem drive_clean (c : EosFilterConfig) (chunks : List (List UInt8)) :
    ((∀ marker ∈ c.markers, ¬ c.Shows chunks.flatten marker.2) →
        ∀ marker ∈ c.markers, ¬ marker.2 <:+: ((new c).drive chunks).1) ∧
      (c.Separate → (∀ marker ∈ c.markers, ¬ marker.2 <:+: ((new c).drive chunks).1) →
        ∀ marker ∈ c.markers, ¬ c.Shows chunks.flatten marker.2) := by
  have haccounted := drive_accounted c chunks
  exact ⟨haccounted.clean, fun hc hclean marker hmem hshows => hclean marker hmem (haccounted.shown hc hshows)⟩

/-- `<th<think>x</think>ink>`: once the span is hidden, what is around it reads as an opener. -/
theorem span_inside_opener_shows :
    thinkOpen <:+: ((new turnConfig).drive [thinkOpen.take 3 ++ thinkOpen ++ [0x78] ++ thinkClose ++ thinkOpen.drop 3]).1 := by
  decide

end EosFilter
end Hipscope.Emit
