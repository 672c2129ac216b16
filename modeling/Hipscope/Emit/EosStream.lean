import Hipscope.Emit.EosFilter
import Hipscope.Text.Sieve
import Mathlib.Data.List.TakeWhile

/-! The filter computes one function of the byte stream, however it arrives. -/
namespace Hipscope.Emit
open Text

section Utf8

theorem utf8SafeEnd_le (l : List UInt8) : utf8SafeEnd l ≤ l.length := by
  fun_induction utf8SafeEnd l <;> simp only [List.length_nil, List.length_cons] at * <;> omega

/-- What is well formed stays so; only the rest is looked at again. -/
theorem utf8SafeEnd_append (l t : List UInt8) :
    utf8SafeEnd (l ++ t) = utf8SafeEnd l + utf8SafeEnd (l.drop (utf8SafeEnd l) ++ t) := by
  fun_induction utf8SafeEnd l with
  | case1 => simp
  | case2 a l h ih =>
    rw [List.cons_append, utf8SafeEnd.eq_def]
    simp only [h, if_true]
    rw [ih, List.drop_succ_cons]
    omega
  | case4 a ha b l h ih =>
    rw [List.cons_append, utf8SafeEnd.eq_def]
    simp only [ha, List.cons_append, h, if_true, if_false]
    rw [ih, List.drop_succ_cons, List.drop_succ_cons]
    omega
  | case6 a ha b hb c l h ih =>
    rw [List.cons_append, utf8SafeEnd.eq_def]
    simp only [ha, List.cons_append, hb, h, Bool.false_eq_true, if_true, if_false]
    rw [ih, List.drop_succ_cons, List.drop_succ_cons, List.drop_succ_cons]
    omega
  | case8 a ha b hb c hc d l h ih =>
    rw [List.cons_append, utf8SafeEnd.eq_def]
    simp only [ha, List.cons_append, hb, hc, h, Bool.false_eq_true, if_true, if_false]
    rw [ih, List.drop_succ_cons, List.drop_succ_cons, List.drop_succ_cons, List.drop_succ_cons]
    omega
  | _ => simp

end Utf8

/-- The visible text of a stream, whether it met a stop marker, and whether it
ended inside a think span. -/
structure Reference where
  text : List UInt8
  stopped : Bool
  inThink : Bool
  deriving DecidableEq

def Reference.prepend (text : List UInt8) (r : Reference) : Reference := { r with text := text ++ r.text }

theorem Reference.prepend_prepend (a b : List UInt8) (r : Reference) :
    (r.prepend b).prepend a = r.prepend (a ++ b) := by
  simp [prepend]

namespace EosFilterConfig
variable {c : EosFilterConfig} {s t : List UInt8} {k : ℕ}

/-- Strip think spans and cut at the first stop marker, byte by byte; `skip` counts
the bytes left of a marker. -/
def scan (c : EosFilterConfig) : Bool → ℕ → List UInt8 → Reference
  | inThink, _, [] => ⟨[], false, inThink⟩
  | inThink, skip + 1, _ :: s => scan c inThink skip s
  | true, 0, b :: s =>
    if thinkClose.isPrefixOf (b :: s) then scan c false (thinkClose.length - 1) s else scan c true 0 s
  | false, 0, b :: s =>
    if c.stopAt.any fun needle => needle ≠ [] && needle.isPrefixOf (b :: s) then ⟨[], true, false⟩
    else if c.stripThink && thinkOpen.isPrefixOf (b :: s) then scan c true (thinkOpen.length - 1) s
    else if c.stripThink && thinkClose.isPrefixOf (b :: s) then scan c false (thinkClose.length - 1) s
    else (scan c false 0 s).prepend [b]

/-- What the filter is for: the reference, of a stream that may start in a think span. -/
def reference (c : EosFilterConfig) (stream : List UInt8) : Reference :=
  c.scan (c.stripThink && c.startedInThink) 0 stream

theorem scan_skip (inThink : Bool) : c.scan inThink k s = c.scan inThink 0 (s.drop k) := by
  induction k generalizing s with
  | zero => rfl
  | succ k ih =>
    cases s with
    | nil => rw [List.drop_nil, scan, scan]
    | cons b s => rw [scan, ih, List.drop_succ_cons]

theorem mem_markers {kind : EventKind} {m : List UInt8} : (kind, m) ∈ c.markers ↔
    (kind = .stop ∧ m ∈ c.stopAt ∧ m ≠ []) ∨
      c.stripThink ∧ ((kind = .thinkOpen ∧ m = thinkOpen) ∨ (kind = .thinkClose ∧ m = thinkClose)) := by
  rw [markers, List.mem_append]
  refine or_congr ?_ ?_
  · simp only [List.mem_map, List.mem_filter, decide_eq_true_eq, Prod.mk.injEq]
    constructor
    · rintro ⟨needle, ⟨hmem, hne⟩, rfl, rfl⟩
      exact ⟨rfl, hmem, hne⟩
    · rintro ⟨rfl, hmem, hne⟩
      exact ⟨m, ⟨hmem, hne⟩, rfl, rfl⟩
  · cases c.stripThink <;> simp

theorem ne_nil_of_mem_markers {marker : EventKind × List UInt8} (h : marker ∈ c.markers) :
    marker.2 ≠ [] := by
  obtain ⟨kind, m⟩ := marker
  rcases mem_markers.mp h with ⟨-, -, h⟩ | ⟨-, ⟨-, rfl⟩ | ⟨-, rfl⟩⟩
  · exact h
  · exact List.cons_ne_nil _ _
  · exact List.cons_ne_nil _ _

theorem opens_of_mem {m : List UInt8} (h : (.thinkOpen, m) ∈ c.markers) : c.stripThink ∧ m = thinkOpen := by
  obtain ⟨hkind, -⟩ | ⟨hstrip, ⟨-, hm⟩ | ⟨hkind, -⟩⟩ := mem_markers.mp h
  · cases hkind
  · exact ⟨hstrip, hm⟩
  · cases hkind

theorem closes_of_mem {m : List UInt8} (h : (.thinkClose, m) ∈ c.markers) : c.stripThink ∧ m = thinkClose := by
  obtain ⟨hkind, -⟩ | ⟨hstrip, ⟨hkind, -⟩ | ⟨-, hm⟩⟩ := mem_markers.mp h
  · cases hkind
  · cases hkind
  · exact ⟨hstrip, hm⟩

/-- No marker contains another one. -/
def Separate (c : EosFilterConfig) : Prop :=
  ∀ a ∈ c.markers, ∀ b ∈ c.markers, a.2 <:+: b.2 → a = b

instance (c : EosFilterConfig) : Decidable c.Separate :=
  inferInstanceAs (Decidable (∀ a ∈ c.markers, ∀ b ∈ c.markers, a.2 <:+: b.2 → a = b))

/-- Prose up to where a marker may begin. -/
theorem scan_prose (hk : k ≤ s.length) (h : ∀ i < k, ∀ m ∈ c.markers, ¬ m.2 <+: s.drop i) :
    c.scan false 0 s = (c.scan false 0 (s.drop k)).prepend (s.take k) := by
  induction k generalizing s with
  | zero => simp [Reference.prepend]
  | succ k ih =>
    cases s with
    | nil => simp at hk
    | cons b s =>
      have hhead : ∀ m ∈ c.markers, ¬ m.2 <+: b :: s := h 0 (Nat.succ_pos k)
      have htail := ih (s := s) (Nat.le_of_succ_le_succ hk)
        fun i hi m hm => by simpa using h (i + 1) (Nat.succ_lt_succ hi) m hm
      have hstop : ¬ (c.stopAt.any fun needle => needle ≠ [] && needle.isPrefixOf (b :: s)) := by
        intro hany
        obtain ⟨needle, hmem, hneedle⟩ := List.any_eq_true.mp hany
        simp only [ne_eq, decide_not, Bool.and_eq_true, Bool.not_eq_true', decide_eq_false_iff_not,
          List.isPrefixOf_iff_prefix] at hneedle
        exact hhead (.stop, needle) (mem_markers.mpr (.inl ⟨rfl, hmem, hneedle.1⟩)) hneedle.2
      have hopen : ¬ (c.stripThink && thinkOpen.isPrefixOf (b :: s)) := by
        simp only [Bool.and_eq_true, List.isPrefixOf_iff_prefix, not_and]
        exact fun hstrip => hhead (.thinkOpen, thinkOpen) (mem_markers.mpr (.inr ⟨hstrip, .inl ⟨rfl, rfl⟩⟩))
      have hclose : ¬ (c.stripThink && thinkClose.isPrefixOf (b :: s)) := by
        simp only [Bool.and_eq_true, List.isPrefixOf_iff_prefix, not_and]
        exact fun hstrip => hhead (.thinkClose, thinkClose) (mem_markers.mpr (.inr ⟨hstrip, .inr ⟨rfl, rfl⟩⟩))
      rw [scan, if_neg hstop, if_neg hopen, if_neg hclose, htail, Reference.prepend_prepend]
      rfl

/-- Hidden bytes up to where the closer may begin. -/
theorem scan_hidden (hk : k ≤ s.length) (h : ∀ i < k, ¬ thinkClose <+: s.drop i) :
    c.scan true 0 s = c.scan true 0 (s.drop k) := by
  induction k generalizing s with
  | zero => rfl
  | succ k ih =>
    cases s with
    | nil => simp at hk
    | cons b s =>
      have hhead : ¬ thinkClose.isPrefixOf (b :: s) := by
        rw [List.isPrefixOf_iff_prefix]
        exact h 0 (Nat.succ_pos k)
      rw [scan, if_neg hhead, List.drop_succ_cons]
      exact ih (Nat.le_of_succ_le_succ hk) fun i hi => by simpa using h (i + 1) (Nat.succ_lt_succ hi)

/-- The closer of a think span. -/
theorem scan_closed (h : thinkClose <+: s) :
    c.scan true 0 s = c.scan false 0 (s.drop thinkClose.length) := by
  cases s with
  | nil => exact absurd h.length_le (by decide)
  | cons b s =>
    rw [scan, if_pos (List.isPrefixOf_iff_prefix.mpr h), scan_skip]
    rfl

theorem Separate.eq_of_starts (hc : c.Separate) {a b : EventKind × List UInt8} (ha : a ∈ c.markers)
    (hb : b ∈ c.markers) (h : a.2 <+: s) (h' : b.2 <+: s) : a = b := by
  rcases occurs_of_starts h h' with hin | hin
  · exact hc a ha b hb hin
  · exact (hc b hb a ha hin).symm

/-- A stop marker outside think spans. -/
theorem scan_stop {m : List UInt8} (hm : (.stop, m) ∈ c.markers) (h : m <+: s) :
    c.scan false 0 s = ⟨[], true, false⟩ := by
  obtain ⟨-, hmem, hne⟩ | ⟨-, ⟨hkind, -⟩ | ⟨hkind, -⟩⟩ := mem_markers.mp hm
  · cases s with
    | nil => exact absurd (List.prefix_nil.mp h) hne
    | cons b s =>
      rw [scan, if_pos]
      exact List.any_eq_true.mpr ⟨m, hmem, by simp [hne, List.isPrefixOf_iff_prefix.mpr h]⟩
  · cases hkind
  · cases hkind

/-- No stop marker begins where a think marker does. -/
private theorem not_stop (hc : c.Separate) {kind : EventKind} {m : List UInt8} (hm : (kind, m) ∈ c.markers)
    (hkind : kind ≠ .stop) (h : m <+: s) :
    ¬ (c.stopAt.any fun needle => needle ≠ [] && needle.isPrefixOf s) := by
  intro hany
  obtain ⟨needle, hmem, hneedle⟩ := List.any_eq_true.mp hany
  simp only [ne_eq, decide_not, Bool.and_eq_true, Bool.not_eq_true', decide_eq_false_iff_not,
    List.isPrefixOf_iff_prefix] at hneedle
  have hstop : (.stop, needle) ∈ c.markers := mem_markers.mpr (.inl ⟨rfl, hmem, hneedle.1⟩)
  exact hkind (congrArg Prod.fst (hc.eq_of_starts hm hstop h hneedle.2))

theorem scan_open (hc : c.Separate) {m : List UInt8} (hm : (.thinkOpen, m) ∈ c.markers) (h : m <+: s) :
    c.scan false 0 s = c.scan true 0 (s.drop m.length) := by
  obtain ⟨hstrip, rfl⟩ := opens_of_mem hm
  cases s with
  | nil => exact absurd h.length_le (by decide)
  | cons b s =>
    have hstarts : thinkOpen.isPrefixOf (b :: s) = true := List.isPrefixOf_iff_prefix.mpr h
    rw [scan, if_neg (not_stop hc hm (by simp) h), if_pos (by simp [hstrip, hstarts]), scan_skip]
    rfl

theorem scan_close (hc : c.Separate) {m : List UInt8} (hm : (.thinkClose, m) ∈ c.markers) (h : m <+: s) :
    c.scan false 0 s = c.scan false 0 (s.drop m.length) := by
  obtain ⟨hstrip, rfl⟩ := closes_of_mem hm
  cases s with
  | nil => exact absurd h.length_le (by decide)
  | cons b s =>
    have hopen : (.thinkOpen, thinkOpen) ∈ c.markers := mem_markers.mpr (.inr ⟨hstrip, .inl ⟨rfl, rfl⟩⟩)
    have hnot : ¬ (c.stripThink && thinkOpen.isPrefixOf (b :: s)) := by
      simp only [Bool.and_eq_true, List.isPrefixOf_iff_prefix, not_and]
      intro _ hboth
      cases hc.eq_of_starts hopen hm hboth h
    have hcloses : thinkClose.isPrefixOf (b :: s) = true := List.isPrefixOf_iff_prefix.mpr h
    rw [scan, if_neg (not_stop hc hm (by simp) h), if_neg hnot, if_pos (by simp [hstrip, hcloses]), scan_skip]
    rfl

section Search
variable {ms : List (EventKind × List UInt8)} {rest : List UInt8} {best : Option Event} {ev cand : Event}

private theorem earlier_eq_some (h : Event.earlier best cand = some ev) :
    (ev = cand ∧ ∀ b ∈ best, cand.start ≤ b.start) ∨ (best = some ev ∧ ev.start ≤ cand.start) := by
  cases best with
  | none => exact .inl ⟨(Option.some.inj h).symm, by simp⟩
  | some b =>
    simp only [Event.earlier, Bool.and_eq_true, decide_eq_true_eq] at h
    split_ifs at h with hlt hlen hkind
    · exact .inl ⟨(Option.some.inj h).symm, by simpa using hlt.le⟩
    · exact .inl ⟨(Option.some.inj h).symm, by simpa using hlen.1.le⟩
    · exact .inl ⟨(Option.some.inj h).symm, by simpa using hkind.1.1.le⟩
    · cases Option.some.inj h
      exact .inr ⟨rfl, not_lt.mp hlt⟩

private theorem earlier_ne_none : Event.earlier best cand ≠ none := by
  cases best with
  | none => exact Option.some_ne_none _
  | some b =>
    rw [Event.earlier]
    split_ifs <;> exact Option.some_ne_none _

/-- What the search knows of the markers it has looked for. -/
structure Located (ms : List (EventKind × List UInt8)) (rest : List UInt8) (best : Option Event) : Prop where
  absent : best = none → ∀ m ∈ ms, Absent m.2 rest
  found : ∀ ev ∈ best, ∃ m ∈ ms, ev.kind = m.1 ∧ ev.len = m.2.length ∧ m.2 <+: rest.drop ev.start ∧
    ev.start + ev.len ≤ rest.length
  first : ∀ ev ∈ best, ∀ m ∈ ms, ∀ i < ev.start, ¬ m.2 <+: rest.drop i

private theorem Located.add {marker : EventKind × List UInt8} (h : Located ms rest best) (hm : marker.2 ≠ []) :
    Located (ms ++ [marker]) rest (match memmem rest marker.2 with
      | some start => Event.earlier best ⟨start, marker.1, marker.2.length⟩
      | none => best) := by
  split
  next start hfound =>
    obtain ⟨hat, hend, hbefore⟩ := memmem_some hm hfound
    refine ⟨fun hnone => absurd hnone earlier_ne_none, fun ev hev => ?_, fun ev hev m hmem i hi => ?_⟩
    · rcases earlier_eq_some hev with ⟨rfl, -⟩ | ⟨hbest, -⟩
      · exact ⟨marker, by simp, rfl, rfl, hat, hend⟩
      · obtain ⟨m, hmem, hrest⟩ := h.found ev hbest
        exact ⟨m, List.mem_append_left _ hmem, hrest⟩
    · rcases List.mem_append.mp hmem with hold | hnew
      · rcases earlier_eq_some hev with ⟨rfl, hle⟩ | ⟨hbest, -⟩
        · cases best with
          | none => exact h.absent rfl m hold i
          | some b => exact h.first b rfl m hold i (lt_of_lt_of_le hi (hle b rfl))
        · exact h.first ev hbest m hold i hi
      · cases List.mem_singleton.mp hnew
        rcases earlier_eq_some hev with ⟨rfl, -⟩ | ⟨-, hle⟩
        · exact hbefore i hi
        · exact hbefore i (lt_of_lt_of_le hi hle)
  next hnone =>
    have habsent : Absent marker.2 rest := memmem_none hnone
    refine ⟨fun hbest m hmem => ?_, fun ev hev => ?_, fun ev hev m hmem i hi => ?_⟩
    · rcases List.mem_append.mp hmem with hold | hnew
      · exact h.absent hbest m hold
      · exact List.mem_singleton.mp hnew ▸ habsent
    · obtain ⟨m, hmem, hrest⟩ := h.found ev hev
      exact ⟨m, List.mem_append_left _ hmem, hrest⟩
    · rcases List.mem_append.mp hmem with hold | hnew
      · exact h.first ev hev m hold i hi
      · exact List.mem_singleton.mp hnew ▸ habsent i

private theorem Located.fold {more : List (EventKind × List UInt8)} (h : Located ms rest best)
    (hm : ∀ m ∈ more, m.2 ≠ []) :
    Located (ms ++ more) rest (more.foldl (fun best marker =>
      match memmem rest marker.2 with
      | some start => Event.earlier best ⟨start, marker.1, marker.2.length⟩
      | none => best) best) := by
  induction more generalizing ms best with
  | nil => simpa using h
  | cons marker more ih =>
    rw [List.foldl_cons, ← List.singleton_append, ← List.append_assoc]
    exact ih (h.add (hm marker List.mem_cons_self)) fun m hmem => hm m (List.mem_cons_of_mem _ hmem)

theorem located (c : EosFilterConfig) (rest : List UInt8) : Located c.markers rest (c.earliest rest) := by
  have hinit : Located [] rest none := ⟨by simp, by simp, by simp⟩
  exact hinit.fold fun m hmem => ne_nil_of_mem_markers hmem

end Search

section Holdback
variable {rest p : List UInt8} {a n : ℕ}

/-- The first hit in a falling list is the greatest. -/
private theorem le_of_find_falling {l : List ℕ} {f : ℕ → Bool} (hl : l.Pairwise (· > ·)) (hk : k ∈ l)
    (hf : f k) : ∃ r, l.find? f = some r ∧ k ≤ r := by
  induction l with
  | nil => cases hk
  | cons b l ih =>
    obtain ⟨hhead, htail⟩ := List.pairwise_cons.mp hl
    by_cases hb : f b
    · refine ⟨b, by rw [List.find?_cons_of_pos hb], ?_⟩
      rcases List.mem_cons.mp hk with rfl | hmem
      · exact le_rfl
      · exact (hhead k hmem).le
    · rw [List.find?_cons_of_neg hb]
      rcases List.mem_cons.mp hk with rfl | hmem
      · exact absurd hf hb
      · exact ih htail hmem

private theorem mem_takeWhile_falling {l : List ℕ} (hl : l.Pairwise (· > ·)) (hk : k ∈ l) (ha : a < k) :
    k ∈ l.takeWhile fun i => a < i := by
  induction l with
  | nil => cases hk
  | cons b l ih =>
    obtain ⟨hhead, htail⟩ := List.pairwise_cons.mp hl
    have hb : a < b := by
      rcases List.mem_cons.mp hk with rfl | hmem
      · exact ha
      · exact ha.trans (hhead k hmem)
    rw [List.takeWhile_cons_of_pos (by simpa using hb)]
    rcases List.mem_cons.mp hk with rfl | hmem
    · exact List.mem_cons_self
    · exact List.mem_cons_of_mem _ (ih htail hmem)

private theorem falling_range (n : ℕ) : (List.range' 1 n).reverse.Pairwise (· > ·) := by
  rw [List.pairwise_reverse]
  exact List.pairwise_lt_range'

/-- A tail that is a proper beginning of the needle is one of the candidates. -/
private theorem tail_candidate (hk : k < p.length) (hpos : 0 < k) (h : p.take k <:+ rest) :
    k ∈ (List.range' 1 (min (p.length - 1) rest.length)).reverse ∧
      rest.drop (rest.length - k) = p.take k := by
  have hlen : (p.take k).length = k := List.length_take_of_le hk.le
  have hle := h.length_le
  refine ⟨?_, ?_⟩
  · rw [List.mem_reverse, List.mem_range'_1]
    omega
  · have := List.suffix_iff_eq_drop.mp h
    rw [hlen] at this
    exact this.symm

theorem trailingPrefixStart_covers (rest p : List UInt8) :
    trailingPrefixStart rest p ≤ rest.length ∧ Covers (rest.length - trailingPrefixStart rest p) rest p := by
  refine ⟨?_, fun k hk htail => ?_⟩
  · rw [trailingPrefixStart]
    split_ifs
    · exact le_rfl
    · split
      · exact Nat.sub_le _ _
      · exact le_rfl
  · rcases Nat.eq_zero_or_pos k with rfl | hpos
    · exact Nat.zero_le _
    · obtain ⟨hmem, hdrop⟩ := tail_candidate hk hpos htail
      have hlen : (p.take k).length = k := List.length_take_of_le hk.le
      have hp : p ≠ [] := fun h => by simp [h] at hk
      have hrest : rest ≠ [] := fun h => by
        have := htail.length_le
        rw [h, List.length_nil] at this
        omega
      obtain ⟨r, hr, hle⟩ := le_of_find_falling (f := fun k => decide (rest.drop (rest.length - k) = p.take k))
        (falling_range _) hmem (decide_eq_true hdrop)
      have hrange := List.mem_range'_1.mp (List.mem_reverse.mp (List.mem_of_find?_eq_some hr))
      rw [trailingPrefixStart, if_neg (by simp [hp, hrest]), hr]
      dsimp only
      omega

private theorem trimStep_spec (ha : a ≤ rest.length) :
    a ≤ trimStep rest a p ∧ trimStep rest a p ≤ rest.length ∧ Covers (trimStep rest a p) rest p := by
  set l := (List.range' 1 (min (p.length - 1) rest.length)).reverse.takeWhile fun k => a < k with hl
  have hin : ∀ k ∈ l, a < k ∧ k ≤ rest.length := by
    intro k hk
    have hmem := List.mem_range'_1.mp (List.mem_reverse.mp ((List.takeWhile_sublist _).subset hk))
    exact ⟨by simpa using List.mem_takeWhile_imp hk, by omega⟩
  have hfalling : l.Pairwise (· > ·) := (falling_range _).sublist (List.takeWhile_sublist _)
  have hstep : trimStep rest a p = (l.find? fun k =>
    decide (rest.drop (rest.length - k) = p.take k)).getD a := rfl
  rw [hstep]
  refine ⟨?_, ?_, fun k hk htail => ?_⟩
  · cases hfind : l.find? fun k => decide (rest.drop (rest.length - k) = p.take k) with
    | none => exact le_rfl
    | some r => exact (hin r (List.mem_of_find?_eq_some hfind)).1.le
  · cases hfind : l.find? fun k => decide (rest.drop (rest.length - k) = p.take k) with
    | none => exact ha
    | some r => exact (hin r (List.mem_of_find?_eq_some hfind)).2
  · by_cases hak : a < k
    · obtain ⟨hmem, hdrop⟩ := tail_candidate hk (by omega) htail
      obtain ⟨r, hr, hle⟩ := le_of_find_falling (f := fun k => decide (rest.drop (rest.length - k) = p.take k))
        hfalling (mem_takeWhile_falling (falling_range _) hmem hak) (decide_eq_true hdrop)
      rw [hr]
      exact hle
    · cases hfind : l.find? fun k => decide (rest.drop (rest.length - k) = p.take k) with
      | none => exact not_lt.mp hak
      | some r => exact (not_lt.mp hak).trans (hin r (List.mem_of_find?_eq_some hfind)).1.le

/-- Every watched sequence is covered by the longest of the held tails. -/
private theorem trim_spec (watch : List (List UInt8)) (ha : a ≤ rest.length) :
    a ≤ watch.foldl (trimStep rest) a ∧ watch.foldl (trimStep rest) a ≤ rest.length ∧
      ∀ p ∈ watch, Covers (watch.foldl (trimStep rest) a) rest p := by
  induction watch generalizing a with
  | nil => exact ⟨le_rfl, ha, by simp⟩
  | cons p watch ih =>
    obtain ⟨hle, hlen, hcovers⟩ := trimStep_spec (p := p) ha
    obtain ⟨hle', hlen', hcovers'⟩ := ih hlen
    rw [List.foldl_cons]
    refine ⟨hle.trans hle', hlen', fun q hq => ?_⟩
    rcases List.mem_cons.mp hq with rfl | hmem
    · exact fun k hk htail => (hcovers k hk htail).trans hle'
    · exact hcovers' q hmem

theorem mem_watch_of_mem_markers {marker : EventKind × List UInt8} (h : marker ∈ c.markers) :
    marker.2 ∈ c.watch := by
  obtain ⟨kind, m⟩ := marker
  rcases mem_markers.mp h with ⟨-, hmem, hne⟩ | ⟨hstrip, ⟨-, rfl⟩ | ⟨-, rfl⟩⟩
  · simp [watch, hmem, hne]
  · simp [watch, hstrip]
  · simp [watch, hstrip]

/-- What prose leaves behind covers every marker. -/
theorem holdbackTrimLen_covers (c : EosFilterConfig) (rest : List UInt8) :
    c.holdbackTrimLen rest ≤ rest.length ∧
      ∀ marker ∈ c.markers, Covers (rest.length - c.holdbackTrimLen rest) rest marker.2 := by
  obtain ⟨-, hlen, hcovers⟩ := trim_spec c.watch (Nat.zero_le rest.length)
  have hsafe : c.holdbackTrimLen rest ≤ rest.length - c.watch.foldl (trimStep rest) 0 := by
    rw [holdbackTrimLen]
    split_ifs
    · exact Nat.zero_le _
    · refine (utf8SafeEnd_le _).trans ?_
      rw [List.length_take]
      exact min_le_left _ _
  refine ⟨by omega, fun marker hm k hk htail => ?_⟩
  have := hcovers marker.2 (mem_watch_of_mem_markers hm) k hk htail
  omega

end Holdback

section Reads
variable {inThink : Bool} {u : List UInt8}

/-- How a stream may be read, wherever it is cut: a byte of prose, unless a marker starts there that
a shorter one inside it cannot take the place of; a think tag; a byte of a think span. -/
inductive Reads (c : EosFilterConfig) : Bool × List UInt8 → Option UInt8 → Bool × List UInt8 → Prop where
  | prose {b : UInt8} {s : List UInt8}
    (h : ∀ m ∈ c.markers, m.2 <+: b :: s → ∃ m' ∈ c.markers, m'.2 ≠ m.2 ∧ m'.2 <:+: m.2) :
    Reads c (false, b :: s) (some b) (false, s)
  | opened {s : List UInt8} (h : c.stripThink) : Reads c (false, thinkOpen ++ s) none (true, s)
  | orphan {s : List UInt8} (h : c.stripThink) : Reads c (false, thinkClose ++ s) none (false, s)
  | hidden {b : UInt8} {s : List UInt8} (h : ¬ thinkClose <+: b :: s) : Reads c (true, b :: s) none (true, s)
  | closed {s : List UInt8} : Reads c (true, thinkClose ++ s) none (false, s)

theorem keeps_prose (hk : k ≤ s.length)
    (h : ∀ i < k, ∀ m ∈ c.markers, m.2 <+: s.drop i → ∃ m' ∈ c.markers, m'.2 ≠ m.2 ∧ m'.2 <:+: m.2) :
    Keeps c.Reads (false, s) (s.take k) (false, s.drop k) := by
  induction k generalizing s with
  | zero => exact .refl _
  | succ k ih =>
    cases s with
    | nil => exact .refl _
    | cons b s =>
      refine .keep (.prose fun m hm => h 0 (Nat.succ_pos k) m hm) (ih (Nat.le_of_succ_le_succ hk) fun i hi m hm => ?_)
      exact h (i + 1) (Nat.succ_lt_succ hi) m hm

theorem keeps_hidden (hk : k ≤ s.length) (h : ∀ i < k, ¬ thinkClose <+: s.drop i) :
    Keeps c.Reads (true, s) [] (true, s.drop k) := by
  induction k generalizing s with
  | zero => exact .refl _
  | succ k ih =>
    cases s with
    | nil => exact .refl _
    | cons b s =>
      refine .drop (.hidden (h 0 (Nat.succ_pos k))) (ih (Nat.le_of_succ_le_succ hk) fun i hi => ?_)
      exact h (i + 1) (Nat.succ_lt_succ hi)

/-- Where no marker contains another one, prose is where none starts. -/
theorem Separate.prose (hc : c.Separate) {b : UInt8}
    (h : ∀ m ∈ c.markers, m.2 <+: b :: s → ∃ m' ∈ c.markers, m'.2 ≠ m.2 ∧ m'.2 <:+: m.2) :
    ∀ m ∈ c.markers, ¬ m.2 <+: b :: s := by
  intro m hm hstart
  obtain ⟨m', hm', hne, hin⟩ := h m hm hstart
  exact hne (congrArg Prod.snd (hc m' hm' m hm hin))

/-- One step of a reading is one of the reference. -/
private theorem scan_reads (hc : c.Separate) {before after : Bool × List UInt8} {l : Option UInt8}
    (h : c.Reads before l after) : c.scan before.1 0 before.2 = (c.scan after.1 0 after.2).prepend l.toList := by
  cases h with
  | @prose b s h =>
    have hone : 1 ≤ (b :: s).length := Nat.succ_pos s.length
    refine scan_prose hone fun i hi m hm => ?_
    obtain rfl : i = 0 := Nat.lt_one_iff.mp hi
    exact hc.prose h m hm
  | @opened s h =>
    have hmem : (.thinkOpen, thinkOpen) ∈ c.markers := mem_markers.mpr (.inr ⟨h, .inl ⟨rfl, rfl⟩⟩)
    exact scan_open hc hmem (List.prefix_append thinkOpen s)
  | @orphan s h =>
    have hmem : (.thinkClose, thinkClose) ∈ c.markers := mem_markers.mpr (.inr ⟨h, .inr ⟨rfl, rfl⟩⟩)
    exact scan_close hc hmem (List.prefix_append thinkClose s)
  | @hidden b s h =>
    have hone : 1 ≤ (b :: s).length := Nat.succ_pos s.length
    refine scan_hidden hone fun i hi => ?_
    obtain rfl : i = 0 := Nat.lt_one_iff.mp hi
    exact h
  | @closed s => exact scan_closed (List.prefix_append thinkClose s)

theorem scan_keeps (hc : c.Separate) {before after : Bool × List UInt8} (h : Keeps c.Reads before u after) :
    c.scan before.1 0 before.2 = (c.scan after.1 0 after.2).prepend u := by
  induction h with
  | refl => rfl
  | keep hstep _ ih => rw [scan_reads hc hstep, ih, Reference.prepend_prepend]; rfl
  | drop hstep _ ih => rw [scan_reads hc hstep, ih, Reference.prepend_prepend]; rfl

end Reads

end EosFilterConfig

namespace EosFilterState
variable {c : EosFilterConfig} {s s' s'' : EosFilterState} {t : List UInt8}

/-- The bytes not yet classified. -/
def rest (s : EosFilterState) : List UInt8 := s.raw.drop s.cursor

/-- Nothing is left to classify until more bytes arrive. -/
def Settled (c : EosFilterConfig) (s : EosFilterState) : Prop :=
  if s.inThink then Absent thinkClose s.rest else ∀ m ∈ c.markers, Absent m.2 s.rest

theorem settled_of_rest_nil (h : s.rest = []) : s.Settled c := by
  have habsent : ∀ m : List UInt8, m ≠ [] → Absent m s.rest := by
    intro m hm i hat
    rw [h, List.drop_nil, List.prefix_nil] at hat
    exact hm hat
  rw [Settled]
  split_ifs
  · exact habsent _ (List.cons_ne_nil _ _)
  · exact fun m hm => habsent _ (EosFilterConfig.ne_nil_of_mem_markers hm)

/-- `text` became visible, and nothing was emitted. -/
structure Extended (s s' : EosFilterState) (text : List UInt8) : Prop where
  visible : s'.visible = s.visible ++ text
  emitted : s'.visibleEmitted = s.visibleEmitted

/-- The filter went from one state to another and made `text` visible, which is one way to read
the stream, whatever bytes follow. -/
structure Sieved (c : EosFilterConfig) (s s' : EosFilterState) (text : List UInt8) : Prop
    extends Extended s s' text where
  stopped : s'.stopped = s.stopped
  bounded : s'.cursor ≤ s'.raw.length
  keeps : ∀ t, Keeps c.Reads (s.inThink, s.rest ++ t) text (s'.inThink, s'.rest ++ t)

theorem Sieved.refl (h : s.cursor ≤ s.raw.length) : Sieved c s s [] :=
  ⟨⟨by simp, rfl⟩, rfl, h, fun _ => .refl _⟩

theorem Sieved.trans {a b : List UInt8} (h : Sieved c s s' a) (h' : Sieved c s' s'' b) : Sieved c s s'' (a ++ b) where
  visible := by rw [h'.visible, h.visible, List.append_assoc]
  emitted := h'.emitted.trans h.emitted
  stopped := h'.stopped.trans h.stopped
  bounded := h'.bounded
  keeps t := (h.keeps t).trans (h'.keeps t)

private theorem drop_rest_append {k : ℕ} (hk : k ≤ s.rest.length) :
    (s.rest ++ t).drop k = s.raw.drop (s.cursor + k) ++ t := by
  rw [List.drop_append_of_le_length hk, rest, List.drop_drop]

/-- Prose before any marker becomes visible. -/
private theorem sieved_prose {k : ℕ} (hthink : s.inThink = false) (hb : s.cursor ≤ s.raw.length)
    (hk : k ≤ s.rest.length) (h : ∀ t, ∀ i < k, ∀ m ∈ c.markers, m.2 <+: (s.rest ++ t).drop i →
      ∃ m' ∈ c.markers, m'.2 ≠ m.2 ∧ m'.2 <:+: m.2) :
    Sieved c s { s with visible := s.visible ++ s.rest.take k, cursor := s.cursor + k } (s.rest.take k) where
  visible := rfl
  emitted := rfl
  stopped := rfl
  bounded := by
    have : s.rest.length = s.raw.length - s.cursor := List.length_drop
    dsimp only
    omega
  keeps t := by
    have hle : k ≤ (s.rest ++ t).length := by
      rw [List.length_append]
      omega
    have hkeeps := EosFilterConfig.keeps_prose hle (h t)
    rwa [drop_rest_append hk, List.take_append_of_le_length hk, ← hthink] at hkeeps

/-- Bytes of a think span before its closer disappear. -/
private theorem sieved_hidden {k : ℕ} (hthink : s.inThink = true) (hb : s.cursor ≤ s.raw.length)
    (hk : k ≤ s.rest.length) (h : ∀ t, ∀ i < k, ¬ thinkClose <+: (s.rest ++ t).drop i) :
    Sieved c s { s with cursor := s.cursor + k } [] where
  visible := (List.append_nil _).symm
  emitted := rfl
  stopped := rfl
  bounded := by
    have : s.rest.length = s.raw.length - s.cursor := List.length_drop
    dsimp only
    omega
  keeps t := by
    have hle : k ≤ (s.rest ++ t).length := by
      rw [List.length_append]
      omega
    have hkeeps : Keeps c.Reads _ _ _ := EosFilterConfig.keeps_hidden hle (h t)
    rwa [drop_rest_append hk, ← hthink] at hkeeps

/-- A think marker at the cursor is consumed. -/
private theorem sieved_marker {m : List UInt8} (inThink : Bool) (hb : s.cursor ≤ s.raw.length)
    (h : m <+: s.rest) (hread : ∀ stream, c.Reads (s.inThink, m ++ stream) none (inThink, stream)) :
    Sieved c s { s with cursor := s.cursor + m.length, inThink := inThink } [] where
  visible := (List.append_nil _).symm
  emitted := rfl
  stopped := rfl
  bounded := by
    have : s.rest.length = s.raw.length - s.cursor := List.length_drop
    have := h.length_le
    dsimp only
    omega
  keeps t := by
    obtain ⟨back, hback⟩ := h
    have hrest : s.raw.drop (s.cursor + m.length) = back := by
      rw [← List.drop_drop]
      change s.rest.drop m.length = back
      rw [← hback, List.drop_left]
    change Keeps c.Reads (s.inThink, s.rest ++ t) [] (inThink, s.raw.drop (s.cursor + m.length) ++ t)
    rw [hrest, ← hback, List.append_assoc]
    exact .drop (hread (back ++ t)) (.refl _)

end EosFilterState

namespace EosFilter
variable {c : EosFilterConfig} {s : EosFilterState} {rounds : ℕ}
open EosFilterState

/-- How a pump may end: all bytes but a held tail are classified, or a stop marker is next. -/
def Ended (c : EosFilterConfig) (s' : EosFilterState) (out : EosFilterState × Option FilterAction) : Prop :=
  (out = (s', none) ∧ s'.Settled c) ∨
    (out = stopNow s' ∧ s'.inThink = false ∧ ∃ m, (.stop, m) ∈ c.markers ∧ m <+: s'.rest)

private theorem ended_after {s' : EosFilterState} {text : List UInt8} {out : EosFilterState × Option FilterAction}
    (h : Sieved c s s' text) (hend : ∃ s'' text', Sieved c s' s'' text' ∧ Ended c s'' out) :
    ∃ s'' text', Sieved c s s'' text' ∧ Ended c s'' out := by
  obtain ⟨s'', text', hsieved, hend⟩ := hend
  exact ⟨s'', text ++ text', h.trans hsieved, hend⟩

private theorem rest_cursor {k : ℕ} : { s with cursor := s.cursor + k }.rest = s.rest.drop k := by
  rw [EosFilterState.rest, EosFilterState.rest, List.drop_drop]

private theorem pump_think (hb : s.cursor ≤ s.raw.length) (hthink : s.inThink = true)
    (ih : ∀ {s' : EosFilterState}, s'.cursor ≤ s'.raw.length → s'.rest.length < s.rest.length →
      ∃ s'' text, Sieved c s' s'' text ∧ Ended c s'' (pump c false rounds s')) (hmore : ¬ s.raw.length ≤ s.cursor) :
    ∃ s' text, Sieved c s s' text ∧ Ended c s' (pump c false (rounds + 1) s) := by
  rw [pump, if_neg hmore, if_pos hthink]
  change ∃ s' text, Sieved c s s' text ∧ Ended c s' (match memmem s.rest thinkClose with | some start => _ | none => _)
  cases hfind : memmem s.rest thinkClose with
  | some start =>
    obtain ⟨hat, hend, hbefore⟩ := memmem_some (List.cons_ne_nil _ _) hfind
    have hhidden : Sieved c s { s with cursor := s.cursor + start } [] := sieved_hidden hthink hb (by omega)
      fun t i hi => not_prefix_before hat hi (by omega) (hbefore i hi) fun _ => rfl
    have hmarker := sieved_marker (c := c) (m := thinkClose) false hhidden.bounded (by rwa [rest_cursor])
      (by rw [hthink]; exact fun _ => .closed)
    refine ended_after (hhidden.trans hmarker) (ih hmarker.bounded ?_)
    have hlen : thinkClose.length = 8 := rfl
    simp only [EosFilterState.rest, List.length_drop]
    omega
  | none =>
    obtain ⟨hle, hcovers⟩ := EosFilterConfig.trailingPrefixStart_covers s.rest thinkClose
    have habsent := memmem_none hfind
    have hhidden : Sieved c s _ [] := sieved_hidden hthink hb hle fun t i hi =>
      not_prefix_of_covers habsent hcovers (by omega)
    refine ⟨_, _, hhidden, .inl ⟨rfl, ?_⟩⟩
    rw [Settled, if_pos hthink, rest_cursor]
    exact habsent.drop _

private theorem pump_prose (hb : s.cursor ≤ s.raw.length) (hthink : s.inThink = false)
    (ih : ∀ {s' : EosFilterState}, s'.cursor ≤ s'.raw.length → s'.rest.length < s.rest.length →
      ∃ s'' text, Sieved c s' s'' text ∧ Ended c s'' (pump c false rounds s')) (hmore : ¬ s.raw.length ≤ s.cursor) :
    ∃ s' text, Sieved c s s' text ∧ Ended c s' (pump c false (rounds + 1) s) := by
  have hloc := EosFilterConfig.located c s.rest
  rw [pump, if_neg hmore, if_neg (by simp [hthink])]
  have hfront : s.raw.drop s.cursor = s.rest := rfl
  simp only [hfront]
  cases hfind : c.earliest s.rest with
  | none =>
    obtain ⟨hle, hcovers⟩ := EosFilterConfig.holdbackTrimLen_covers c s.rest
    have habsent := hloc.absent hfind
    have hprose : Sieved c s _ _ := sieved_prose hthink hb hle fun t i hi m hm hstart =>
      absurd hstart (not_prefix_of_covers (habsent m hm) (hcovers m hm) (by omega))
    refine ⟨_, _, hprose, .inl ⟨rfl, ?_⟩⟩
    rw [Settled, if_neg (by simp [hthink])]
    intro m hm
    have := (habsent m hm).drop (c.holdbackTrimLen s.rest)
    rwa [EosFilterState.rest, List.drop_drop] at this
  | some event =>
    obtain ⟨⟨kind, m⟩, hmem, hkind, hlen, hat, hend⟩ := hloc.found event hfind
    dsimp only at hkind hlen hat
    -- a marker that begins earlier and hangs over contains the one found
    have hprose : Sieved c s { s with visible := s.visible ++ s.rest.take event.start, cursor := s.cursor + event.start }
        (s.rest.take event.start) := sieved_prose hthink hb (by omega) fun t i hi m' hm' hstart =>
      ⟨(kind, m), hmem, contains_of_prefix_before hat hi (by omega) (hloc.first event hfind m' hm' i hi) hstart⟩
    have hpos : 0 < m.length := List.length_pos_iff.mpr (EosFilterConfig.ne_nil_of_mem_markers hmem)
    have hrest : m <+: s.raw.drop (s.cursor + event.start) := by
      rwa [EosFilterState.rest, List.drop_drop] at hat
    have hshorter : (s.raw.drop (s.cursor + event.start + m.length)).length < s.rest.length := by
      simp only [EosFilterState.rest, List.length_drop] at hend ⊢
      omega
    dsimp only
    rw [hkind, hlen]
    cases kind with
    | stop => exact ⟨_, _, hprose, .inr ⟨rfl, hthink, m, hmem, hrest⟩⟩
    | thinkOpen =>
      obtain ⟨hstrip, rfl⟩ := EosFilterConfig.opens_of_mem hmem
      have hmarker := sieved_marker (m := thinkOpen) true hprose.bounded hrest
        (by rw [hthink]; exact fun _ => .opened hstrip)
      exact ended_after (hprose.trans hmarker) (ih hmarker.bounded hshorter)
    | thinkClose =>
      obtain ⟨hstrip, rfl⟩ := EosFilterConfig.closes_of_mem hmem
      have hmarker := sieved_marker (m := thinkClose) false hprose.bounded hrest
        (by rw [hthink]; exact fun _ => .orphan hstrip)
      rw [← hthink] at hmarker
      exact ended_after (hprose.trans hmarker) (ih hmarker.bounded hshorter)

/-- Enough rounds classify all that can be classified. -/
theorem pump_sieves (hb : s.cursor ≤ s.raw.length) (hr : s.rest.length < rounds) :
    ∃ s' text, Sieved c s s' text ∧ Ended c s' (pump c false rounds s) := by
  induction rounds generalizing s with
  | zero => omega
  | succ rounds ih =>
    by_cases hmore : s.raw.length ≤ s.cursor
    · have hrest : s.rest = [] := List.drop_eq_nil_of_le hmore
      rw [pump, if_pos hmore]
      exact ⟨s, [], Sieved.refl hb, .inl ⟨rfl, settled_of_rest_nil hrest⟩⟩
    · cases hthink : s.inThink with
      | true => exact pump_think hb hthink (fun hb' hlt => ih hb' (by omega)) hmore
      | false => exact pump_prose hb hthink (fun hb' hlt => ih hb' (by omega)) hmore

end EosFilter

end Hipscope.Emit
