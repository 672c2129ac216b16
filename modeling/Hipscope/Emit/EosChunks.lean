import Hipscope.Emit.EosStream

/-! Any way of cutting a byte stream into chunks gives the same output. -/
namespace Hipscope.Emit
open Text

/-- What the consumer gets: bytes that never became well-formed UTF-8 are released only
by a stream that ends outside a think span. -/
def Reference.output (r : Reference) : List UInt8 × Bool :=
  (if r.stopped || r.inThink then r.text.take (utf8SafeEnd r.text) else r.text, r.stopped)

namespace FilterAction

/-- What an action hands to the consumer. -/
def bytes : FilterAction → List UInt8
  | .emit bytes | .emitAndStop bytes => bytes
  | .hold | .stop => []

def stops : FilterAction → Bool
  | .stop | .emitAndStop _ => true
  | .emit _ | .hold => false

end FilterAction

namespace EosFilterState
variable {c : EosFilterConfig} {s s' : EosFilterState} {text : List UInt8}

/-- A run so far: the safe part of the visible text is out, and the visible text is one way to
read the stream, whatever follows. -/
structure Filtered (c : EosFilterConfig) (consumed : List UInt8) (s : EosFilterState) : Prop where
  live : s.stopped = false
  bounded : s.cursor ≤ s.raw.length
  emitted : s.visibleEmitted = utf8SafeEnd s.visible
  settled : s.Settled c
  keeps : ∀ t, Keeps c.Reads (c.stripThink && c.startedInThink, consumed ++ t) s.visible (s.inThink, s.rest ++ t)

/-- Emission only looks at what it has not emitted yet. -/
theorem Extended.safeVisibleEnd_eq (h : Extended s s' text) (he : s.visibleEmitted = utf8SafeEnd s.visible) :
    s'.safeVisibleEnd = utf8SafeEnd s'.visible := by
  have hle := utf8SafeEnd_le s.visible
  have happend : utf8SafeEnd s'.visible = s'.visibleEmitted + utf8SafeEnd (s'.visible.drop s'.visibleEmitted) := by
    rw [h.emitted, he, h.visible, utf8SafeEnd_append, List.drop_append_of_le_length hle]
  rw [safeVisibleEnd]
  split_ifs with hdone
  · rw [happend, List.drop_eq_nil_of_le hdone]
    rfl
  · omega

theorem Extended.emitted_le (h : Extended s s' text) (he : s.visibleEmitted = utf8SafeEnd s.visible) :
    s'.visibleEmitted ≤ utf8SafeEnd s'.visible := by
  rw [h.emitted, he, h.visible, utf8SafeEnd_append]
  exact Nat.le_add_right _ _

/-- What was emitted and what is emitted now are the beginning of the visible text. -/
theorem Extended.take_visibleTo {stop : ℕ} (h : Extended s s' text)
    (he : s.visibleEmitted = utf8SafeEnd s.visible) (hstop : s'.visibleEmitted ≤ stop) :
    s.visible.take s.visibleEmitted ++ s'.visibleTo stop = s'.visible.take stop := by
  have hle : s.visibleEmitted ≤ s.visible.length := he ▸ utf8SafeEnd_le _
  have htake : s.visible.take s.visibleEmitted = (s'.visible.take stop).take s'.visibleEmitted := by
    rw [List.take_take, min_eq_left hstop, h.visible, h.emitted, List.take_append_of_le_length hle]
  rw [htake, visibleTo, List.take_append_drop]

end EosFilterState

namespace EosFilter
variable {c : EosFilterConfig} {consumed chunk : List UInt8} {f : EosFilter}
open EosFilterState

/-- The stream has stopped: what is out with the last action is the safe part of the text. -/
theorem stopNow_spec {s s' : EosFilterState} {text : List UInt8} (h : Extended s s' text)
    (he : s.visibleEmitted = utf8SafeEnd s.visible) :
    ∃ action, (stopNow s').2 = some action ∧ action.stops = true ∧
      s.visible.take s.visibleEmitted ++ action.bytes = s'.visible.take (utf8SafeEnd s'.visible) := by
  have hend : { s' with stopped := true, raw := [], cursor := 0 }.safeVisibleEnd = utf8SafeEnd s'.visible :=
    h.safeVisibleEnd_eq he
  have htake := h.take_visibleTo he (h.emitted_le he)
  rw [stopNow]
  dsimp only
  rw [hend]
  split_ifs with hlt
  · exact ⟨_, rfl, rfl, htake⟩
  · refine ⟨_, rfl, rfl, ?_⟩
    have hnone : s'.visibleTo (utf8SafeEnd s'.visible) = [] := by
      rw [visibleTo]
      exact List.drop_eq_nil_of_le ((List.length_take_le _ _).trans (not_lt.mp hlt))
    rw [← htake, hnone]
    rfl

theorem rest_append_raw {s : EosFilterState} (h : s.cursor ≤ s.raw.length) :
    { s with raw := s.raw ++ chunk }.rest = s.rest ++ chunk := by
  rw [EosFilterState.rest, EosFilterState.rest, List.drop_append_of_le_length h]

/-- A stop marker is next. -/
def Halts (c : EosFilterConfig) (rest : List UInt8) : Prop := ∃ m, (.stop, m) ∈ c.markers ∧ m <+: rest

/-- One chunk later: the run goes on, or the stream has met a stop marker. -/
structure Observed (c : EosFilterConfig) (consumed before : List UInt8)
    (out : EosFilter × FilterAction) : Prop where
  config : out.1.config = c
  stopped : out.2.stops = true → ∃ text, before ++ out.2.bytes = text.take (utf8SafeEnd text) ∧
    ∀ t, ∃ rest, Keeps c.Reads (c.stripThink && c.startedInThink, consumed ++ t) text (false, rest) ∧ Halts c rest
  live : out.2.stops = false → Filtered c consumed out.1.state ∧
    before ++ out.2.bytes = out.1.state.visible.take out.1.state.visibleEmitted

private theorem observed_settled {s s' : EosFilterState} {text : List UInt8} (hlive : s.stopped = false)
    (he : s.visibleEmitted = utf8SafeEnd s.visible) (hsieved : Sieved c s s' text) (hsettled : s'.Settled c)
    (hkeeps : ∀ t, Keeps c.Reads (c.stripThink && c.startedInThink, consumed ++ t) s'.visible (s'.inThink, s'.rest ++ t)) :
    Observed c consumed (s.visible.take s.visibleEmitted) (
      if s'.visibleEmitted < s'.safeVisibleEnd then
        (⟨c, { s' with visibleEmitted := s'.safeVisibleEnd }⟩, .emit (s'.visibleTo s'.safeVisibleEnd))
      else (⟨c, s'⟩, .hold)) := by
  have hend := hsieved.safeVisibleEnd_eq he
  have hle := hsieved.emitted_le he
  rw [hend]
  split_ifs with hlt
  · refine ⟨rfl, fun h => absurd h Bool.false_ne_true, fun _ => ⟨?_, hsieved.take_visibleTo he hle⟩⟩
    exact ⟨hsieved.stopped.trans hlive, hsieved.bounded, rfl, hsettled, hkeeps⟩
  · have hemitted : s'.visibleEmitted = utf8SafeEnd s'.visible := by omega
    refine ⟨rfl, fun h => absurd h Bool.false_ne_true, fun _ => ⟨?_, ?_⟩⟩
    · exact ⟨hsieved.stopped.trans hlive, hsieved.bounded, hemitted, hsettled, hkeeps⟩
    · have htake := hsieved.take_visibleTo he le_rfl
      rwa [visibleTo, List.drop_eq_nil_of_le (List.length_take_le _ _)] at htake

theorem observed (chunk : List UInt8) (hf : f.config = c) (h : Filtered c consumed f.state) :
    Observed c (consumed ++ chunk) (f.state.visible.take f.state.visibleEmitted) (f.observe chunk) := by
  rw [observe, if_neg (by simp [h.live])]
  split_ifs with hidle
  · -- an empty chunk with nothing pending
    simp only [Bool.and_eq_true, decide_eq_true_eq] at hidle
    rw [hidle.1.1, List.append_nil]
    exact ⟨hf, fun hstop => absurd hstop Bool.false_ne_true, fun _ => ⟨h, List.append_nil _⟩⟩
  · set s : EosFilterState := { f.state with raw := f.state.raw ++ chunk } with hs
    have hbound : s.cursor ≤ s.raw.length := by
      rw [hs]
      exact h.bounded.trans (by simp)
    have hrounds : s.rest.length < s.raw.length + 1 := by
      rw [EosFilterState.rest, List.length_drop]
      omega
    have hkeeps (t : List UInt8) : Keeps c.Reads (c.stripThink && c.startedInThink, consumed ++ chunk ++ t)
        s.visible (s.inThink, s.rest ++ t) := by
      have hbefore := h.keeps (chunk ++ t)
      rwa [← List.append_assoc, ← List.append_assoc, ← rest_append_raw h.bounded] at hbefore
    obtain ⟨s', text, hsieved, ⟨hout, hsettled⟩ | ⟨hout, hthink, m, hmem, hstart⟩⟩ := pump_sieves hbound hrounds
    · dsimp only
      rw [hf, hout]
      refine observed_settled (s := s) h.live h.emitted hsieved hsettled fun t => ?_
      rw [hsieved.visible]
      exact (hkeeps t).trans (hsieved.keeps t)
    · obtain ⟨action, haction, hstops, hbytes⟩ := stopNow_spec hsieved.toExtended h.emitted
      have hpair : pump f.config false (s.raw.length + 1) s = ((stopNow s').1, some action) := by
        rw [hf, hout, ← haction]
      dsimp only
      rw [hpair]
      refine ⟨hf, fun _ => ⟨s'.visible, hbytes, fun t => ⟨s'.rest ++ t, ?_, m, hmem, ?_⟩⟩,
        fun hno => absurd (hno.symm.trans hstops) Bool.false_ne_true⟩
      · rw [hsieved.visible, ← hthink]
        exact (hkeeps t).trans (hsieved.keeps t)
      · exact hstart.trans (List.prefix_append _ _)

/-- Force-classifying a settled state finds no marker. -/
theorem pump_settled {s : EosFilterState} (rounds : ℕ) (h : s.Settled c) :
    (pump c true (rounds + 1) s).1.inThink = s.inThink ∧
      (pump c true (rounds + 1) s).1.visibleEmitted = s.visibleEmitted ∧
        (s.inThink = false → (pump c true (rounds + 1) s).1.visible = s.visible ++ s.rest) := by
  by_cases hdone : s.raw.length ≤ s.cursor
  · have hrest : s.rest = [] := List.drop_eq_nil_of_le hdone
    rw [pump, if_pos hdone]
    exact ⟨rfl, rfl, fun _ => by rw [hrest, List.append_nil]⟩
  · cases hthink : s.inThink with
    | true =>
      rw [Settled, if_pos hthink] at h
      cases hfind : memmem s.rest thinkClose with
      | none =>
        rw [EosFilterState.rest] at hfind
        simp only [pump, if_neg hdone, hthink, hfind, if_true]
        exact ⟨trivial, trivial, fun hno => absurd hno.symm Bool.false_ne_true⟩
      | some start => exact absurd (memmem_some (List.cons_ne_nil _ _) hfind).1 (h start)
    | false =>
      rw [Settled, if_neg (by simp [hthink])] at h
      cases hfind : c.earliest s.rest with
      | none =>
        rw [EosFilterState.rest] at hfind
        simp only [pump, if_neg hdone, hthink, hfind, if_true, Bool.false_eq_true, if_false, List.take_length]
        exact ⟨trivial, trivial, fun _ => rfl⟩
      | some event =>
        obtain ⟨m, hmem, -, -, hat, -⟩ := (EosFilterConfig.located c s.rest).found event hfind
        exact absurd hat (h m hmem event.start)

/-- What the consumer gets of the text kept up to a place where the stream is read no further. -/
inductive Outcome (c : EosFilterConfig) (text : List UInt8) : Bool × List UInt8 → List UInt8 × Bool → Prop where
  | prose : Outcome c text (false, []) (text, false)
  | hidden : Outcome c text (true, []) (text.take (utf8SafeEnd text), false)
  | stop {rest : List UInt8} (h : Halts c rest) : Outcome c text (false, rest) (text.take (utf8SafeEnd text), true)

/-- The bytes handed out are those of some way to read the stream to its end. -/
def Accounted (c : EosFilterConfig) (stream : List UInt8) (out : List UInt8 × Bool) : Prop :=
  ∃ text stop, Keeps c.Reads (c.stripThink && c.startedInThink, stream) text stop ∧ Outcome c text stop out

/-- At the end of the stream held bytes are prose, unless a think span is open. -/
theorem flushPending_spec (hf : f.config = c) (h : Filtered c consumed f.state) :
    Accounted c consumed (f.state.visible.take f.state.visibleEmitted ++ f.flushPending.2, false) := by
  obtain ⟨hthink, hemitted, hvisible⟩ := pump_settled f.state.raw.length h.settled
  have hkeeps := h.keeps []
  have hsettled := h.settled
  rw [List.append_nil, List.append_nil] at hkeeps
  rw [flushPending, if_neg (by simp [h.live]), hf]
  dsimp only
  rw [hthink]
  cases hin : f.state.inThink with
  | true =>
    rw [Settled, if_pos hin] at hsettled
    have hrest : Keeps c.Reads (true, f.state.rest) [] (true, []) := by
      simpa using EosFilterConfig.keeps_hidden (c := c) le_rfl fun i _ => hsettled i
    rw [hin] at hkeeps
    rw [if_pos rfl, List.append_nil, h.emitted]
    exact ⟨_, _, by simpa using hkeeps.trans hrest, .hidden⟩
  | false =>
    rw [Settled, if_neg (by simp [hin])] at hsettled
    have hrest : Keeps c.Reads (false, f.state.rest) f.state.rest (false, []) := by
      simpa using EosFilterConfig.keeps_prose (c := c) le_rfl fun i _ m hm hstart => absurd hstart (hsettled m hm i)
    rw [hin] at hkeeps
    have hle : f.state.visibleEmitted ≤ f.state.visible.length := h.emitted ▸ utf8SafeEnd_le _
    have hout : f.state.visible.take f.state.visibleEmitted ++ (f.state.visible ++ f.state.rest).drop f.state.visibleEmitted =
        f.state.visible ++ f.state.rest := by
      rw [List.drop_append_of_le_length hle, ← List.append_assoc, List.take_append_drop]
    refine ⟨_, _, hkeeps.trans hrest, ?_⟩
    rw [if_neg Bool.false_ne_true, hvisible hin, hemitted]
    split_ifs with hdone
    · rw [List.drop_eq_nil_of_le hdone] at hout
      rw [hout]
      exact .prose
    · rw [hout]
      exact .prose

theorem drive_cons (f : EosFilter) (chunk : List UInt8) (chunks : List (List UInt8)) :
    f.drive (chunk :: chunks) =
      if (f.observe chunk).2.stops then ((f.observe chunk).2.bytes, true)
      else ((f.observe chunk).2.bytes ++ ((f.observe chunk).1.drive chunks).1,
        ((f.observe chunk).1.drive chunks).2) := by
  rw [drive]
  rcases f.observe chunk with ⟨f', action⟩
  cases action <;> rfl

private theorem drive_accounted_from (chunks : List (List UInt8)) (hf : f.config = c) (h : Filtered c consumed f.state) :
    Accounted c (consumed ++ chunks.flatten)
      (f.state.visible.take f.state.visibleEmitted ++ (f.drive chunks).1, (f.drive chunks).2) := by
  induction chunks generalizing f consumed with
  | nil =>
    rw [drive, List.flatten_nil, List.append_nil]
    exact flushPending_spec hf h
  | cons chunk chunks ih =>
    have hobserved := observed chunk hf h
    rw [drive_cons, List.flatten_cons, ← List.append_assoc]
    cases hstops : (f.observe chunk).2.stops with
    | true =>
      obtain ⟨text, hbytes, hread⟩ := hobserved.stopped hstops
      obtain ⟨rest, hkeeps, hhalts⟩ := hread chunks.flatten
      refine ⟨text, _, hkeeps, ?_⟩
      rw [if_pos rfl, hbytes]
      exact .stop hhalts
    | false =>
      obtain ⟨hnext, hbytes⟩ := hobserved.live hstops
      have hrest := ih hobserved.config hnext
      rw [← hbytes, List.append_assoc (f.state.visible.take _)] at hrest
      rwa [if_neg Bool.false_ne_true]

/-- Sorting the configuration changes no marker. -/
theorem mem_markers_new {marker : EventKind × List UInt8} :
    marker ∈ (new c).config.markers ↔ marker ∈ c.markers := by
  obtain ⟨kind, m⟩ := marker
  rw [EosFilterConfig.mem_markers, EosFilterConfig.mem_markers]
  simp only [new, List.mem_insertionSort]

private theorem filtered_new : Filtered (new c).config [] (new c).state where
  live := rfl
  bounded := le_rfl
  emitted := rfl
  settled := settled_of_rest_nil rfl
  keeps _ := .refl _

private theorem reads_congr {c c' : EosFilterConfig} (hm : ∀ marker, marker ∈ c.markers ↔ marker ∈ c'.markers)
    (hstrip : c.stripThink = c'.stripThink) {before after : Bool × List UInt8} {l : Option UInt8}
    (h : c.Reads before l after) : c'.Reads before l after := by
  cases h with
  | prose h =>
    refine .prose fun m hmem hstart => ?_
    obtain ⟨m', hmem', hin⟩ := h m ((hm m).mpr hmem) hstart
    exact ⟨m', (hm m').mp hmem', hin⟩
  | opened h => exact .opened (hstrip ▸ h)
  | orphan h => exact .orphan (hstrip ▸ h)
  | hidden h => exact .hidden h
  | closed => exact .closed

theorem reads_new : (new c).config.Reads = c.Reads := by
  funext before l after
  exact propext ⟨reads_congr (fun _ => mem_markers_new) rfl, reads_congr (fun _ => mem_markers_new.symm) rfl⟩

theorem drive_accounted (c : EosFilterConfig) (chunks : List (List UInt8)) :
    Accounted c chunks.flatten ((new c).drive chunks) := by
  obtain ⟨text, stop, hkeeps, hout⟩ := drive_accounted_from chunks rfl (filtered_new (c := c))
  rw [reads_new] at hkeeps
  refine ⟨text, stop, hkeeps, ?_⟩
  change Outcome (new c).config text stop ((new c).drive chunks) at hout
  generalize (new c).drive chunks = out at hout ⊢
  cases hout with
  | prose => exact .prose
  | hidden => exact .hidden
  | stop h =>
    obtain ⟨m, hmem, hstart⟩ := h
    exact .stop ⟨m, mem_markers_new.mp hmem, hstart⟩

/-- Where no marker contains another one the reference reads the stream in that one way. -/
theorem Accounted.eq_output {stream : List UInt8} {out : List UInt8 × Bool} (hc : c.Separate)
    (h : Accounted c stream out) : out = (c.reference stream).output := by
  obtain ⟨text, stop, hkeeps, hout⟩ := h
  have hscan := EosFilterConfig.scan_keeps hc hkeeps
  dsimp only at hscan
  rw [EosFilterConfig.reference, hscan]
  cases hout with
  | prose => simp [EosFilterConfig.scan, Reference.prepend, Reference.output]
  | hidden => simp [EosFilterConfig.scan, Reference.prepend, Reference.output]
  | stop h =>
    obtain ⟨m, hmem, hstart⟩ := h
    rw [EosFilterConfig.scan_stop hmem hstart]
    simp [Reference.prepend, Reference.output]

/-- However the stream is cut, the output and the stop decision are those of one chunk, and of the
reference: its text as it is if the stream ends outside a think span, its longest well-formed
beginning otherwise. -/
theorem drive_eq_output (c : EosFilterConfig) (hc : c.Separate) (chunks : List (List UInt8)) :
    (new c).drive chunks = (new c).drive [chunks.flatten] ∧
      (new c).drive chunks = (c.reference chunks.flatten).output := by
  have hall (chunks : List (List UInt8)) : (new c).drive chunks = (c.reference chunks.flatten).output :=
    (drive_accounted c chunks).eq_output hc
  refine ⟨?_, hall chunks⟩
  rw [hall, hall, List.flatten_cons, List.flatten_nil, List.append_nil]

/-- `<|im_end|>` ends the turn and think spans are hidden. -/
def turnConfig : EosFilterConfig where
  stripThink := true
  startedInThink := false
  stopAt := [[0x3c, 0x7c, 0x69, 0x6d, 0x5f, 0x65, 0x6e, 0x64, 0x7c, 0x3e]]
  holdbackPrefixes := []

theorem turn_chunks_agree : turnConfig.Separate ∧
    (new turnConfig).drive [[0x61, 0x3c], [0x74, 0x68, 0x69, 0x6e, 0x6b, 0x3e, 0x62]] = ([0x61], false) := by
  have hsep : turnConfig.Separate := by decide
  refine ⟨hsep, ?_⟩
  rw [(drive_eq_output turnConfig hsep _).2]
  decide

/-- A byte that is not UTF-8 before the stop marker is in the reference, and is not handed out. -/
theorem stray_byte_dropped : ¬ ∀ c : EosFilterConfig, c.Separate → ∀ chunks : List (List UInt8),
    (new c).drive chunks = ((c.reference chunks.flatten).text, (c.reference chunks.flatten).stopped) := by
  intro h
  have := h turnConfig (by decide) [0xff :: turnConfig.stopAt.flatten]
  revert this
  decide

end EosFilter
end Hipscope.Emit
