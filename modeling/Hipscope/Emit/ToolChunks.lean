import Hipscope.Emit.ToolRouter

/-! Any way of cutting a text into pushes routes it as its split at the delimiters. -/
namespace Hipscope.Emit
open Text

namespace DelimCursor
variable {c : DelimCursor} {u bytes : List UInt8} {b : UInt8}

/-- The cursor knows both delimiters' longest beginnings at the end of what it has read. -/
structure Tracks (c : DelimCursor) (u : List UInt8) : Prop where
  opener : Matched toolCallOpen u c.opener
  closer : Matched toolCallClose u c.closer
  absent : ∀ hit : DelimHit, Absent hit.bytes u

theorem tracks_new : Tracks new [] where
  opener := matched_nil _
  closer := matched_nil _
  absent hit i h := by
    rw [List.drop_nil, List.prefix_nil] at h
    cases hit <;> cases h

theorem Tracks.covers (h : Tracks c u) (hit : DelimHit) : Covers c.holdLen u hit.bytes := by
  cases hit with
  | opener => exact fun k hk htail => (h.opener.covers k hk htail).trans (le_max_left _ _)
  | closer => exact fun k hk htail => (h.closer.covers k hk htail).trans (le_max_right _ _)

theorem Tracks.drop {n : ℕ} (h : Tracks c u) (hn : n + c.holdLen ≤ u.length) : Tracks c (u.drop n) where
  opener := h.opener.drop (by unfold holdLen at hn; omega)
  closer := h.closer.drop (by unfold holdLen at hn; omega)
  absent hit := (h.absent hit).drop n

private theorem borders_open : Borders toolCallOpen openFail := by decide

private theorem borders_close : Borders toolCallClose closeFail := by decide

/-- One byte: a delimiter ends here, or the cursor has read on. -/
theorem feed_spec (h : Tracks c u) (b : UInt8) :
    (∃ hit, c.feed b = (new, some hit) ∧ hit.bytes <:+ u ++ [b]) ∨
      ∃ c', c.feed b = (c', none) ∧ Tracks c' (u ++ [b]) := by
  have hopen := h.opener.advance (b := b) borders_open
  have hclose := h.closer.advance (b := b) borders_close
  rw [feed]
  dsimp only
  split_ifs with hc ho
  · exact .inl ⟨.closer, rfl, hclose.eq_length_iff.mp hc⟩
  · exact .inl ⟨.opener, rfl, hopen.eq_length_iff.mp ho⟩
  · refine .inr ⟨_, rfl, hopen, hclose, fun hit => (h.absent hit).snoc ?_⟩
    cases hit with
    | opener => exact fun hend => ho (hopen.eq_length_iff.mpr hend)
    | closer => exact fun hend => hc (hclose.eq_length_iff.mpr hend)

/-- The bytes up to and with the first that ends a delimiter, or all of them. -/
theorem catchUp_spec (bytes : List UInt8) (h : Tracks c u) :
    (∃ v b rest hit, bytes = v ++ b :: rest ∧ c.catchUp u.length bytes = (new, (u ++ v ++ [b]).length, some hit) ∧
      hit.bytes <:+ u ++ v ++ [b] ∧ ∀ hit' : DelimHit, Absent hit'.bytes (u ++ v)) ∨
      ∃ c', c.catchUp u.length bytes = (c', (u ++ bytes).length, none) ∧ Tracks c' (u ++ bytes) := by
  induction bytes generalizing c u with
  | nil => exact .inr ⟨c, by simp [catchUp], by simpa using h⟩
  | cons b bytes ih =>
    rcases feed_spec h b with ⟨hit, hfeed, hend⟩ | ⟨c', hfeed, hnext⟩
    · refine .inl ⟨[], b, bytes, hit, rfl, ?_, by simpa using hend, by simpa using h.absent⟩
      rw [catchUp, hfeed]
      simp
    · have hlen : u.length + 1 = (u ++ [b]).length := by simp
      rw [catchUp, hfeed]
      dsimp only
      rw [hlen]
      rcases ih hnext with ⟨v, b', rest, hit, hbytes, hcatch, hend, habsent⟩ | ⟨c'', hcatch, htracks⟩
      · refine .inl ⟨b :: v, b', rest, hit, by rw [hbytes]; rfl, ?_, ?_, ?_⟩
        · simpa using hcatch
        · simpa using hend
        · simpa using habsent
      · exact .inr ⟨c'', by simpa using hcatch, by simpa using htracks⟩

end DelimCursor

namespace ToolOutputRouter
variable {Call : Type} {parse : List UInt8 → Option Call} {r : ToolOutputRouter Call}

/-- The prose of some events. -/
def text (events : List (ToolRouteEvent Call)) : List UInt8 :=
  events.flatMap fun
    | .visibleText text => text
    | .toolCall _ => []

/-- The calls of some events, in order. -/
def calls (events : List (ToolRouteEvent Call)) : List Call :=
  events.filterMap fun
    | .visibleText _ => none
    | .toolCall call => some call

@[simp] theorem text_append (a b : List (ToolRouteEvent Call)) : text (a ++ b) = text a ++ text b :=
  List.flatMap_append

@[simp] theorem calls_append (a b : List (ToolRouteEvent Call)) : calls (a ++ b) = calls a ++ calls b :=
  List.filterMap_append

@[simp] theorem text_visible (bytes : List UInt8) : text (visible bytes : List (ToolRouteEvent Call)) = bytes := by
  rw [visible]
  split_ifs with h
  · exact h.symm
  · simp [text]

@[simp] theorem calls_visible (bytes : List UInt8) : calls (visible bytes : List (ToolRouteEvent Call)) = [] := by
  rw [visible]
  split_ifs <;> rfl

/-- The cursor has read the buffer up to `seen`. -/
structure Tracked (r : ToolOutputRouter Call) : Prop where
  seen_le : r.seen ≤ r.buf.length
  tracks : r.cursor.Tracks (r.buf.take r.seen)

/-- The next delimiter with its place, and no other begins before it; or all bytes are read. -/
theorem catchUpDelim_spec (h : Tracked r) :
    (∃ cursor hit start stop, r.catchUpDelim = ({ r with cursor := cursor, seen := stop }, some (hit, start, stop)) ∧
      start + hit.len = stop ∧ stop ≤ r.buf.length ∧ hit.bytes <+: r.buf.drop start ∧
        ∀ t, Clear start (r.buf ++ t)) ∨
      ∃ cursor, r.catchUpDelim = ({ r with cursor := cursor, seen := r.buf.length }, none) ∧
        cursor.Tracks r.buf := by
  have hlen : (r.buf.take r.seen).length = r.seen := List.length_take_of_le h.seen_le
  have hspec := DelimCursor.catchUp_spec (r.buf.drop r.seen) h.tracks
  rw [hlen, List.take_append_drop] at hspec
  rcases hspec with ⟨v, b, rest, hit, hbytes, hcatch, hend, habsent⟩ | ⟨cursor, hcatch, htracks⟩
  · have hbuf : r.buf = r.buf.take r.seen ++ v ++ [b] ++ rest := by
      rw [List.append_assoc, List.append_assoc, List.singleton_append, ← hbytes, List.take_append_drop]
    set read := r.buf.take r.seen ++ v with hread
    have hfit := hend.length_le
    refine .inl ⟨.new, hit, (read ++ [b]).length - hit.len, (read ++ [b]).length, ?_, ?_, ?_, ?_, fun t => ?_⟩
    · rw [catchUpDelim, hcatch]
      rfl
    · rw [DelimHit.len]
      omega
    · have hcut : (read ++ [b] ++ rest).length = (read ++ [b]).length + rest.length := List.length_append
      rw [hbuf]
      omega
    · rw [hbuf, List.drop_append_of_le_length (Nat.sub_le _ _), DelimHit.len, ← List.suffix_iff_eq_drop.mp hend]
      exact List.prefix_append _ _
    · intro i hi hit'
      rw [hbuf, List.append_assoc]
      refine not_prefix_before_end hend (fun hin => congrArg _ (hit_of_occurs hin)) (habsent hit') ?_
      rw [DelimHit.len] at hi
      omega
  · refine .inr ⟨cursor, ?_, htracks⟩
    rw [catchUpDelim, hcatch]
    rfl

/-- What the router makes of its buffer, whatever follows, once it has run: the rest is the
router's that it leaves, unless the text has failed. -/
structure Ran (parse : List UInt8 → Option Call) (r r' : ToolOutputRouter Call)
    (events : List (ToolRouteEvent Call)) : Prop where
  live : r'.malformed = none → Tracked r' ∧ r'.completed = r.completed ++ calls events ∧
    ∀ t, toolSplit parse r.state [] 0 (r.buf ++ t) =
      (toolSplit parse r'.state [] 0 (r'.buf ++ t)).prepend (text events) (calls events)
  failed : ∀ err, r'.malformed = some err →
    ∀ t, toolSplit parse r.state [] 0 (r.buf ++ t) = ⟨text events, calls events, some err⟩

theorem Ran.refl (hlive : r.malformed = none) (h : Tracked r) : Ran parse r r [] where
  live _ := ⟨h, (List.append_nil _).symm, fun _ => by simp [Routed.prepend, text, calls]⟩
  failed err herr := absurd (hlive.symm.trans herr) (Option.some_ne_none err).symm

theorem Ran.trans {r' r'' : ToolOutputRouter Call} {a b : List (ToolRouteEvent Call)} (hlive : r'.malformed = none)
    (h : Ran parse r r' a) (h' : Ran parse r' r'' b) : Ran parse r r'' (a ++ b) := by
  obtain ⟨-, hcompleted, hsplit⟩ := h.live hlive
  refine ⟨fun hend => ?_, fun err herr t => ?_⟩
  · obtain ⟨htracked, hcompleted', hsplit'⟩ := h'.live hend
    refine ⟨htracked, ?_, fun t => ?_⟩
    · rw [hcompleted', hcompleted, calls_append, List.append_assoc]
    · rw [hsplit, hsplit', Routed.prepend_prepend, text_append, calls_append]
  · rw [hsplit, h'.failed err herr, text_append, calls_append]
    rfl

/-- A step that goes on shortens the buffer; one that does not has read all of it or failed. -/
structure Stepped (parse : List UInt8 → Option Call) (r : ToolOutputRouter Call)
    (out : ToolOutputRouter Call × List (ToolRouteEvent Call) × Bool) : Prop where
  ran : Ran parse r out.1 out.2.1
  more : out.2.2 = true → out.1.malformed = none ∧ out.1.buf.length < r.buf.length
  done : out.2.2 = false → out.1.malformed = none → out.1.seen = out.1.buf.length

private theorem tracked_consumed {state : RouteState} {buf : List UInt8} {completed : List Call}
    {malformed : Option ToolRouteError} :
    Tracked (⟨state, buf, .new, 0, completed, malformed⟩ : ToolOutputRouter Call) :=
  ⟨Nat.zero_le _, DelimCursor.tracks_new⟩

/-- All bytes are read and the buffer is cut before what may be a delimiter. -/
private theorem stepped_prose {cursor : DelimCursor} {emitLen : ℕ} (hlive : r.malformed = none)
    (hstate : r.state = .normal) (htracks : cursor.Tracks r.buf) (hpos : 0 < emitLen)
    (hemit : emitLen + cursor.holdLen ≤ r.buf.length) :
    Stepped parse r ({ r with cursor := cursor, buf := r.buf.drop emitLen, seen := r.buf.length - emitLen },
      visible (r.buf.take emitLen), true) := by
  have hclear : ∀ t, Clear emitLen (r.buf ++ t) := fun t i hi hit =>
    not_prefix_of_covers (htracks.absent hit) (htracks.covers hit) (by omega)
  have hlen : (r.buf.drop emitLen).length = r.buf.length - emitLen := List.length_drop
  refine ⟨⟨fun _ => ⟨⟨hlen.ge, ?_⟩, by simp, fun t => ?_⟩, fun err herr => ?_⟩, fun _ => ⟨hlive, ?_⟩, fun h => ?_⟩
  · dsimp only
    rw [← hlen, List.take_length]
    exact htracks.drop hemit
  · rw [text_visible, calls_visible, hstate, split_prose (by rw [List.length_append]; omega) (hclear t),
      List.drop_append_of_le_length (by omega), List.take_append_of_le_length (by omega)]
  · exact absurd (hlive.symm.trans herr) (Option.some_ne_none err).symm
  · dsimp only
    omega
  · cases h

private theorem utf8SplitFrom_le (bytes : List UInt8) (k : ℕ) : utf8SplitFrom bytes k ≤ k := by
  induction k with
  | zero => exact le_rfl
  | succ k ih =>
    rw [utf8SplitFrom]
    split_ifs
    · exact ih.trans (Nat.le_succ k)
    · exact le_rfl

private theorem utf8SafeSplit_le (bytes : List UInt8) (n : ℕ) : utf8SafeSplit bytes n ≤ n :=
  (utf8SplitFrom_le bytes _).trans (min_le_left _ _)

private theorem stepped_read {cursor : DelimCursor} (hlive : r.malformed = none) (htracks : cursor.Tracks r.buf) :
    Stepped parse r ({ r with cursor := cursor, seen := r.buf.length }, [], false) := by
  refine ⟨⟨fun _ => ⟨⟨le_rfl, ?_⟩, (List.append_nil _).symm, fun t => ?_⟩, fun err herr => ?_⟩, fun h => ?_,
    fun _ _ => rfl⟩
  · dsimp only
    rwa [List.take_length]
  · simp [Routed.prepend, text, calls]
  · exact absurd (hlive.symm.trans herr) (Option.some_ne_none err).symm
  · cases h

/-- A step outside a call. -/
private theorem stepped_normal (h : Tracked r) (hlive : r.malformed = none) (hstate : r.state = .normal) :
    Stepped parse r r.stepNormal := by
  rw [stepNormal]
  rcases catchUpDelim_spec h with ⟨cursor, hit, start, stop, hcatch, hstop, hle, hat, hclear⟩ | ⟨cursor, hcatch, htracks⟩
  · have hstart : start ≤ r.buf.length := by omega
    have hprose : ∀ t, toolSplit parse r.state [] 0 (r.buf ++ t) =
        (toolSplit parse .normal [] 0 (r.buf.drop start ++ t)).prepend (r.buf.take start) [] := by
      intro t
      rw [hstate, split_prose (by rw [List.length_append]; omega) (hclear t),
        List.drop_append_of_le_length hstart, List.take_append_of_le_length hstart]
    have hfirst : ∀ t, hit.bytes <+: r.buf.drop start ++ t := fun t => hat.trans (List.prefix_append _ _)
    have hrest : ∀ t, (r.buf.drop start ++ t).drop hit.bytes.length = r.buf.drop stop ++ t := by
      intro t
      rw [List.drop_append_of_le_length hat.length_le, List.drop_drop, ← hstop]
      rfl
    rw [hcatch]
    cases hit with
    | closer =>
      refine ⟨⟨fun hno => ?_, fun err herr t => ?_⟩, fun hmore => ?_, fun _ hno => ?_⟩
      · cases hno
      · cases herr
        rw [hprose, split_stray (hfirst t), text_visible, calls_visible]
        simp [Routed.prepend, Routed.failed]
      · cases hmore
      · cases hno
    | opener =>
      have hdrop : ∀ t, (r.buf.drop start ++ t).drop toolCallOpen.length = r.buf.drop stop ++ t := hrest
      refine ⟨⟨fun _ => ⟨tracked_consumed, by simp [consumeThrough], fun t => ?_⟩, fun err herr => ?_⟩,
        fun _ => ⟨hlive, ?_⟩, fun h => ?_⟩
      · rw [hprose, split_open (hfirst t), hdrop, text_visible, calls_visible]
        rfl
      · exact absurd (hlive.symm.trans herr) (Option.some_ne_none err).symm
      · have hlen : DelimHit.opener.len = 11 := rfl
        simp only [consumeThrough, List.length_drop]
        omega
      · cases h
  · rw [hcatch]
    dsimp only
    split_ifs with hhold hpos
    · have hsplit := utf8SafeSplit_le r.buf (r.buf.length - cursor.holdLen)
      exact stepped_prose hlive hstate htracks hpos (by omega)
    · exact stepped_read hlive htracks
    · exact stepped_read hlive htracks

/-- A step inside a call. -/
private theorem stepped_inToolCall (h : Tracked r) (hlive : r.malformed = none) (hstate : r.state = .inToolCall) :
    Stepped parse r (r.stepInToolCall parse) := by
  rw [stepInToolCall]
  rcases catchUpDelim_spec h with ⟨cursor, hit, start, stop, hcatch, hstop, hle, hat, hclear⟩ | ⟨cursor, hcatch, htracks⟩
  · have hstart : start ≤ r.buf.length := by omega
    have hbody : ∀ t, toolSplit parse r.state [] 0 (r.buf ++ t) =
        toolSplit parse .inToolCall (r.buf.take start) 0 (r.buf.drop start ++ t) := by
      intro t
      rw [hstate, split_body (by rw [List.length_append]; omega) (hclear t),
        List.drop_append_of_le_length hstart, List.take_append_of_le_length hstart, List.nil_append]
    have hfirst : ∀ t, hit.bytes <+: r.buf.drop start ++ t := fun t => hat.trans (List.prefix_append _ _)
    have hrest : ∀ t, (r.buf.drop start ++ t).drop hit.bytes.length = r.buf.drop stop ++ t := by
      intro t
      rw [List.drop_append_of_le_length hat.length_le, List.drop_drop, ← hstop]
      rfl
    rw [hcatch]
    cases hit with
    | opener =>
      refine ⟨⟨fun hno => ?_, fun err herr t => ?_⟩, fun hmore => ?_, fun _ hno => ?_⟩
      · cases hno
      · cases herr
        rw [hbody, split_nested (hfirst t)]
        rfl
      · cases hmore
      · cases hno
    | closer =>
      have hdrop : ∀ t, (r.buf.drop start ++ t).drop toolCallClose.length = r.buf.drop stop ++ t := hrest
      dsimp only
      cases hparse : parse (r.buf.take start) with
      | some call =>
        refine ⟨⟨fun _ => ⟨tracked_consumed, rfl, fun t => ?_⟩, fun err herr => ?_⟩, fun _ => ⟨hlive, ?_⟩, fun h => ?_⟩
        · rw [hbody, split_close (hfirst t), hparse, hdrop]
          rfl
        · exact absurd (hlive.symm.trans herr) (Option.some_ne_none err).symm
        · have hlen : DelimHit.closer.len = 12 := rfl
          simp only [consumeThrough, List.length_drop]
          omega
        · cases h
      | none =>
        refine ⟨⟨fun hno => ?_, fun err herr t => ?_⟩, fun hmore => ?_, fun _ hno => ?_⟩
        · cases hno
        · cases herr
          rw [hbody, split_close (hfirst t), hparse]
          rfl
        · cases hmore
        · cases hno
  · rw [hcatch]
    exact stepped_read hlive htracks

theorem stepped (parse : List UInt8 → Option Call) (h : Tracked r) (hlive : r.malformed = none) :
    Stepped parse r (r.step parse) := by
  rw [step]
  cases hstate : r.state with
  | normal => exact stepped_normal h hlive hstate
  | inToolCall => exact stepped_inToolCall h hlive hstate

/-- Enough rounds read the whole buffer, or find the error in it. -/
private theorem drainLoop_spec (parse : List UInt8 → Option Call) {rounds : ℕ}
    (events : List (ToolRouteEvent Call)) (h : Tracked r)
    (hlive : r.malformed = none) (hr : r.buf.length < rounds) :
    ∃ r' more, drainLoop parse rounds r events = (r', events ++ more) ∧ Ran parse r r' more ∧
      (r'.malformed = none → r'.seen = r'.buf.length) := by
  induction rounds generalizing r events with
  | zero => omega
  | succ rounds ih =>
    have hstepped := stepped parse h hlive
    rw [drainLoop, if_neg (by simp [hlive])]
    rcases hstep : r.step parse with ⟨r', more, goesOn⟩
    rw [hstep] at hstepped
    cases goesOn with
    | true =>
      obtain ⟨hlive', hshorter⟩ := hstepped.more rfl
      obtain ⟨htracked, -, -⟩ := hstepped.ran.live hlive'
      obtain ⟨r'', more', hloop, hran, hdone⟩ := ih (events ++ more) htracked hlive'
        (Nat.lt_of_lt_of_le hshorter (Nat.le_of_lt_succ hr))
      refine ⟨r'', more ++ more', ?_, hstepped.ran.trans hlive' hran, hdone⟩
      dsimp only
      rw [hloop, List.append_assoc]
    | false => exact ⟨r', more, rfl, hstepped.ran, hstepped.done rfl⟩

/-- A step with nothing unread finds no delimiter. -/
private theorem step_settled (parse : List UInt8 → Option Call) (hseen : r.seen = r.buf.length) (hlive : r.malformed = none) :
    (r.step parse).1.malformed = none ∧ (r.step parse).1.seen = (r.step parse).1.buf.length ∧
      (r.step parse).1.state = r.state ∧ (r.state = .inToolCall → (r.step parse).2.1 = []) := by
  have hcatch : r.catchUpDelim = (r, none) := by
    rw [catchUpDelim, hseen, List.drop_length, DelimCursor.catchUp, ← hseen]
    rfl
  cases hstate : r.state with
  | normal =>
    simp only [step, hstate, stepNormal, hcatch]
    split_ifs
    · exact ⟨hlive, by rw [hseen, List.length_drop], rfl, False.elim⟩
    · exact ⟨hlive, hseen, hstate, False.elim⟩
    · exact ⟨hlive, hseen, hstate, False.elim⟩
  | inToolCall =>
    simp only [step, hstate, stepInToolCall, hcatch]
    exact ⟨hlive, hseen, trivial, fun _ => trivial⟩

private theorem drainLoop_settled (parse : List UInt8 → Option Call) (rounds : ℕ) (events : List (ToolRouteEvent Call))
    (hseen : r.seen = r.buf.length) (hlive : r.malformed = none) :
    (drainLoop parse rounds r events).1.malformed = none ∧ (drainLoop parse rounds r events).1.state = r.state ∧
      (r.state = .inToolCall → (drainLoop parse rounds r events).2 = events) := by
  induction rounds generalizing r events with
  | zero => exact ⟨hlive, rfl, fun _ => rfl⟩
  | succ rounds ih =>
    obtain ⟨hlive', hseen', hstate', hnone⟩ := step_settled parse hseen hlive
    rw [drainLoop, if_neg (by simp [hlive])]
    rcases hstep : r.step parse with ⟨r', more, goesOn⟩
    rw [hstep] at hlive' hseen' hstate' hnone
    dsimp only at hlive' hseen' hstate' hnone
    cases goesOn with
    | true =>
      obtain ⟨hlive'', hstate'', hevents⟩ := ih (events ++ more) hseen' hlive'
      refine ⟨hlive'', hstate''.trans hstate', fun hin => ?_⟩
      dsimp only
      rw [hevents (hstate'.trans hin), hnone hin, List.append_nil]
    | false =>
      refine ⟨hlive', hstate', fun hin => ?_⟩
      dsimp only
      rw [hnone hin, List.append_nil]

/-- A run so far: all pushed bytes are read and the rest of the split is the buffer's, or an
error is latched. -/
structure Routing (parse : List UInt8 → Option Call) (consumed prose : List UInt8) (done : List Call)
    (r : ToolOutputRouter Call) : Prop where
  live : r.malformed = none → Tracked r ∧ r.seen = r.buf.length ∧ r.completed = done ∧
    ∀ t, toolReference parse (consumed ++ t) = (toolSplit parse r.state [] 0 (r.buf ++ t)).prepend prose done
  failed : ∀ err, r.malformed = some err →
    ∀ t, toolReference parse (consumed ++ t) = ⟨prose, done, some err⟩

theorem routing_new : Routing parse [] [] [] new where
  live _ := ⟨tracked_consumed, rfl, rfl, fun _ => rfl⟩
  failed err herr := by cases herr

/-- What a result hands to the consumer. -/
def delivered : Except ToolRouteError (List (ToolRouteEvent Call)) → List (ToolRouteEvent Call)
  | .ok events => events
  | .error _ => []

theorem drain_spec (parse : List UInt8 → Option Call) (h : Tracked r) (hlive : r.malformed = none) :
    Ran parse r (r.drain parse).1 (delivered (r.drain parse).2) ∧
      ((r.drain parse).1.malformed = none → (r.drain parse).1.seen = (r.drain parse).1.buf.length) := by
  obtain ⟨r', more, hloop, hran, hdone⟩ := drainLoop_spec parse [] h hlive (Nat.lt_succ_self _)
  have hdelivered : delivered (r.drain parse).2 = more := by
    rw [drain, hloop]
    dsimp only
    split
    · split_ifs with hempty
      · exact hempty.symm
      · rfl
    · rfl
  have hrouter : (r.drain parse).1 = r' := by rw [drain, hloop]
  rw [hdelivered, hrouter]
  exact ⟨hran, hdone⟩

variable {consumed prose chunk : List UInt8} {done : List Call}

private theorem push_live (hlive : r.malformed = none) (hne : chunk ≠ []) :
    r.push parse chunk = { r with buf := r.buf ++ chunk }.drain parse := by
  obtain ⟨state, buf, cursor, seen, completed, malformed⟩ := r
  cases hlive
  rw [push, if_neg hne]

private theorem push_failed {err : ToolRouteError} (herr : r.malformed = some err) :
    r.push parse chunk = (r, .error err) := by
  obtain ⟨state, buf, cursor, seen, completed, malformed⟩ := r
  cases herr
  rfl

private theorem push_nil (hlive : r.malformed = none) : r.push parse [] = (r, .ok []) := by
  obtain ⟨state, buf, cursor, seen, completed, malformed⟩ := r
  cases hlive
  rfl

theorem routing_push (h : Routing parse consumed prose done r) :
    Routing parse (consumed ++ chunk) (prose ++ text (delivered (r.push parse chunk).2))
      (done ++ calls (delivered (r.push parse chunk).2)) (r.push parse chunk).1 := by
  rcases hmalformed : r.malformed with _ | err
  · rcases eq_or_ne chunk [] with rfl | hne
    · rw [push_nil hmalformed]
      simpa [delivered, text, calls] using h
    · obtain ⟨htracked, -, hcompleted, hreference⟩ := h.live hmalformed
      rw [push_live hmalformed hne]
      set r₀ : ToolOutputRouter Call := { r with buf := r.buf ++ chunk } with hr₀
      have htracked₀ : Tracked r₀ := by
        refine ⟨htracked.seen_le.trans (by simp [hr₀]), ?_⟩
        rw [hr₀, List.take_append_of_le_length htracked.seen_le]
        exact htracked.tracks
      have hreference₀ : ∀ t, toolReference parse (consumed ++ chunk ++ t) =
          (toolSplit parse r₀.state [] 0 (r₀.buf ++ t)).prepend prose done := by
        intro t
        rw [List.append_assoc, hreference, ← List.append_assoc]
      obtain ⟨hran, hdone⟩ := drain_spec parse htracked₀ hmalformed
      refine ⟨fun hlive => ?_, fun err herr t => ?_⟩
      · obtain ⟨htracked', hcompleted', hsplit⟩ := hran.live hlive
        refine ⟨htracked', hdone hlive, hcompleted'.trans (by rw [← hcompleted]), fun t => ?_⟩
        rw [hreference₀, hsplit, Routed.prepend_prepend]
      · rw [hreference₀, hran.failed err herr]
        rfl
  · rw [push_failed hmalformed]
    refine ⟨fun hno => absurd (hno.symm.trans hmalformed) (Option.some_ne_none err).symm, fun err' herr' t => ?_⟩
    rw [List.append_assoc, h.failed err' herr']
    simp [delivered, text, calls]

/-- The split of a buffer without a delimiter. -/
private theorem split_tracked {cursor : DelimCursor} (h : cursor.Tracks r.buf) :
    toolSplit parse r.state [] 0 r.buf = match r.state with
      | .normal => ⟨r.buf, [], none⟩
      | .inToolCall => .failed "unclosed <tool_call> span at end of output" := by
  have hclear : Clear r.buf.length r.buf := fun i _ hit => h.absent hit i
  cases r.state with
  | normal =>
    rw [split_prose le_rfl hclear, List.drop_length, List.take_length, toolSplit]
    simp [Routed.prepend]
  | inToolCall => rw [split_body le_rfl hclear, List.drop_length, toolSplit]

/-- Push every chunk and finish: all that was delivered, and the terminal result. -/
def route (parse : List UInt8 → Option Call) (r : ToolOutputRouter Call) : List (List UInt8) → Routed Call
  | [] =>
    match r.finish parse with
    | .ok events => ⟨text events, calls events, none⟩
    | .error err => ⟨[], [], some err⟩
  | chunk :: chunks =>
    (route parse (r.push parse chunk).1 chunks).prepend (text (delivered (r.push parse chunk).2))
      (calls (delivered (r.push parse chunk).2))

private theorem finish_failed {err : ToolRouteError} (herr : r.malformed = some err) : r.finish parse = .error err := by
  rw [finish, herr]

private theorem finish_live (h : Tracked r) (hlive : r.malformed = none) (hseen : r.seen = r.buf.length) :
    toolSplit parse r.state [] 0 r.buf = r.route parse [] := by
  obtain ⟨hran, hdone⟩ := drain_spec parse h hlive
  obtain ⟨hlive', hstate, hnone⟩ := drainLoop_settled parse (r.buf.length + 1) [] hseen hlive
  have hmalformed : (r.drain parse).1.malformed = none := hlive'
  have hok : (r.drain parse).2 = .ok (delivered (r.drain parse).2) := by
    rw [drain, hlive']
    rfl
  obtain ⟨htracked', -, hsplit⟩ := hran.live hmalformed
  have htracks := htracked'.tracks
  rw [hdone hmalformed, List.take_length] at htracks
  have hwhole := hsplit []
  rw [List.append_nil, List.append_nil, split_tracked htracks] at hwhole
  have hstate' : (r.drain parse).1.state = r.state := hstate
  rw [hwhole, hstate', route, finish, hlive]
  dsimp only
  rcases hdrain : r.drain parse with ⟨r', result⟩
  rw [hdrain] at hok hstate'
  dsimp only at hok hstate'
  rw [hok]
  dsimp only
  rw [hstate']
  cases hin : r.state with
  | normal => simp [Routed.prepend, delivered]
  | inToolCall =>
    have hevents : delivered (r.drain parse).2 = [] := by
      rw [drain, hlive']
      exact hnone hin
    rw [hdrain, hok] at hevents
    rw [hevents]
    rfl

private theorem route_finish (h : Routing parse consumed prose done r) :
    (r.route parse []).prepend prose done = toolReference parse consumed := by
  rcases hmalformed : r.malformed with _ | err
  · obtain ⟨htracked, hseen, -, hreference⟩ := h.live hmalformed
    have := hreference []
    rw [List.append_nil, List.append_nil] at this
    rw [this, finish_live htracked hmalformed hseen]
  · have := h.failed err hmalformed []
    rw [List.append_nil] at this
    rw [this, route, finish_failed hmalformed]
    simp [Routed.prepend]

private theorem route_spec (chunks : List (List UInt8)) (h : Routing parse consumed prose done r) :
    (r.route parse chunks).prepend prose done = toolReference parse (consumed ++ chunks.flatten) := by
  induction chunks generalizing r consumed prose done with
  | nil =>
    rw [List.flatten_nil, List.append_nil]
    exact route_finish h
  | cons chunk chunks ih =>
    rw [route, Routed.prepend_prepend, ih (routing_push h), List.flatten_cons, List.append_assoc]

theorem route_reference (parse : List UInt8 → Option Call) (chunks : List (List UInt8)) :
    new.route parse chunks = toolReference parse chunks.flatten :=
  route_spec chunks routing_new

/-- However a text is cut into pushes, its prose, its calls and its terminal result are those of
one push, and of the split of the text at its delimiters. -/
theorem route_eq_split (parse : List UInt8 → Option Call) (chunks : List (List UInt8)) :
    new.route parse chunks = new.route parse [chunks.flatten] ∧
      new.route parse chunks = toolReference parse chunks.flatten := by
  refine ⟨?_, route_reference parse chunks⟩
  rw [route_reference, route_reference, List.flatten_cons, List.flatten_nil, List.append_nil]

end ToolOutputRouter
end Hipscope.Emit
