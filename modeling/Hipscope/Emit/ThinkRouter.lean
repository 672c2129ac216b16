import Hipscope.Text.Channels
import Hipscope.Text.Search

/-! The router that separates reasoning from content at the think markers, as text arrives. -/
namespace Hipscope.Emit.Think
open Text

inductive ThinkMarker where
  | opener
  | closer
  deriving DecidableEq

def ThinkMarker.text : ThinkMarker → List Char
  | .opener => ['<', 't', 'h', 'i', 'n', 'k', '>']
  | .closer => ['<', '/', 't', 'h', 'i', 'n', 'k', '>']

def markers : List ThinkMarker := [.opener, .closer]

inductive ThinkRouteEvent where
  | content (text : List Char)
  | reasoning (text : List Char)
  deriving DecidableEq

structure ThinkOutputRouter where
  inThink : Bool
  pending : List Char
  stripAnswerNewlines : Bool
  deriving DecidableEq

def isNewline (c : Char) : Bool := c = '\r' || c = '\n'

/-- The first marker of a text, with its place. -/
def nextThinkMarker (text : List Char) : Option (ℕ × ThinkMarker) :=
  match memmem text ThinkMarker.opener.text, memmem text ThinkMarker.closer.text with
  | none, none => none
  | some a, none => some (a, .opener)
  | none, some b => some (b, .closer)
  | some a, some b => if a ≤ b then some (a, .opener) else some (b, .closer)

/-- The longest proper beginning of the marker that the text ends with. -/
def longestPrefixSuffix (text : List Char) (marker : ThinkMarker) : ℕ :=
  ((List.range' 1 (min text.length (marker.text.length - 1))).reverse.find? fun len =>
    (marker.text.take len).isSuffixOf text).getD 0

def longestThinkPrefixSuffix (text : List Char) : ℕ :=
  max (longestPrefixSuffix text .opener) (longestPrefixSuffix text .closer)

theorem ThinkMarker.mem_markers (m : ThinkMarker) : m ∈ markers := by cases m <;> decide

theorem ThinkMarker.text_ne_nil (m : ThinkMarker) : m.text ≠ [] := by cases m <;> decide

theorem nextThinkMarker_none {text : List Char} (h : nextThinkMarker text = none) (m : ThinkMarker) : Absent m.text text := by
  rw [nextThinkMarker] at h
  split at h
  · rename_i hopener hcloser
    cases m with
    | opener => exact memmem_none hopener
    | closer => exact memmem_none hcloser
  · cases h
  · cases h
  · split at h <;> cases h

/-- The marker found is the first of all. -/
theorem nextThinkMarker_some {text : List Char} {i : ℕ} {m : ThinkMarker} (h : nextThinkMarker text = some (i, m)) :
    m.text <+: text.drop i ∧ i + m.text.length ≤ text.length ∧ ∀ j < i, ∀ m' : ThinkMarker, ¬ m'.text <+: text.drop j := by
  have hboth {P : ThinkMarker → Prop} (hopener : P .opener) (hcloser : P .closer) (m) : P m := by
    cases m with
    | opener => exact hopener
    | closer => exact hcloser
  rw [nextThinkMarker] at h
  split at h
  · cases h
  · rename_i a ha hcloser
    cases h
    obtain ⟨hfound, hfit, hfirst⟩ := memmem_some (ThinkMarker.text_ne_nil _) ha
    exact ⟨hfound, hfit, fun j hj => hboth (hfirst j hj) (memmem_none hcloser j)⟩
  · rename_i b hopener hb
    cases h
    obtain ⟨hfound, hfit, hfirst⟩ := memmem_some (ThinkMarker.text_ne_nil _) hb
    exact ⟨hfound, hfit, fun j hj => hboth (memmem_none hopener j) (hfirst j hj)⟩
  · rename_i a b ha hb
    obtain ⟨hfound₁, hfit₁, hfirst₁⟩ := memmem_some (ThinkMarker.text_ne_nil _) ha
    obtain ⟨hfound₂, hfit₂, hfirst₂⟩ := memmem_some (ThinkMarker.text_ne_nil _) hb
    split at h
    · cases h
      exact ⟨hfound₁, hfit₁, fun j hj => hboth (hfirst₁ j hj) (hfirst₂ j (by omega))⟩
    · cases h
      exact ⟨hfound₂, hfit₂, fun j hj => hboth (hfirst₁ j (by omega)) (hfirst₂ j hj)⟩

namespace ThinkOutputRouter

def new (startedInThink : Bool) : ThinkOutputRouter := ⟨startedInThink, [], false⟩

/-- Send a text to the current channel, an answer without its leading newlines. -/
def emit (p : ThinkOutputRouter) (text : List Char) : ThinkOutputRouter × List ThinkRouteEvent :=
  let strips := !p.inThink && p.stripAnswerNewlines
  let text := if strips then text.dropWhile isNewline else text
  if text = [] then (p, [])
  else ({ p with stripAnswerNewlines := if strips then false else p.stripAnswerNewlines },
    [if p.inThink then .reasoning text else .content text])

/-- Leave a marker behind. -/
def enter (p : ThinkOutputRouter) : ThinkMarker → ThinkOutputRouter
  | .opener => { p with inThink := true }
  | .closer => { p with inThink := false, stripAnswerNewlines := true }

def drain (p : ThinkOutputRouter) (finish : Bool) : ThinkOutputRouter × List ThinkRouteEvent :=
  match _hnext : nextThinkMarker p.pending with
  | some (i, marker) =>
    let now := p.emit (p.pending.take i)
    let later := drain (({ now.1 with pending := p.pending.drop (i + marker.text.length) } : ThinkOutputRouter).enter marker) finish
    (later.1, now.2 ++ later.2)
  | none =>
    let hold := if finish then 0 else longestThinkPrefixSuffix p.pending
    let emitLen := p.pending.length - hold
    if 0 < emitLen then
      ({ p with pending := p.pending.drop emitLen }).emit (p.pending.take emitLen)
    else (p, [])
termination_by p.pending.length
decreasing_by
  obtain ⟨-, hfit, -⟩ := nextThinkMarker_some _hnext
  have hpos := List.length_pos_iff.mpr marker.text_ne_nil
  cases marker <;> simp only [enter, List.length_drop] <;> omega

def push (p : ThinkOutputRouter) (text : List Char) : ThinkOutputRouter × List ThinkRouteEvent :=
  if text = [] then (p, []) else ({ p with pending := p.pending ++ text }).drain false

def finish (p : ThinkOutputRouter) : ThinkOutputRouter × List ThinkRouteEvent := p.drain true

/-- Push the chunks one after the other. -/
def pushAll (p : ThinkOutputRouter) : List (List Char) → ThinkOutputRouter × List ThinkRouteEvent
  | [] => (p, [])
  | chunk :: chunks =>
    let now := p.push chunk
    let later := pushAll now.1 chunks
    (later.1, now.2 ++ later.2)

end ThinkOutputRouter

/-- The channel and the text of an event. -/
def ThinkRouteEvent.piece : ThinkRouteEvent → Bool × List Char
  | .content text => (false, text)
  | .reasoning text => (true, text)

/-- The events with adjacent texts of one channel joined. -/
def merged (events : List ThinkRouteEvent) : List (Bool × List Char) :=
  Channels.merge (events.map ThinkRouteEvent.piece)

end Hipscope.Emit.Think

/-! The parts of a whole text: its think markers, the newlines right after a closing
one, and the characters that remain for a channel. -/
namespace Hipscope.Emit.Think
open Text

inductive Part where
  | marker (m : ThinkMarker)
  | newline (c : Char)
  | content (c : Char)
  | reasoning (c : Char)
  deriving DecidableEq

namespace Part

/-- The input that a part stands for. -/
def text : Part → List Char
  | .marker m => m.text
  | .newline c => [c]
  | .content c => [c]
  | .reasoning c => [c]

/-- What a part adds to the channels. -/
def piece : Part → Option (Bool × List Char)
  | .content c => some (false, [c])
  | .reasoning c => some (true, [c])
  | _ => none

end Part

/-- The channel, and whether the answer's leading newlines are still to be dropped. -/
structure ThinkState where
  inThink : Bool
  strip : Bool
  deriving DecidableEq

namespace ThinkState

def enter (st : ThinkState) : ThinkMarker → ThinkState
  | .opener => { st with inThink := true }
  | .closer => ⟨false, true⟩

/-- One character outside the markers, and the state after it. -/
def part (st : ThinkState) (c : Char) : Part :=
  if st.inThink then .reasoning c
  else if st.strip ∧ isNewline c then .newline c
  else .content c

def pass (st : ThinkState) (c : Char) : ThinkState :=
  if st.inThink ∨ st.strip ∧ isNewline c then st else { st with strip := false }

end ThinkState

/-- The marker a text begins with. -/
def marker? (s : List Char) : Option ThinkMarker := markers.find? fun m => m.text.isPrefixOf s

/-- The parts of a text, after the characters left of a marker. -/
def split : ThinkState → ℕ → List Char → List Part
  | _, _, [] => []
  | st, skip + 1, _ :: s => split st skip s
  | st, 0, c :: s =>
    match marker? (c :: s) with
    | some m => .marker m :: split (st.enter m) (m.text.length - 1) s
    | none => st.part c :: split (st.pass c) 0 s

/-- The state after a list of parts. -/
def after (st : ThinkState) : List Part → ThinkState
  | [] => st
  | .marker m :: parts => after (st.enter m) parts
  | .content _ :: parts => after { st with strip := false } parts
  | _ :: parts => after st parts

theorem after_append (st : ThinkState) (a b : List Part) : after st (a ++ b) = after (after st a) b := by
  induction a generalizing st with
  | nil => rfl
  | cons part a ih => cases part <;> exact ih _

/-- The parts are those their states allow. -/
def Valid (st : ThinkState) : List Part → Prop
  | [] => True
  | .marker m :: parts => Valid (st.enter m) parts
  | .newline c :: parts => (st.inThink = false ∧ st.strip ∧ isNewline c) ∧ Valid st parts
  | .content c :: parts => (st.inThink = false ∧ ¬ (st.strip ∧ isNewline c)) ∧ Valid { st with strip := false } parts
  | .reasoning _ :: parts => st.inThink ∧ Valid st parts

theorem split_valid (st : ThinkState) (skip : ℕ) (s : List Char) : Valid st (split st skip s) := by
  induction s generalizing st skip with
  | nil => cases skip <;> trivial
  | cons c s ih =>
    cases skip with
    | succ skip => exact ih st skip
    | zero =>
      rw [split]
      cases marker? (c :: s) with
      | some m => exact ih _ _
      | none =>
        obtain ⟨inThink, strip⟩ := st
        dsimp only
        cases inThink with
        | true => exact ⟨rfl, ih ⟨true, strip⟩ 0⟩
        | false =>
          rw [ThinkState.part, ThinkState.pass, if_neg Bool.false_ne_true]
          by_cases hnewline : strip ∧ isNewline c
          · rw [if_pos hnewline, if_pos (Or.inr hnewline)]
            exact ⟨⟨rfl, hnewline⟩, ih _ _⟩
          · rw [if_neg hnewline, if_neg (not_or.mpr ⟨Bool.false_ne_true, hnewline⟩)]
            exact ⟨⟨rfl, hnewline⟩, ih _ _⟩

theorem Valid.append {st : ThinkState} {a b : List Part} (h : Valid st (a ++ b)) : Valid st a ∧ Valid (after st a) b := by
  induction a generalizing st with
  | nil => exact ⟨trivial, h⟩
  | cons part a ih =>
    cases part with
    | marker m => exact ih h
    | newline c => exact ⟨⟨h.1, (ih h.2).1⟩, (ih h.2).2⟩
    | content c => exact ⟨⟨h.1, (ih h.2).1⟩, (ih h.2).2⟩
    | reasoning c => exact ⟨⟨h.1, (ih h.2).1⟩, (ih h.2).2⟩

/-- The parts end in a closing marker and the newlines right after it. -/
def AfterCloser (parts : List Part) : Prop :=
  ∃ front run, parts = front ++ .marker .closer :: run ∧ ∀ part ∈ run, ∃ c, part = .newline c

private theorem after_newlines {run : List Part} (h : ∀ part ∈ run, ∃ c, part = .newline c) (st : ThinkState) :
    after st run = st := by
  induction run with
  | nil => rfl
  | cons part run ih =>
    obtain ⟨c, rfl⟩ := h part List.mem_cons_self
    exact ih fun part hpart => h part (List.mem_cons_of_mem _ hpart)

/-- An answer's newlines are dropped exactly right after a closing marker. -/
theorem afterCloser_iff {inThink : Bool} {parts : List Part} (hvalid : Valid ⟨inThink, false⟩ parts) :
    AfterCloser parts ↔ after ⟨inThink, false⟩ parts = ⟨false, true⟩ := by
  constructor
  · rintro ⟨front, run, rfl, hrun⟩
    rw [after_append]
    exact after_newlines hrun _
  · intro hafter
    induction parts using List.reverseRecOn with
    | nil => cases hafter
    | append_singleton front part ih =>
      obtain ⟨hfront, hlast⟩ := hvalid.append
      rw [after_append] at hafter
      cases part with
      | marker m =>
        cases m with
        | opener => exact absurd (congrArg ThinkState.inThink hafter) Bool.false_ne_true.symm
        | closer => exact ⟨front, [], rfl, fun part hpart => absurd hpart List.not_mem_nil⟩
      | newline c =>
        obtain ⟨before, run, rfl, hrun⟩ := ih hfront hafter
        refine ⟨before, run ++ [.newline c], by rw [List.append_assoc]; rfl, fun part hpart => ?_⟩
        obtain hin | hin := List.mem_append.mp hpart
        · exact hrun part hin
        · exact ⟨c, List.mem_singleton.mp hin⟩
      | content c => exact absurd (congrArg ThinkState.strip hafter) Bool.false_ne_true
      | reasoning c => exact absurd (hlast.1.symm.trans (congrArg ThinkState.inThink hafter)) Bool.false_ne_true.symm

/-- Newlines are dropped right after a closing marker, and only there. -/
theorem newlines_dropped {inThink : Bool} {front back : List Part} {c : Char} :
    (Valid ⟨inThink, false⟩ (front ++ .newline c :: back) → isNewline c ∧ AfterCloser front) ∧
      (Valid ⟨inThink, false⟩ (front ++ .content c :: back) → isNewline c → ¬ AfterCloser front) := by
  constructor
  · intro hvalid
    obtain ⟨hfront, ⟨hthink, hstrip, hnewline⟩, -⟩ := hvalid.append
    exact ⟨hnewline, (afterCloser_iff hfront).mpr (congrArg₂ ThinkState.mk hthink hstrip)⟩
  · intro hvalid hnewline hcloser
    obtain ⟨hfront, ⟨-, hkept⟩, -⟩ := hvalid.append
    rw [(afterCloser_iff hfront).mp hcloser] at hkept
    exact hkept ⟨rfl, hnewline⟩

end Hipscope.Emit.Think
