import Hipscope.Dsml.Stream

/-! The split of a whole text at its think and tool-call markers, one character at a time. -/
namespace Hipscope.Dsml
open Text

/-- The markers a state watches for, with the state each leads to. -/
def StreamState.markers : StreamState → List (List Char × StreamState)
  | .normal => [(thinkOpen, .inThink), (toolCallsOpen, .inToolCalls)]
  | .inThink => [(thinkClose, .normal), (toolCallsOpen, .inToolCalls)]
  | .inToolCalls => [(toolCallsClose, .normal)]

/-- The marker a text begins with. -/
def StreamState.marker? (state : StreamState) (s : List Char) : Option (List Char × StreamState) :=
  state.markers.find? fun m => m.1.isPrefixOf s

namespace StreamEvent
variable {Call : Type}

/-- One character of the text outside markers. -/
def ofChar : StreamState → Char → List (StreamEvent Call)
  | .normal, c => [.token [c]]
  | .inThink, c => [.reasoning [c]]
  | .inToolCalls, _ => []

/-- Join an event to what follows when both carry text of one kind. -/
def glue : StreamEvent Call → List (StreamEvent Call) → List (StreamEvent Call)
  | .token a, .token b :: rest => .token (a ++ b) :: rest
  | .reasoning a, .reasoning b :: rest => .reasoning (a ++ b) :: rest
  | event, rest => event :: rest

/-- Adjacent tokens and adjacent reasoning as one event each. -/
def merge (events : List (StreamEvent Call)) : List (StreamEvent Call) := events.foldr glue []

/-- The text of the visible events. -/
def spoken (events : List (StreamEvent Call)) : List Char :=
  events.flatMap fun
    | .token text => text
    | .reasoning text => text
    | _ => []

def isMalformed : StreamEvent Call → Bool
  | .malformed _ => true
  | _ => false

end StreamEvent

section Split
variable {Call : Type} (parse : List Char → List Call)

/-- What a marker completes: inside a block the calls of its body. -/
def completed : StreamState → List Char → List (StreamEvent Call)
  | .inToolCalls, body => [.toolCalls (parse body)]
  | _, _ => []

/-- The reference split; `body` is the text since the last marker, `skip` counts the
characters left of a marker. -/
def dsmlSplit : StreamState → List Char → ℕ → List Char → List (StreamEvent Call)
  | .inToolCalls, _, _, [] => [.malformed "unclosed DSML tool_calls block at end of output"]
  | _, _, _, [] => []
  | state, body, skip + 1, _ :: s => dsmlSplit state body skip s
  | state, body, 0, c :: s =>
    match state.marker? (c :: s) with
    | some (m, next) => completed parse state body ++ dsmlSplit next [] (m.length - 1) s
    | none => StreamEvent.ofChar state c ++ dsmlSplit state (body ++ [c]) 0 s

/-- The characters outside markers and tool-call blocks. -/
def outside : StreamState → ℕ → List Char → List Char
  | _, _, [] => []
  | state, skip + 1, _ :: s => outside state skip s
  | state, 0, c :: s =>
    match state.marker? (c :: s) with
    | some (m, next) => outside next (m.length - 1) s
    | none => if state = .inToolCalls then outside state 0 s else c :: outside state 0 s

/-- The state the text ends in. -/
def stateAfter : StreamState → ℕ → List Char → StreamState
  | state, _, [] => state
  | state, skip + 1, _ :: s => stateAfter state skip s
  | state, 0, c :: s =>
    match state.marker? (c :: s) with
    | some (m, next) => stateAfter next (m.length - 1) s
    | none => stateAfter state 0 s

end Split

namespace StreamEvent
variable {Call : Type} {a b : List (StreamEvent Call)}

theorem merge_append (a b : List (StreamEvent Call)) : merge (a ++ b) = a.foldr glue (merge b) :=
  List.foldr_append

theorem merge_congr (h : merge a = merge b) (events : List (StreamEvent Call)) :
    merge (events ++ a) = merge (events ++ b) := by
  rw [merge_append, merge_append, h]

private theorem glue_token (x y : List Char) (events : List (StreamEvent Call)) :
    glue (.token x) (glue (.token y) events) = glue (.token (x ++ y)) events := by
  cases events with
  | nil => rfl
  | cons event rest => cases event <;> simp [glue]

private theorem glue_reasoning (x y : List Char) (events : List (StreamEvent Call)) :
    glue (.reasoning x) (glue (.reasoning y) events) = glue (.reasoning (x ++ y)) events := by
  cases events with
  | nil => rfl
  | cons event rest => cases event <;> simp [glue]

/-- The event a state makes of a text outside markers. -/
def ofText : StreamState → List Char → List (StreamEvent Call)
  | _, [] => []
  | .normal, text => [.token text]
  | .inThink, text => [.reasoning text]
  | .inToolCalls, _ => []

/-- A text in one event or character by character merges to the same. -/
theorem merge_ofText (state : StreamState) (text : List Char) (events : List (StreamEvent Call)) :
    merge (text.flatMap (ofChar state) ++ events) = merge (ofText state text ++ events) := by
  induction text with
  | nil => rfl
  | cons c text ih =>
    rw [List.flatMap_cons, List.append_assoc, merge_append, ih]
    cases state <;> cases text <;> simp [ofText, ofChar, merge, glue_token, glue_reasoning]

theorem spoken_append (a b : List (StreamEvent Call)) : spoken (a ++ b) = spoken a ++ spoken b :=
  List.flatMap_append

theorem spoken_merge (events : List (StreamEvent Call)) : spoken (merge events) = spoken events := by
  have hglue : ∀ (e : StreamEvent Call) rest, spoken (glue e rest) = spoken [e] ++ spoken rest := by
    intro e rest
    cases rest with
    | nil => cases e <;> simp [glue, spoken]
    | cons event rest => cases e <;> cases event <;> simp [glue, spoken]
  induction events with
  | nil => rfl
  | cons e events ih =>
    rw [merge, List.foldr_cons, hglue, ← merge, ih, ← spoken_append, List.singleton_append]

private theorem glue_ne_nil (e : StreamEvent Call) (rest : List (StreamEvent Call)) : glue e rest ≠ [] := by
  cases rest with
  | nil => cases e <;> simp [glue]
  | cons event rest => cases e <;> cases event <;> simp [glue]

theorem merge_eq_nil : merge a = [] ↔ a = [] := by
  cases a with
  | nil => simp [merge]
  | cons e a => simpa [merge] using glue_ne_nil e (merge a)

/-- Merging keeps whether the last event is an error. -/
theorem merge_last (events : List (StreamEvent Call)) :
    (merge events).getLast?.any isMalformed = events.getLast?.any isMalformed := by
  have hglue : ∀ (e x : StreamEvent Call) rest,
      (glue e (x :: rest)).getLast?.any isMalformed = (x :: rest).getLast?.any isMalformed := by
    intro e x rest
    cases e <;> cases x <;> cases rest <;> simp [glue, isMalformed, List.getLast?_cons]
  induction events with
  | nil => rfl
  | cons e events ih =>
    cases events with
    | nil => cases e <;> rfl
    | cons e' events =>
      obtain ⟨x, rest, hx⟩ := List.exists_cons_of_ne_nil
        (fun h => by simpa using merge_eq_nil.1 h : merge (e' :: events) ≠ [])
      rw [hx] at ih
      rw [merge, List.foldr_cons, ← merge, hx, hglue, ih, List.getLast?_cons_cons]

/-- Merging keeps the blocks of calls. -/
theorem toolCalls_mem_merge {calls : List Call} (events : List (StreamEvent Call)) :
    .toolCalls calls ∈ merge events ↔ .toolCalls calls ∈ events := by
  have hglue : ∀ (e : StreamEvent Call) rest,
      .toolCalls calls ∈ glue e rest ↔ .toolCalls calls = e ∨ .toolCalls calls ∈ rest := by
    intro e rest
    cases rest with
    | nil => cases e <;> simp [glue]
    | cons event rest => cases e <;> cases event <;> simp [glue]
  induction events with
  | nil => rfl
  | cons e events ih => exact (hglue e _).trans ((or_congr_right ih).trans List.mem_cons.symm)

end StreamEvent
end Hipscope.Dsml

/-! Any way of cutting a text into chunks yields the events of its split at the markers. -/
namespace Hipscope.Dsml
open Text StreamEvent

namespace StreamState
variable {state : StreamState} {m m' : List Char × StreamState} {s : List Char}

/-- The markers of one state do not nest. -/
theorem markers_nest (hm : m ∈ state.markers) (hm' : m' ∈ state.markers) (h : m.1 <:+: m'.1) : m = m' := by
  have hall : ∀ state : StreamState, ∀ m ∈ state.markers, ∀ m' ∈ state.markers, m.1 <:+: m'.1 → m = m' := by
    intro state
    cases state <;> decide
  exact hall state m hm m' hm' h

theorem markers_pos (hm : m ∈ state.markers) : 0 < m.1.length := by
  have hall : ∀ state : StreamState, ∀ m ∈ state.markers, 0 < m.1.length := by
    intro state
    cases state <;> decide
  exact hall state m hm

theorem marker?_eq (hm : m ∈ state.markers) (h : m.1 <+: s) : state.marker? s = some m := by
  cases hfind : state.marker? s with
  | none =>
    have := List.find?_eq_none.1 hfind m hm
    exact absurd (List.isPrefixOf_iff_prefix.2 h) this
  | some m' =>
    rw [marker?] at hfind
    have hmem := List.mem_of_find?_eq_some hfind
    have hfound : m'.1.isPrefixOf s = true := by simpa using List.find?_some hfind
    have hstarts := List.isPrefixOf_iff_prefix.1 hfound
    rcases occurs_of_starts hstarts h with hin | hin
    · rw [markers_nest hmem hm hin]
    · rw [markers_nest hm hmem hin]

theorem marker?_none (h : ∀ m ∈ state.markers, ¬ m.1 <+: s) : state.marker? s = none :=
  List.find?_eq_none.2 fun m hm hstarts => h m hm (List.isPrefixOf_iff_prefix.1 hstarts)

end StreamState

/-- No marker of the state begins in the first `k` characters. -/
def Clear (state : StreamState) (k : ℕ) (s : List Char) : Prop :=
  ∀ i < k, ∀ m ∈ state.markers, ¬ m.1 <+: s.drop i

section Split
variable {Call : Type} (parse : List Char → List Call) {state : StreamState} (body : List Char) {s : List Char}
  {k : ℕ} {m : List Char × StreamState}

theorem Clear.head {c : Char} (h : Clear state (k + 1) (c :: s)) : state.marker? (c :: s) = none :=
  StreamState.marker?_none fun m hm => h 0 (Nat.succ_pos k) m hm

theorem Clear.tail {c : Char} (h : Clear state (k + 1) (c :: s)) : Clear state k s := by
  intro i hi m hm
  simpa using h (i + 1) (Nat.succ_lt_succ hi) m hm

private theorem split_succ (c : Char) : dsmlSplit parse state body (k + 1) (c :: s) = dsmlSplit parse state body k s := by
  cases state <;> rfl

private theorem split_zero (c : Char) : dsmlSplit parse state body 0 (c :: s) =
    match state.marker? (c :: s) with
    | some (m, next) => completed parse state body ++ dsmlSplit parse next [] (m.length - 1) s
    | none => ofChar state c ++ dsmlSplit parse state (body ++ [c]) 0 s := by
  cases state <;> rfl

private theorem split_skip : dsmlSplit parse state body k s = dsmlSplit parse state body 0 (s.drop k) := by
  induction k generalizing s with
  | zero => rfl
  | succ k ih =>
    cases s with
    | nil => cases state <;> simp [dsmlSplit]
    | cons c s => rw [split_succ, ih, List.drop_succ_cons]

theorem split_text (hk : k ≤ s.length) (h : Clear state k s) :
    dsmlSplit parse state body 0 s =
      (s.take k).flatMap (ofChar state) ++ dsmlSplit parse state (body ++ s.take k) 0 (s.drop k) := by
  induction k generalizing s body with
  | zero => simp
  | succ k ih =>
    cases s with
    | nil => simp at hk
    | cons c s =>
      rw [split_zero, h.head]
      dsimp only
      rw [ih _ (Nat.le_of_succ_le_succ hk) h.tail]
      simp

theorem split_marker (hm : m ∈ state.markers) (h : m.1 <+: s) :
    dsmlSplit parse state body 0 s =
      completed parse state body ++ dsmlSplit parse m.2 [] 0 (s.drop m.1.length) := by
  cases s with
  | nil =>
    have := h.length_le
    have := StreamState.markers_pos hm
    simp_all
  | cons c s =>
    have hpos := StreamState.markers_pos hm
    rw [split_zero, StreamState.marker?_eq hm h]
    dsimp only
    rw [split_skip, ← List.drop_succ_cons (a := c), Nat.sub_add_cancel hpos]

/-- Only a block remembers its text. -/
theorem split_body_irrel (hstate : state ≠ .inToolCalls) (body' : List Char) :
    dsmlSplit parse state body k s = dsmlSplit parse state body' k s := by
  induction s generalizing k body body' with
  | nil => cases state <;> rfl
  | cons c s ih =>
    cases k with
    | succ k => rw [split_succ, split_succ, ih _ body']
    | zero =>
      rw [split_zero, split_zero]
      cases state.marker? (c :: s) with
      | none => simp only [ih (body ++ [c]) (body' ++ [c])]
      | some m => cases state <;> first | rfl | exact absurd rfl hstate

theorem spoken_split (state : StreamState) (k : ℕ) (s : List Char) :
    spoken (dsmlSplit parse state body k s) = outside state k s := by
  induction s generalizing state body k with
  | nil => cases state <;> rfl
  | cons c s ih =>
    cases k with
    | succ k => rw [split_succ, outside, ih]
    | zero =>
      rw [split_zero, outside]
      cases state.marker? (c :: s) with
      | none =>
        dsimp only
        rw [spoken_append, ih]
        cases state <;> simp [spoken, ofChar]
      | some m =>
        dsimp only
        rw [spoken_append, ih]
        cases state <;> simp [spoken, completed]

private theorem last_append {a : List (StreamEvent Call)} (ha : ∀ e ∈ a, isMalformed e = false)
    (b : List (StreamEvent Call)) : (a ++ b).getLast?.any isMalformed = b.getLast?.any isMalformed := by
  rw [List.getLast?_append]
  cases hb : b.getLast? with
  | some e => rfl
  | none =>
    cases hlast : a.getLast? with
    | none => rfl
    | some e => simpa using ha e (List.mem_of_getLast? hlast)

/-- The split ends in an error exactly when the text ends inside a block. -/
theorem last_split (state : StreamState) (k : ℕ) (s : List Char) :
    (dsmlSplit parse state body k s).getLast?.any isMalformed = decide (stateAfter state k s = .inToolCalls) := by
  induction s generalizing state body k with
  | nil => cases state <;> rfl
  | cons c s ih =>
    cases k with
    | succ k => rw [split_succ, stateAfter, ih]
    | zero =>
      rw [split_zero, stateAfter]
      cases state.marker? (c :: s) with
      | none =>
        dsimp only
        rw [last_append, ih]
        cases state <;> simp [ofChar, isMalformed]
      | some m =>
        dsimp only
        rw [last_append, ih]
        cases state <;> simp [completed, isMalformed]

end Split

namespace StreamParser
variable {Call : Type} {parse : List Char → List Call} {p : StreamParser}

/-- No marker of the parser's state lies in its buffer. -/
def Settled (p : StreamParser) : Prop := ∀ m ∈ p.state.markers, Absent m.1 p.buf

/-- One step, whatever follows the buffer: the events so far and the rest's split merge to
the split; a step that stops has found no marker. -/
structure Stepped (parse : List Char → List Call) (p : StreamParser)
    (out : StreamParser × List (StreamEvent Call) × Bool) : Prop where
  ran : ∀ t, merge (dsmlSplit parse p.state [] 0 (p.buf ++ t)) =
    merge (out.2.1 ++ dsmlSplit parse out.1.state [] 0 (out.1.buf ++ t))
  holdback : out.1.normalHoldback = p.normalHoldback
  more : out.2.2 = true → out.1.buf.length < p.buf.length
  done : out.2.2 = false → out.1 = p ∧ Settled p

/-- The event constructor of a state's text. -/
def textEvent : StreamState → List Char → StreamEvent Call
  | .inThink, text => .reasoning text
  | _, text => .token text

@[simp] theorem textEvent_normal : (textEvent .normal : List Char → StreamEvent Call) = .token := rfl

@[simp] theorem textEvent_inThink : (textEvent .inThink : List Char → StreamEvent Call) = .reasoning := rfl

private theorem ofText_eq_nonempty {state : StreamState} (hstate : state ≠ .inToolCalls) (text : List Char) :
    ofText state text = (nonempty (textEvent state) text : List (StreamEvent Call)) := by
  cases state <;> cases text <;> first | rfl | exact absurd rfl hstate

/-- A marker found first, with no marker of the state before it. -/
private theorem stepped_cut {m : List Char × StreamState} {i : ℕ} (hstate : p.state ≠ .inToolCalls)
    (hm : m ∈ p.state.markers) (hfound : m.1 <+: p.buf.drop i) (hfit : i + m.1.length ≤ p.buf.length)
    (hfirst : ∀ m' ∈ p.state.markers, ∀ j < i, ¬ m'.1 <+: p.buf.drop j) :
    Stepped parse p (p.cut (textEvent p.state) i m.1.length m.2) := by
  have hpos := StreamState.markers_pos hm
  refine ⟨fun t => ?_, rfl, fun _ => ?_, fun h => by cases h⟩
  · have hclear : Clear p.state i (p.buf ++ t) := fun j hj m' hm' =>
      not_prefix_before hfound hj (by omega) (hfirst m' hm' j hj)
        fun hin => congrArg Prod.fst (StreamState.markers_nest hm hm' hin)
    have hstart : m.1 <+: p.buf.drop i ++ t := hfound.trans (List.prefix_append _ _)
    rw [split_text _ _ (by rw [List.length_append]; omega) hclear,
      List.take_append_of_le_length (by omega), List.drop_append_of_le_length (by omega), merge_ofText,
      ofText_eq_nonempty hstate, split_marker _ _ hm hstart, List.drop_append_of_le_length hfound.length_le,
      List.drop_drop]
    simp only [cut]
    cases hcase : p.state with
    | inToolCalls => exact absurd hcase hstate
    | normal => rfl
    | inThink => rfl
  · simp only [cut, List.length_drop]
    omega

/-- No marker in the buffer: what no marker can reach goes out. -/
private theorem stepped_holdBack {holdback : ℕ} (hstate : p.state ≠ .inToolCalls) (hsettled : Settled p)
    (hlong : ∀ m ∈ p.state.markers, String.utf8Len m.1 ≤ holdback) :
    Stepped parse p (p.holdBack (textEvent p.state) holdback) := by
  rw [holdBack]
  split
  · rename_i hn
    set n := emitLen p.buf holdback with hdef
    have hle : n ≤ p.buf.length := by
      rw [hdef, emitLen]
      split
      · exact utf8SafeSplit_le_length _ _
      · exact Nat.zero_le _
    have hrest : holdback ≤ String.utf8Len (p.buf.drop n) := by
      have hcut : String.utf8Len p.buf = String.utf8Len (p.buf.take n) + String.utf8Len (p.buf.drop n) := by
        rw [← String.utf8Len_append, List.take_append_drop]
      rw [hdef, emitLen] at hn hcut ⊢
      split at hn
      · rename_i hlt
        rw [if_pos hlt] at hcut ⊢
        have := utf8Len_take_safeSplit p.buf (String.utf8Len p.buf - holdback)
        omega
      · omega
    refine ⟨fun t => ?_, rfl, fun _ => ?_, fun h => by cases h⟩
    · have hclear : Clear p.state n (p.buf ++ t) := by
        intro i hi m hm hocc
        rcases occurs_or_overhangs (by omega) hocc with hin | hover
        · exact hsettled m hm i hin
        · have hbytes := String.utf8Len_le_of_prefix hover
          have hmore := utf8Len_drop_lt hi hle
          have := hlong m hm
          omega
      rw [split_text _ _ (by rw [List.length_append]; omega) hclear, List.take_append_of_le_length hle,
        List.drop_append_of_le_length hle, merge_ofText, ofText_eq_nonempty hstate,
        split_body_irrel _ _ hstate [], nonempty, if_neg]
      rw [← List.length_eq_zero_iff, List.length_take_of_le hle]
      omega
    · rw [List.length_drop]
      omega
  · exact ⟨fun t => rfl, rfl, fun h => (by cases h), fun _ => ⟨rfl, hsettled⟩⟩

/-- The two searches of a state with two markers: the earlier one is cut, or none occurs. -/
private theorem stepped_two {holdback : ℕ} {m₁ m₂ : List Char × StreamState} (hstate : p.state ≠ .inToolCalls)
    (hmarkers : p.state.markers = [m₁, m₂]) (hlong : ∀ m ∈ p.state.markers, String.utf8Len m.1 ≤ holdback) :
    Stepped parse p (match memmem p.buf m₁.1, memmem p.buf m₂.1 with
      | none, none => p.holdBack (textEvent p.state) holdback
      | some a, none => p.cut (textEvent p.state) a m₁.1.length m₁.2
      | none, some b => p.cut (textEvent p.state) b m₂.1.length m₂.2
      | some a, some b =>
        if a ≤ b then p.cut (textEvent p.state) a m₁.1.length m₁.2
        else p.cut (textEvent p.state) b m₂.1.length m₂.2) := by
  have hm₁ : m₁ ∈ p.state.markers := by simp [hmarkers]
  have hm₂ : m₂ ∈ p.state.markers := by simp [hmarkers]
  have hne₁ := List.length_pos_iff.1 (StreamState.markers_pos hm₁)
  have hne₂ := List.length_pos_iff.1 (StreamState.markers_pos hm₂)
  have hboth : ∀ {P : List Char × StreamState → Prop}, P m₁ → P m₂ → ∀ m ∈ p.state.markers, P m := by
    intro P h₁ h₂ m hm
    rw [hmarkers, List.mem_cons, List.mem_singleton] at hm
    rcases hm with rfl | rfl
    · exact h₁
    · exact h₂
  cases h₁ : memmem p.buf m₁.1 with
  | none =>
    have habsent₁ := memmem_none h₁
    cases h₂ : memmem p.buf m₂.1 with
    | none => exact stepped_holdBack hstate (hboth habsent₁ (memmem_none h₂)) hlong
    | some b =>
      obtain ⟨hfound, hfit, hfirst⟩ := memmem_some hne₂ h₂
      exact stepped_cut hstate hm₂ hfound hfit (hboth (fun j _ => habsent₁ j) hfirst)
  | some a =>
    obtain ⟨hfound₁, hfit₁, hfirst₁⟩ := memmem_some hne₁ h₁
    cases h₂ : memmem p.buf m₂.1 with
    | none =>
      have habsent₂ := memmem_none h₂
      exact stepped_cut hstate hm₁ hfound₁ hfit₁ (hboth hfirst₁ fun j _ => habsent₂ j)
    | some b =>
      obtain ⟨hfound₂, hfit₂, hfirst₂⟩ := memmem_some hne₂ h₂
      dsimp only
      split
      · rename_i hab
        exact stepped_cut hstate hm₁ hfound₁ hfit₁ (hboth hfirst₁ fun j hj => hfirst₂ j (by omega))
      · rename_i hab
        exact stepped_cut hstate hm₂ hfound₂ hfit₂ (hboth (fun j hj => hfirst₁ j (by omega)) hfirst₂)

/-- A step inside a block: the search for its one marker. -/
private theorem stepped_block {close : List Char} (hstate : p.state = .inToolCalls)
    (hmarkers : StreamState.markers .inToolCalls = [(close, .normal)]) :
    Stepped parse p (match memmem p.buf close with
      | some i =>
        ({ p with state := .normal, buf := p.buf.drop (i + close.length) },
          [.toolCalls (parse (p.buf.take i))], true)
      | none => (p, [], false)) := by
  have hm : (close, StreamState.normal) ∈ StreamState.markers .inToolCalls := by simp [hmarkers]
  have hpos : 0 < close.length := StreamState.markers_pos hm
  have honly : ∀ m ∈ StreamState.markers .inToolCalls, m = (close, .normal) := by simp [hmarkers]
  cases hfind : memmem p.buf close with
  | none =>
    refine ⟨fun t => rfl, rfl, fun h => (by cases h), fun _ => ⟨rfl, fun m hmem => ?_⟩⟩
    rw [honly m (hstate ▸ hmem)]
    exact memmem_none hfind
  | some i =>
    obtain ⟨hfound, hfit, hfirst⟩ := memmem_some (List.length_pos_iff.1 hpos) hfind
    refine ⟨fun t => ?_, rfl, fun _ => ?_, fun h => (by cases h)⟩
    · have hclear : Clear .inToolCalls i (p.buf ++ t) := by
        intro j hj m hmem
        rw [honly m hmem]
        exact not_prefix_before hfound hj (by omega) (hfirst j hj) fun _ => rfl
      have hstart : close <+: p.buf.drop i ++ t := hfound.trans (List.prefix_append _ _)
      have hsplit := split_marker parse (p.buf.take i) hm hstart
      have hnone : (p.buf.take i).flatMap (ofChar .inToolCalls) = ([] : List (StreamEvent Call)) := by
        simp [List.flatMap_eq_nil_iff, ofChar]
      rw [hstate, split_text _ _ (by rw [List.length_append]; omega) hclear,
        List.take_append_of_le_length (by omega), List.drop_append_of_le_length (by omega), List.nil_append,
        hsplit, hnone, List.drop_append_of_le_length hfound.length_le, List.drop_drop]
      rfl
    · rw [List.length_drop]
      omega

/-- A parser made by one of the constructors keeps their hold-back. -/
def Held (p : StreamParser) : Prop := p.normalHoldback = new.normalHoldback

theorem stepped (parse : List Char → List Call) (h : Held p) : Stepped parse p (p.step parse) := by
  obtain ⟨state, buf, normalHoldback⟩ := p
  cases state with
  | normal =>
    have hlong : ∀ m ∈ StreamState.markers .normal, String.utf8Len m.1 ≤ normalHoldback := by
      rw [show normalHoldback = new.normalHoldback from h]
      decide
    exact stepped_two (p := ⟨.normal, buf, normalHoldback⟩) (by simp) rfl hlong
  | inThink =>
    have hlong : ∀ m ∈ StreamState.markers .inThink, String.utf8Len m.1 ≤
        max (String.utf8Len thinkClose) (String.utf8Len toolCallsOpen) := by
      decide
    exact stepped_two (p := ⟨.inThink, buf, normalHoldback⟩) (by simp) rfl hlong
  | inToolCalls => exact stepped_block rfl rfl

/-- The rounds of one feed suffice: it ends with no marker in the buffer. -/
private theorem feedLoop_spec (parse : List Char → List Call) {rounds : ℕ} (hrounds : p.buf.length < rounds)
    (events : List (StreamEvent Call)) (h : Held p) :
    ∃ p' more, feedLoop parse rounds p events = (p', events ++ more) ∧ Held p' ∧ Settled p' ∧
      ∀ t, merge (dsmlSplit parse p.state [] 0 (p.buf ++ t)) =
        merge (more ++ dsmlSplit parse p'.state [] 0 (p'.buf ++ t)) := by
  induction rounds generalizing p events with
  | zero => omega
  | succ rounds ih =>
    have hstepped := stepped parse h
    rw [feedLoop]
    rcases hstep : p.step parse with ⟨p', more, goesOn⟩
    rw [hstep] at hstepped
    cases goesOn with
    | true =>
      have hshorter := hstepped.more rfl
      obtain ⟨p'', more', hloop, hheld, hsettled, hran⟩ :=
        ih (Nat.lt_of_lt_of_le hshorter (Nat.le_of_lt_succ hrounds)) (events ++ more) (hstepped.holdback.trans h)
      refine ⟨p'', more ++ more', ?_, hheld, hsettled, fun t => ?_⟩
      · dsimp only at hloop ⊢
        rw [hloop, List.append_assoc]
      rw [hstepped.ran, merge_congr (hran t), List.append_assoc]
    | false =>
      obtain ⟨hsame, hsettled⟩ := hstepped.done rfl
      dsimp only at hsame
      subst hsame
      exact ⟨p', more, rfl, h, hsettled, hstepped.ran⟩

private theorem feed_spec (parse : List Char → List Call) (h : Held p) (chunk : List Char) :
    Held (p.feed parse chunk).1 ∧ Settled (p.feed parse chunk).1 ∧
      ∀ t, merge (dsmlSplit parse p.state [] 0 (p.buf ++ chunk ++ t)) =
        merge ((p.feed parse chunk).2 ++
          dsmlSplit parse (p.feed parse chunk).1.state [] 0 ((p.feed parse chunk).1.buf ++ t)) := by
  obtain ⟨p', more, hloop, hheld, hsettled, hran⟩ :=
    feedLoop_spec parse (p := { p with buf := p.buf ++ chunk }) (Nat.lt_succ_self _) [] h
  rw [List.nil_append] at hloop
  rw [feed, hloop]
  exact ⟨hheld, hsettled, hran⟩

/-- What finishing yields when no marker is left in the buffer. -/
private theorem finish_spec (parse : List Char → List Call) (h : Settled p) :
    merge (dsmlSplit parse p.state [] 0 p.buf) = merge p.finish := by
  have hclear : Clear p.state p.buf.length p.buf := fun i _ m hm => h m hm i
  have htext := split_text parse [] (Nat.le_refl _) hclear
  rw [List.take_length, List.drop_length] at htext
  rw [htext, merge_ofText]
  obtain ⟨state, buf, normalHoldback⟩ := p
  cases state with
  | normal => rw [ofText_eq_nonempty (by simp)]; simp [finish, dsmlSplit]
  | inThink =>
    have hnone : memmem buf thinkClose = none := by
      cases hfind : memmem buf thinkClose with
      | none => rfl
      | some i => exact absurd (memmem_some (by decide) hfind).1 (h (thinkClose, .normal) (by simp [StreamState.markers]) i)
    rw [ofText_eq_nonempty (by simp)]
    simp [finish, dsmlSplit, hnone]
  | inToolCalls => cases buf <;> rfl

private theorem run_spec (parse : List Char → List Call) (chunks : List (List Char)) :
    ∀ {p : StreamParser}, Held p → Settled p →
      merge (p.run parse chunks) = merge (dsmlSplit parse p.state [] 0 (p.buf ++ chunks.flatten)) := by
  induction chunks with
  | nil =>
    intro p _ hsettled
    rw [run, List.flatten_nil, List.append_nil, finish_spec parse hsettled]
  | cons chunk chunks ih =>
    intro p hheld _
    obtain ⟨hheld', hsettled', hran⟩ := feed_spec parse hheld chunk
    rw [run, merge_congr (ih hheld' hsettled'), ← hran, List.flatten_cons, List.append_assoc]

/-- A parser outside or inside a think block. -/
def start (inThink : Bool) : StreamParser := if inThink then newInThink else new

private theorem settled_nil (hbuf : p.buf = []) : Settled p := by
  intro m hm i hocc
  rw [hbuf, List.drop_nil, List.prefix_nil] at hocc
  exact List.length_pos_iff.1 (StreamState.markers_pos hm) hocc

theorem run_start (parse : List Char → List Call) (inThink : Bool) (chunks : List (List Char)) :
    merge ((start inThink).run parse chunks) = merge (dsmlSplit parse (start inThink).state [] 0 chunks.flatten) := by
  cases inThink <;> exact run_spec parse chunks rfl (settled_nil rfl)

/-- However a text is cut into chunks, the merged events are those of one feed and of the split
of the text at its markers; they end in an error exactly when a block is left open, and no
character of a block is ever visible. -/
theorem run_eq_split (parse : List Char → List Call) (inThink : Bool) (chunks : List (List Char)) :
    merge ((start inThink).run parse chunks) = merge ((start inThink).run parse [chunks.flatten]) ∧
      merge ((start inThink).run parse chunks) =
        merge (dsmlSplit parse (start inThink).state [] 0 chunks.flatten) ∧
      (((start inThink).run parse chunks).getLast?.any isMalformed = true ↔
        stateAfter (start inThink).state 0 chunks.flatten = .inToolCalls) ∧
      spoken ((start inThink).run parse chunks) = outside (start inThink).state 0 chunks.flatten := by
  have hall := run_start parse inThink chunks
  refine ⟨?_, hall, ?_, ?_⟩
  · rw [hall, run_start, List.flatten_cons, List.flatten_nil, List.append_nil]
  · rw [← merge_last, hall, merge_last, last_split, decide_eq_true_eq]
  · rw [← spoken_merge, hall, spoken_merge, spoken_split]

end StreamParser
end Hipscope.Dsml
