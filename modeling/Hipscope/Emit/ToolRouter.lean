import Hipscope.Text.Kmp

/-! The router that separates prose from tool calls, one pass over the text as it arrives. -/
namespace Hipscope.Emit
open Text

/-- The bytes of `<tool_call>`. -/
def toolCallOpen : List UInt8 := [0x3c, 0x74, 0x6f, 0x6f, 0x6c, 0x5f, 0x63, 0x61, 0x6c, 0x6c, 0x3e]

/-- The bytes of `</tool_call>`. -/
def toolCallClose : List UInt8 := [0x3c, 0x2f, 0x74, 0x6f, 0x6f, 0x6c, 0x5f, 0x63, 0x61, 0x6c, 0x6c, 0x3e]

def openFail : List ℕ := kmpFail toolCallOpen

def closeFail : List ℕ := kmpFail toolCallClose

inductive ToolRouteError where
  | malformedToolProtocol (detail : String)
  deriving DecidableEq, Repr

inductive ToolRouteEvent (Call : Type) where
  | visibleText (text : List UInt8)
  | toolCall (call : Call)
  deriving DecidableEq, Repr

inductive RouteState where
  | normal
  | inToolCall
  deriving DecidableEq, Repr

/-- Which delimiter completed on the latest byte. -/
inductive DelimHit where
  | opener
  | closer
  deriving DecidableEq, Repr

def DelimHit.bytes : DelimHit → List UInt8
  | .opener => toolCallOpen
  | .closer => toolCallClose

def DelimHit.len (hit : DelimHit) : ℕ := hit.bytes.length

/-- How much of each delimiter the bytes read so far end with. -/
structure DelimCursor where
  opener : ℕ
  closer : ℕ
  deriving DecidableEq, Repr

namespace DelimCursor

def new : DelimCursor := ⟨0, 0⟩

def holdLen (c : DelimCursor) : ℕ := max c.opener c.closer

def feed (c : DelimCursor) (b : UInt8) : DelimCursor × Option DelimHit :=
  let next : DelimCursor :=
    ⟨advanceKmp toolCallOpen openFail b (c.opener + 1) c.opener,
      advanceKmp toolCallClose closeFail b (c.closer + 1) c.closer⟩
  if next.closer = toolCallClose.length then (new, some .closer)
  else if next.opener = toolCallOpen.length then (new, some .opener)
  else (next, none)

/-- Feed bytes until a delimiter completes; how many were fed is counted on from `seen`. -/
def catchUp (c : DelimCursor) (seen : ℕ) : List UInt8 → DelimCursor × ℕ × Option DelimHit
  | [] => (c, seen, none)
  | b :: bytes =>
    match c.feed b with
    | (c, some hit) => (c, seen + 1, some hit)
    | (c, none) => catchUp c (seen + 1) bytes

end DelimCursor

/-- Largest index up to `k` that does not split a code point. -/
def utf8SplitFrom (bytes : List UInt8) : ℕ → ℕ
  | 0 => 0
  | k + 1 =>
    if bytes[k + 1]?.any fun b => b &&& 0xc0 == 0x80 then utf8SplitFrom bytes k else k + 1

def utf8SafeSplit (bytes : List UInt8) (n : ℕ) : ℕ := utf8SplitFrom bytes (min n bytes.length)

structure ToolOutputRouter (Call : Type) where
  state : RouteState
  buf : List UInt8
  cursor : DelimCursor
  seen : ℕ
  completed : List Call
  malformed : Option ToolRouteError

namespace ToolOutputRouter
variable {Call : Type}

def new : ToolOutputRouter Call := ⟨.normal, [], .new, 0, [], none⟩

def latchMalformed (r : ToolOutputRouter Call) (detail : String) : ToolOutputRouter Call :=
  { r with malformed := some (.malformedToolProtocol detail) }

/-- Feed the unread bytes of the buffer; a hit comes with its place there. -/
def catchUpDelim (r : ToolOutputRouter Call) : ToolOutputRouter Call × Option (DelimHit × ℕ × ℕ) :=
  let out := r.cursor.catchUp r.seen (r.buf.drop r.seen)
  ({ r with cursor := out.1, seen := out.2.1 }, out.2.2.map fun hit => (hit, out.2.1 - hit.len, out.2.1))

/-- Drop a decided delimiter with all before it. -/
def consumeThrough (r : ToolOutputRouter Call) (stop : ℕ) : ToolOutputRouter Call :=
  { r with buf := r.buf.drop stop, seen := 0, cursor := .new }

/-- Prose as an event, unless there is none. -/
def visible (text : List UInt8) : List (ToolRouteEvent Call) :=
  if text = [] then [] else [.visibleText text]

/-- One step outside a call: the router, the new events, and whether there is more to do. -/
def stepNormal (r : ToolOutputRouter Call) :
    ToolOutputRouter Call × List (ToolRouteEvent Call) × Bool :=
  match r.catchUpDelim with
  | (r, none) =>
    if r.cursor.holdLen < r.buf.length then
      let emitLen := utf8SafeSplit r.buf (r.buf.length - r.cursor.holdLen)
      if 0 < emitLen then
        ({ r with buf := r.buf.drop emitLen, seen := r.seen - emitLen }, visible (r.buf.take emitLen), true)
      else (r, [], false)
    else (r, [], false)
  | (r, some (.closer, start, stop)) =>
    ((r.consumeThrough stop).latchMalformed "stray </tool_call> without open span",
      visible (r.buf.take start), false)
  | (r, some (.opener, start, stop)) =>
    ({ r.consumeThrough stop with state := .inToolCall }, visible (r.buf.take start), true)

variable (parse : List UInt8 → Option Call)

/-- One step inside a call, whose body is parsed when it closes. -/
def stepInToolCall (r : ToolOutputRouter Call) :
    ToolOutputRouter Call × List (ToolRouteEvent Call) × Bool :=
  match r.catchUpDelim with
  | (r, none) => (r, [], false)
  | (r, some (.opener, _, _)) =>
    (r.latchMalformed "nested <tool_call> opener inside an open tool-call span", [], false)
  | (r, some (.closer, start, stop)) =>
    let body := r.buf.take start
    let r := { r.consumeThrough stop with state := .normal }
    match parse body with
    | some call => ({ r with completed := r.completed ++ [call] }, [.toolCall call], true)
    | none =>
      (r.latchMalformed "tool_call body is empty, truncated, or not fully valid JSON/Qwen XML", [], false)

def step (r : ToolOutputRouter Call) : ToolOutputRouter Call × List (ToolRouteEvent Call) × Bool :=
  match r.state with
  | .normal => r.stepNormal
  | .inToolCall => r.stepInToolCall parse

/-- Go as far as the buffer allows; every round that goes on shortens the buffer. -/
def drainLoop : ℕ → ToolOutputRouter Call → List (ToolRouteEvent Call) →
    ToolOutputRouter Call × List (ToolRouteEvent Call)
  | 0, r, events => (r, events)
  | rounds + 1, r, events =>
    if r.malformed.isSome then (r, events)
    else
      match r.step parse with
      | (r, more, true) => drainLoop rounds r (events ++ more)
      | (r, more, false) => (r, events ++ more)

/-- Events come before an error that was found after them. -/
def drain (r : ToolOutputRouter Call) :
    ToolOutputRouter Call × Except ToolRouteError (List (ToolRouteEvent Call)) :=
  let out := drainLoop parse (r.buf.length + 1) r []
  (out.1, match out.1.malformed with
    | some err => if out.2 = [] then .error err else .ok out.2
    | none => .ok out.2)

def push (r : ToolOutputRouter Call) (chunk : List UInt8) :
    ToolOutputRouter Call × Except ToolRouteError (List (ToolRouteEvent Call)) :=
  match r.malformed with
  | some err => (r, .error err)
  | none => if chunk = [] then (r, .ok []) else { r with buf := r.buf ++ chunk }.drain parse

def finish (r : ToolOutputRouter Call) : Except ToolRouteError (List (ToolRouteEvent Call)) :=
  match r.malformed with
  | some err => .error err
  | none =>
    match r.drain parse with
    | (_, .error err) => .error err
    | (r, .ok events) =>
      match r.state with
      | .normal => .ok (events ++ visible r.buf)
      | .inToolCall => .error (.malformedToolProtocol "unclosed <tool_call> span at end of output")

end ToolOutputRouter
end Hipscope.Emit

/-! The split of a whole text at its tool-call delimiters. -/
namespace Hipscope.Emit
open Text

/-- Everything a consumer learns: prose, calls in order, and the error that ended the text. -/
structure Routed (Call : Type) where
  text : List UInt8
  calls : List Call
  error : Option ToolRouteError
  deriving DecidableEq

namespace Routed
variable {Call : Type}

def prepend (text : List UInt8) (calls : List Call) (r : Routed Call) : Routed Call :=
  { r with text := text ++ r.text, calls := calls ++ r.calls }

theorem prepend_prepend (a b : List UInt8) (x y : List Call) (r : Routed Call) :
    (r.prepend b y).prepend a x = r.prepend (a ++ b) (x ++ y) := by
  simp [prepend]

def failed (detail : String) : Routed Call := ⟨[], [], some (.malformedToolProtocol detail)⟩

end Routed

section Split
variable {Call : Type} (parse : List UInt8 → Option Call)

/-- Outside a call prose up to the next delimiter, which must open a call; inside one a body
up to the next delimiter, which must close it. `skip` counts the bytes left of a delimiter. -/
def toolSplit : RouteState → List UInt8 → ℕ → List UInt8 → Routed Call
  | .normal, _, _, [] => ⟨[], [], none⟩
  | .inToolCall, _, _, [] => .failed "unclosed <tool_call> span at end of output"
  | state, body, skip + 1, _ :: s => toolSplit state body skip s
  | .normal, body, 0, b :: s =>
    if toolCallClose.isPrefixOf (b :: s) then .failed "stray </tool_call> without open span"
    else if toolCallOpen.isPrefixOf (b :: s) then toolSplit .inToolCall [] (toolCallOpen.length - 1) s
    else (toolSplit .normal body 0 s).prepend [b] []
  | .inToolCall, body, 0, b :: s =>
    if toolCallOpen.isPrefixOf (b :: s) then
      .failed "nested <tool_call> opener inside an open tool-call span"
    else if toolCallClose.isPrefixOf (b :: s) then
      match parse body with
      | some call => (toolSplit .normal [] (toolCallClose.length - 1) s).prepend [] [call]
      | none => .failed "tool_call body is empty, truncated, or not fully valid JSON/Qwen XML"
    else toolSplit .inToolCall (body ++ [b]) 0 s

/-- The split of a text that begins outside a call. -/
def toolReference (text : List UInt8) : Routed Call := toolSplit parse .normal [] 0 text

variable {parse} {state : RouteState} {body s : List UInt8} {k : ℕ}

private theorem split_skip : toolSplit parse state body k s = toolSplit parse state body 0 (s.drop k) := by
  induction k generalizing s with
  | zero => rfl
  | succ k ih =>
    cases s with
    | nil => cases state <;> rw [List.drop_nil, toolSplit, toolSplit]
    | cons b s => cases state <;> rw [toolSplit, ih, List.drop_succ_cons]

/-- Neither delimiter begins in the first `k` bytes. -/
def Clear (k : ℕ) (s : List UInt8) : Prop := ∀ i < k, ∀ hit : DelimHit, ¬ hit.bytes <+: s.drop i

private theorem Clear.head {b : UInt8} (h : Clear (k + 1) (b :: s)) (hit : DelimHit) :
    ¬ hit.bytes.isPrefixOf (b :: s) := by
  rw [List.isPrefixOf_iff_prefix]
  exact h 0 (Nat.succ_pos k) hit

private theorem Clear.tail {b : UInt8} (h : Clear (k + 1) (b :: s)) : Clear k s := by
  intro i hi hit
  simpa using h (i + 1) (Nat.succ_lt_succ hi) hit

theorem split_prose (hk : k ≤ s.length) (h : Clear k s) :
    toolSplit parse .normal body 0 s = (toolSplit parse .normal body 0 (s.drop k)).prepend (s.take k) [] := by
  induction k generalizing s with
  | zero => simp [Routed.prepend]
  | succ k ih =>
    cases s with
    | nil => simp at hk
    | cons b s =>
      have hclose : ¬ toolCallClose.isPrefixOf (b :: s) := h.head .closer
      have hopen : ¬ toolCallOpen.isPrefixOf (b :: s) := h.head .opener
      rw [toolSplit, if_neg hclose, if_neg hopen, ih (Nat.le_of_succ_le_succ hk) h.tail,
        Routed.prepend_prepend]
      rfl

theorem split_body (hk : k ≤ s.length) (h : Clear k s) :
    toolSplit parse .inToolCall body 0 s = toolSplit parse .inToolCall (body ++ s.take k) 0 (s.drop k) := by
  induction k generalizing s body with
  | zero => simp
  | succ k ih =>
    cases s with
    | nil => simp at hk
    | cons b s =>
      have hopen : ¬ toolCallOpen.isPrefixOf (b :: s) := h.head .opener
      have hclose : ¬ toolCallClose.isPrefixOf (b :: s) := h.head .closer
      rw [toolSplit, if_neg hopen, if_neg hclose, ih (Nat.le_of_succ_le_succ hk) h.tail,
        List.append_assoc]
      rfl

/-- The delimiters do not nest. -/
theorem hit_of_occurs {hit hit' : DelimHit} (h : hit.bytes <:+: hit'.bytes) : hit = hit' := by
  revert h
  cases hit <;> cases hit' <;> decide

private theorem hit_of_starts {hit hit' : DelimHit} (h : hit.bytes <+: s) (h' : hit'.bytes <+: s) : hit = hit' := by
  rcases occurs_of_starts h h' with hin | hin
  · exact hit_of_occurs hin
  · exact (hit_of_occurs hin).symm

private theorem not_starts {a b : DelimHit} (h : a.bytes <+: s) (hne : b ≠ a) :
    ¬ b.bytes.isPrefixOf s := by
  rw [List.isPrefixOf_iff_prefix]
  exact fun h' => hne (hit_of_starts h' h)

theorem split_stray (h : toolCallClose <+: s) :
    toolSplit parse .normal body 0 s = .failed "stray </tool_call> without open span" := by
  cases s with
  | nil => exact absurd h.length_le (by decide)
  | cons b s => rw [toolSplit, if_pos (List.isPrefixOf_iff_prefix.mpr h)]

theorem split_open (h : toolCallOpen <+: s) :
    toolSplit parse .normal body 0 s = toolSplit parse .inToolCall [] 0 (s.drop toolCallOpen.length) := by
  cases s with
  | nil => exact absurd h.length_le (by decide)
  | cons b s =>
    have hclose : ¬ toolCallClose.isPrefixOf (b :: s) :=
      not_starts (a := .opener) (b := .closer) h (by decide)
    rw [toolSplit, if_neg hclose, if_pos (List.isPrefixOf_iff_prefix.mpr h), split_skip]
    rfl

theorem split_nested (h : toolCallOpen <+: s) :
    toolSplit parse .inToolCall body 0 s = .failed "nested <tool_call> opener inside an open tool-call span" := by
  cases s with
  | nil => exact absurd h.length_le (by decide)
  | cons b s => rw [toolSplit, if_pos (List.isPrefixOf_iff_prefix.mpr h)]

theorem split_close (h : toolCallClose <+: s) :
    toolSplit parse .inToolCall body 0 s =
      match parse body with
      | some call => (toolSplit parse .normal [] 0 (s.drop toolCallClose.length)).prepend [] [call]
      | none => .failed "tool_call body is empty, truncated, or not fully valid JSON/Qwen XML" := by
  cases s with
  | nil => exact absurd h.length_le (by decide)
  | cons b s =>
    have hopen : ¬ toolCallOpen.isPrefixOf (b :: s) :=
      not_starts (a := .closer) (b := .opener) h (by decide)
    rw [toolSplit, if_neg hopen, if_pos (List.isPrefixOf_iff_prefix.mpr h), split_skip]
    rfl

end Split
end Hipscope.Emit
