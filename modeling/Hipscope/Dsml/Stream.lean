import Hipscope.Text.Chars
import Hipscope.Text.Search

/-! The incremental parser of the model's output: content, reasoning and tool-call
blocks, with markers that may arrive in pieces. -/
namespace Hipscope.Dsml
open Text

def toolCallsOpen : List Char :=
  ['<', '｜', 'D', 'S', 'M', 'L', '｜', 't', 'o', 'o', 'l', '_', 'c', 'a', 'l', 'l', 's', '>']

def toolCallsClose : List Char :=
  ['<', '/', '｜', 'D', 'S', 'M', 'L', '｜', 't', 'o', 'o', 'l', '_', 'c', 'a', 'l', 'l', 's', '>']

def thinkOpen : List Char := ['<', 't', 'h', 'i', 'n', 'k', '>']

def thinkClose : List Char := ['<', '/', 't', 'h', 'i', 'n', 'k', '>']

inductive StreamEvent (Call : Type) where
  | token (text : List Char)
  | reasoning (text : List Char)
  | toolCalls (calls : List Call)
  | malformed (detail : String)
  deriving DecidableEq, Repr

inductive StreamState where
  | normal
  | inThink
  | inToolCalls
  deriving DecidableEq, Repr

structure StreamParser where
  state : StreamState
  buf : List Char
  /-- Bytes held back while a marker may still be arriving. -/
  normalHoldback : ℕ
  deriving DecidableEq, Repr

namespace StreamParser

def new : StreamParser := ⟨.normal, [], max (String.utf8Len toolCallsOpen) (String.utf8Len thinkOpen)⟩

/-- A parser that begins inside a think block. -/
def newInThink : StreamParser := { new with state := .inThink }

variable {Call : Type} (parse : List Char → List Call)

/-- The characters that may go out while `holdback` bytes stay. -/
def emitLen (buf : List Char) (holdback : ℕ) : ℕ :=
  if holdback < String.utf8Len buf then utf8SafeSplit buf (String.utf8Len buf - holdback) else 0

/-- Text as an event, unless there is none. -/
def nonempty (event : List Char → StreamEvent Call) (text : List Char) : List (StreamEvent Call) :=
  if text = [] then [] else [event text]

/-- Emit what precedes a marker, drop the marker and go on in its state. -/
def cut (p : StreamParser) (event : List Char → StreamEvent Call) (at_ len : ℕ) (state : StreamState) :
    StreamParser × List (StreamEvent Call) × Bool :=
  ({ p with state := state, buf := p.buf.drop (at_ + len) }, nonempty event (p.buf.take at_), true)

/-- Emit what no marker can reach; `false` when all of it must wait. -/
def holdBack (p : StreamParser) (event : List Char → StreamEvent Call) (holdback : ℕ) :
    StreamParser × List (StreamEvent Call) × Bool :=
  let n := emitLen p.buf holdback
  if 0 < n then ({ p with buf := p.buf.drop n }, [event (p.buf.take n)], true) else (p, [], false)

def stepNormal (p : StreamParser) : StreamParser × List (StreamEvent Call) × Bool :=
  match memmem p.buf thinkOpen, memmem p.buf toolCallsOpen with
  | none, none => p.holdBack .token p.normalHoldback
  | some t, none => p.cut .token t thinkOpen.length .inThink
  | none, some t => p.cut .token t toolCallsOpen.length .inToolCalls
  | some a, some b =>
    if a ≤ b then p.cut .token a thinkOpen.length .inThink
    else p.cut .token b toolCallsOpen.length .inToolCalls

/-- A tool-call opener inside a think block closes it. -/
def stepInThink (p : StreamParser) : StreamParser × List (StreamEvent Call) × Bool :=
  match memmem p.buf thinkClose, memmem p.buf toolCallsOpen with
  | none, none => p.holdBack .reasoning (max (String.utf8Len thinkClose) (String.utf8Len toolCallsOpen))
  | some c, none => p.cut .reasoning c thinkClose.length .normal
  | none, some t => p.cut .reasoning t toolCallsOpen.length .inToolCalls
  | some c, some t =>
    if c ≤ t then p.cut .reasoning c thinkClose.length .normal
    else p.cut .reasoning t toolCallsOpen.length .inToolCalls

/-- A block is surfaced only when it is complete. -/
def stepInToolCalls (p : StreamParser) : StreamParser × List (StreamEvent Call) × Bool :=
  match memmem p.buf toolCallsClose with
  | some i =>
    ({ p with state := .normal, buf := p.buf.drop (i + toolCallsClose.length) },
      [.toolCalls (parse (p.buf.take i))], true)
  | none => (p, [], false)

def step (p : StreamParser) : StreamParser × List (StreamEvent Call) × Bool :=
  match p.state with
  | .normal => p.stepNormal
  | .inThink => p.stepInThink
  | .inToolCalls => p.stepInToolCalls parse

/-- Go as far as the buffer allows; every round that goes on shortens the buffer. -/
def feedLoop : ℕ → StreamParser → List (StreamEvent Call) → StreamParser × List (StreamEvent Call)
  | 0, p, events => (p, events)
  | rounds + 1, p, events =>
    match p.step parse with
    | (p, more, true) => feedLoop rounds p (events ++ more)
    | (p, more, false) => (p, events ++ more)

def feed (p : StreamParser) (chunk : List Char) : StreamParser × List (StreamEvent Call) :=
  let p := { p with buf := p.buf ++ chunk }
  feedLoop parse (p.buf.length + 1) p []

/-- The end of the output: an open think block is flushed, an open tool-call block is not. -/
def finish (p : StreamParser) : List (StreamEvent Call) :=
  match p.state with
  | .normal => nonempty .token p.buf
  | .inThink =>
    match memmem p.buf thinkClose with
    | some i =>
      nonempty .reasoning (p.buf.take i) ++ nonempty .token (p.buf.drop (i + thinkClose.length))
    | none => nonempty .reasoning p.buf
  | .inToolCalls => [.malformed "unclosed DSML tool_calls block at end of output"]

/-- Feed every chunk and finish. -/
def run (p : StreamParser) : List (List Char) → List (StreamEvent Call)
  | [] => p.finish
  | chunk :: chunks => (p.feed parse chunk).2 ++ run (p.feed parse chunk).1 chunks

end StreamParser
end Hipscope.Dsml
