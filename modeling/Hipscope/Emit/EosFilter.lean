import Hipscope.Text.Search
import Mathlib.Data.List.Sort

/-! The output filter: holds back what may be the start of a marker, strips think
spans and stops at the first stop marker. -/
namespace Hipscope.Emit
open Text

/-- The length of the longest beginning that is well-formed UTF-8. -/
def utf8SafeEnd : List UInt8 → ℕ
  | [] => 0
  | a :: l =>
    if a < 0x80 then utf8SafeEnd l + 1
    else match l with
      | [] => 0
      | b :: l =>
        if 0xc2 ≤ a && a ≤ 0xdf && 0x80 ≤ b && b ≤ 0xbf then utf8SafeEnd l + 2
        else match l with
          | [] => 0
          | c :: l =>
            if (a == 0xe0 && 0xa0 ≤ b && b ≤ 0xbf ||
                (0xe1 ≤ a && a ≤ 0xec || a == 0xee || a == 0xef) && 0x80 ≤ b && b ≤ 0xbf ||
                a == 0xed && 0x80 ≤ b && b ≤ 0x9f) && 0x80 ≤ c && c ≤ 0xbf then utf8SafeEnd l + 3
            else match l with
              | [] => 0
              | d :: l =>
                if (a == 0xf0 && 0x90 ≤ b && b ≤ 0xbf ||
                    0xf1 ≤ a && a ≤ 0xf3 && 0x80 ≤ b && b ≤ 0xbf ||
                    a == 0xf4 && 0x80 ≤ b && b ≤ 0x8f) &&
                    0x80 ≤ c && c ≤ 0xbf && 0x80 ≤ d && d ≤ 0xbf then utf8SafeEnd l + 4
                else 0

inductive FilterAction where
  | emit (bytes : List UInt8)
  | hold
  | stop
  | emitAndStop (bytes : List UInt8)
  deriving DecidableEq, Repr

structure EosFilterConfig where
  stripThink : Bool
  startedInThink : Bool
  stopAt : List (List UInt8)
  holdbackPrefixes : List (List UInt8)
  deriving DecidableEq

structure EosFilterState where
  raw : List UInt8
  cursor : ℕ
  visible : List UInt8
  visibleEmitted : ℕ
  inThink : Bool
  stopped : Bool
  deriving DecidableEq

structure EosFilter where
  config : EosFilterConfig
  state : EosFilterState
  deriving DecidableEq

/-- The bytes of `<think>`. -/
def thinkOpen : List UInt8 := [0x3c, 0x74, 0x68, 0x69, 0x6e, 0x6b, 0x3e]

/-- The bytes of `</think>`. -/
def thinkClose : List UInt8 := [0x3c, 0x2f, 0x74, 0x68, 0x69, 0x6e, 0x6b, 0x3e]

inductive EventKind where
  | stop
  | thinkOpen
  | thinkClose
  deriving DecidableEq

structure Event where
  start : ℕ
  kind : EventKind
  len : ℕ
  deriving DecidableEq

/-- The earlier event; at one place the longer one, and a stop before a think marker. -/
def Event.earlier (best : Option Event) (cand : Event) : Option Event :=
  match best with
  | none => some cand
  | some b =>
    if cand.start < b.start then some cand
    else if cand.start = b.start && b.len < cand.len then some cand
    else if cand.start = b.start && cand.kind = .stop && b.kind ≠ .stop then some cand
    else some b

/-- The smallest `k` such that the bytes from `k` on are a beginning of the needle. -/
def trailingPrefixStart (bytes needle : List UInt8) : ℕ :=
  if needle = [] || bytes = [] then bytes.length
  else
    match (List.range' 1 (min (needle.length - 1) bytes.length)).reverse.find? fun k =>
        decide (bytes.drop (bytes.length - k) = needle.take k) with
    | some k => bytes.length - k
    | none => bytes.length

namespace EosFilterConfig

/-- What ends prose, with its kind: stop markers that are not empty, then the think tags. -/
def markers (c : EosFilterConfig) : List (EventKind × List UInt8) :=
  ((c.stopAt.filter fun needle => needle ≠ []).map fun needle => (.stop, needle)) ++
    if c.stripThink then [(.thinkOpen, thinkOpen), (.thinkClose, thinkClose)] else []

/-- The first complete marker. -/
def earliest (c : EosFilterConfig) (rest : List UInt8) : Option Event :=
  c.markers.foldl (fun best marker =>
    match memmem rest marker.2 with
    | some start => Event.earlier best ⟨start, marker.1, marker.2.length⟩
    | none => best) none

/-- Every sequence whose beginning is held back at the end of the known bytes. -/
def watch (c : EosFilterConfig) : List (List UInt8) :=
  (c.holdbackPrefixes.filter fun p => p ≠ []) ++ (c.stopAt.filter fun s => s ≠ []) ++
    if c.stripThink then [thinkOpen, thinkClose] else []

/-- Look for a longer tail than the one already held. -/
def trimStep (rest : List UInt8) (maxTrim : ℕ) (p : List UInt8) : ℕ :=
  (((List.range' 1 (min (p.length - 1) rest.length)).reverse.takeWhile fun k => maxTrim < k).find? fun k =>
    decide (rest.drop (rest.length - k) = p.take k)).getD maxTrim

/-- How many leading bytes are prose, given that no marker is complete. -/
def holdbackTrimLen (c : EosFilterConfig) (rest : List UInt8) : ℕ :=
  if rest = [] then 0
  else utf8SafeEnd (rest.take (rest.length - c.watch.foldl (trimStep rest) 0))

end EosFilterConfig

namespace EosFilterState

/-- Largest end in `visible` that is safe to emit now. -/
def safeVisibleEnd (s : EosFilterState) : ℕ :=
  if s.visible.length ≤ s.visibleEmitted then s.visibleEmitted
  else utf8SafeEnd (s.visible.drop s.visibleEmitted) + s.visibleEmitted

/-- What an emission up to `stop` returns. -/
def visibleTo (s : EosFilterState) (stop : ℕ) : List UInt8 :=
  (s.visible.take stop).drop s.visibleEmitted

end EosFilterState

namespace EosFilter

def new (config : EosFilterConfig) : EosFilter where
  config := { config with
    holdbackPrefixes := config.holdbackPrefixes.insertionSort fun a b => b.length ≤ a.length
    stopAt := config.stopAt.insertionSort fun a b => b.length ≤ a.length }
  state := ⟨[], 0, [], 0, config.stripThink && config.startedInThink, false⟩

/-- Commit a stop: only what is safe of the visible bytes is returned. -/
def stopNow (s : EosFilterState) : EosFilterState × Option FilterAction :=
  let s := { s with stopped := true, raw := [], cursor := 0 }
  let stop := s.safeVisibleEnd
  ({ s with visibleEmitted := s.visible.length },
    some (if s.visibleEmitted < stop then .emitAndStop (s.visibleTo stop) else .stop))

/-- Classify the bytes from the cursor on; every round consumes a marker or returns. -/
def pump (config : EosFilterConfig) (atEos : Bool) :
    ℕ → EosFilterState → EosFilterState × Option FilterAction
  | 0, s => (s, none)
  | rounds + 1, s =>
    if s.raw.length ≤ s.cursor then (s, none)
    else
      let rest := s.raw.drop s.cursor
      if s.inThink then
        match memmem rest thinkClose with
        | some start =>
          pump config atEos rounds
            { s with cursor := s.cursor + start + thinkClose.length, inThink := false }
        | none =>
          let keepFrom := if atEos then rest.length else trailingPrefixStart rest thinkClose
          ({ s with cursor := s.cursor + keepFrom }, none)
      else match config.earliest rest with
        | none =>
          let take := if atEos then rest.length else config.holdbackTrimLen rest
          ({ s with visible := s.visible ++ rest.take take, cursor := s.cursor + take }, none)
        | some event =>
          let s := { s with
            visible := s.visible ++ rest.take event.start
            cursor := s.cursor + event.start + event.len }
          match event.kind with
          | .stop => stopNow s
          | .thinkOpen => pump config atEos rounds { s with inThink := true }
          | .thinkClose => pump config atEos rounds s

def observe (f : EosFilter) (rawBytes : List UInt8) : EosFilter × FilterAction :=
  if f.state.stopped then (f, .hold)
  else if rawBytes = [] && f.state.raw = [] && f.state.visible.length ≤ f.state.visibleEmitted then
    (f, .hold)
  else
    let s := { f.state with raw := f.state.raw ++ rawBytes }
    match pump f.config false (s.raw.length + 1) s with
    | (s, some action) => ({ f with state := s }, action)
    | (s, none) =>
      let stop := s.safeVisibleEnd
      if s.visibleEmitted < stop then
        ({ f with state := { s with visibleEmitted := stop } }, .emit (s.visibleTo stop))
      else ({ f with state := s }, .hold)

def flushPending (f : EosFilter) : EosFilter × List UInt8 :=
  if f.state.stopped then (f, [])
  else
    let s := (pump f.config true (f.state.raw.length + 1) f.state).1
    if s.inThink then ({ f with state := s }, [])
    else if s.visible.length ≤ s.visibleEmitted then ({ f with state := s }, [])
    else ({ f with state := { s with visibleEmitted := s.visible.length } }, s.visible.drop s.visibleEmitted)

/-- Feed the chunks until the filter stops; flush it if it never does. -/
def drive (f : EosFilter) : List (List UInt8) → List UInt8 × Bool
  | [] => (f.flushPending.2, false)
  | chunk :: rest =>
    match f.observe chunk with
    | (f, .emit bytes) => let others := drive f rest; (bytes ++ others.1, others.2)
    | (f, .hold) => drive f rest
    | (_, .stop) => ([], true)
    | (_, .emitAndStop bytes) => (bytes, true)

end EosFilter
end Hipscope.Emit
