import Hipscope.Hermes.Strict
import Hipscope.Text.Sieve

/-! When a delimiter shows in the prose that the router lets through. -/
namespace Hipscope.Emit
open Text

section Reads
variable {Call : Type} (parse : List UInt8 → Option Call)

/-- How a text is read outside of calls: a byte of prose, or a whole call whose body parses. -/
inductive Reads : List UInt8 → Option UInt8 → List UInt8 → Prop where
  | prose {b : UInt8} {s : List UInt8} (h : ∀ hit : DelimHit, ¬ hit.bytes <+: b :: s) : Reads (b :: s) (some b) s
  | call {body s : List UInt8} (hclear : Clear body.length (body ++ (toolCallClose ++ s)))
    (hparse : (parse body).isSome) : Reads (toolCallOpen ++ (body ++ (toolCallClose ++ s))) none s

end Reads

section Hits
variable {hit hit' : DelimHit} {s : List UInt8} {b : UInt8} {i j : ℕ}

private theorem clear_cons (hhead : ∀ hit : DelimHit, ¬ hit.bytes <+: b :: s) (h : Clear i s) : Clear (i + 1) (b :: s) := by
  intro j hj hit
  cases j with
  | zero => exact hhead hit
  | succ j => exact h j (Nat.lt_of_succ_lt_succ hj) hit

/-- The first delimiter of a text, or that it has none. -/
theorem first_hit (s : List UInt8) :
    Clear s.length s ∨ ∃ hit : DelimHit, ∃ i, i ≤ s.length ∧ hit.bytes <+: s.drop i ∧ Clear i s := by
  induction s with
  | nil => exact .inl fun i hi => absurd hi (Nat.not_lt_zero i)
  | cons b s ih =>
    by_cases hhead : ∃ hit : DelimHit, hit.bytes <+: b :: s
    · obtain ⟨hit, hhit⟩ := hhead
      exact .inr ⟨hit, 0, Nat.zero_le _, hhit, fun i hi => absurd hi (Nat.not_lt_zero i)⟩
    have hnone (hit : DelimHit) : ¬ hit.bytes <+: b :: s := fun hhit => hhead ⟨hit, hhit⟩
    obtain hclear | ⟨hit, i, hi, hhit, hclear⟩ := ih
    · exact .inl (clear_cons hnone hclear)
    · exact .inr ⟨hit, i + 1, Nat.succ_le_succ hi, hhit, clear_cons hnone hclear⟩

theorem hit_unique (h : hit.bytes <+: s) (h' : hit'.bytes <+: s) : hit = hit' := by
  obtain hin | hin := occurs_of_starts h h'
  · exact hit_of_occurs hin
  · exact (hit_of_occurs hin).symm

/-- A text has one first delimiter. -/
theorem first_hit_unique (h : hit.bytes <+: s.drop i) (hclear : Clear i s) (h' : hit'.bytes <+: s.drop j)
    (hclear' : Clear j s) : i = j ∧ hit = hit' := by
  obtain hlt | rfl | hgt := Nat.lt_trichotomy i j
  · exact absurd h (hclear' i hlt hit)
  · exact ⟨rfl, hit_unique h h'⟩
  · exact absurd h' (hclear j hgt hit')

end Hits

section Reading
variable {Call : Type} {parse : List UInt8 → Option Call} {s t body : List UInt8} {l : Option UInt8} {k : ℕ}

/-- Where a call opens, only a whole call is read. -/
theorem Reads.opened (h : Reads parse s l t) (hopen : toolCallOpen <+: s) :
    l = none ∧ ∃ body, s = toolCallOpen ++ (body ++ (toolCallClose ++ t)) ∧
      Clear body.length (body ++ (toolCallClose ++ t)) ∧ (parse body).isSome := by
  cases h with
  | prose hprose => exact absurd hopen (hprose .opener)
  | call hclear hparse => exact ⟨rfl, _, rfl, hclear, hparse⟩

theorem not_reads_nil : ¬ Reads parse [] l t := by
  intro h
  generalize hs : ([] : List UInt8) = s at h
  cases h <;> cases hs

theorem not_reads_closer (hclose : toolCallClose <+: s) : ¬ Reads parse s l t := by
  intro h
  cases h with
  | prose hprose => exact hprose .closer hclose
  | @call body t =>
    have hopen : DelimHit.opener.bytes <+: toolCallOpen ++ (body ++ (toolCallClose ++ t)) := List.prefix_append _ _
    have hsame : DelimHit.opener = .closer := hit_unique hopen hclose
    cases hsame

theorem reads_deterministic : Deterministic (Reads parse) := by
  intro s l t l' t' h h'
  by_cases hopen : toolCallOpen <+: s
  · obtain ⟨rfl, body, hs, hclear, -⟩ := h.opened hopen
    obtain ⟨rfl, body', hs', hclear', -⟩ := h'.opened hopen
    have hrest : body ++ (toolCallClose ++ t) = body' ++ (toolCallClose ++ t') :=
      List.append_cancel_left (hs.symm.trans hs')
    have hclose : DelimHit.closer.bytes <+: (body ++ (toolCallClose ++ t)).drop body.length := by
      rw [List.drop_left]
      exact List.prefix_append _ _
    have hclose' : DelimHit.closer.bytes <+: (body ++ (toolCallClose ++ t)).drop body'.length := by
      rw [hrest, List.drop_left]
      exact List.prefix_append _ _
    have hlength := (first_hit_unique hclose hclear hclose' (hrest ▸ hclear')).1
    obtain ⟨-, hrest⟩ := List.append_inj hrest hlength
    exact ⟨rfl, List.append_cancel_left hrest⟩
  · cases h with
    | call => exact absurd (List.prefix_append _ _) hopen
    | prose =>
      cases h' with
      | prose => exact ⟨rfl, rfl⟩
      | call => exact absurd (List.prefix_append _ _) hopen

theorem keeps_prose (hk : k ≤ s.length) (h : Clear k s) : Keeps (Reads parse) s (s.take k) (s.drop k) := by
  induction k generalizing s with
  | zero => exact .refl s
  | succ k ih =>
    cases s with
    | nil => exact .refl []
    | cons b s =>
      refine .keep (.prose fun hit => h 0 (Nat.succ_pos k) hit) (ih (Nat.le_of_succ_le_succ hk) fun i hi hit => ?_)
      exact h (i + 1) (Nat.succ_lt_succ hi) hit

/-- What follows an opener is a whole call, or the split ends there and nothing more is read. -/
theorem reads_call (s : List UInt8) :
    (∃ body rest call, s = body ++ (toolCallClose ++ rest) ∧ Reads parse (toolCallOpen ++ s) none rest ∧
        toolSplit parse .inToolCall [] 0 s = (toolSplit parse .normal [] 0 rest).prepend [] [call]) ∨
      (toolSplit parse .inToolCall [] 0 s).text = [] ∧ ∀ l t, ¬ Reads parse (toolCallOpen ++ s) l t := by
  obtain hclear | ⟨hit, i, hi, hhit, hclear⟩ := first_hit s
  · refine .inr ⟨by rw [split_body le_rfl hclear, List.drop_length]; rfl, fun l t h => ?_⟩
    obtain ⟨-, body, hs, -, -⟩ := h.opened (List.prefix_append _ _)
    obtain rfl := List.append_cancel_left hs
    refine hclear body.length ?_ .closer (by rw [List.drop_left]; exact List.prefix_append _ _)
    rw [List.length_append, List.length_append]
    exact Nat.lt_add_of_pos_right (Nat.add_pos_left (by decide) _)
  have hbody : toolSplit parse .inToolCall [] 0 s = toolSplit parse .inToolCall (s.take i) 0 (s.drop i) :=
    split_body hi hclear
  -- the first delimiter decides every reading from here
  have hread (l : Option UInt8) (t : List UInt8) (h : Reads parse (toolCallOpen ++ s) l t) :
      hit = .closer ∧ (parse (s.take i)).isSome := by
    obtain ⟨-, body, hs, hclear', hparse⟩ := h.opened (List.prefix_append _ _)
    obtain rfl := List.append_cancel_left hs
    have hclose : DelimHit.closer.bytes <+: (body ++ (toolCallClose ++ t)).drop body.length := by
      rw [List.drop_left]
      exact List.prefix_append _ _
    obtain ⟨rfl, rfl⟩ := first_hit_unique hhit hclear hclose hclear'
    exact ⟨rfl, by rwa [List.take_left]⟩
  cases hit with
  | opener =>
    refine .inr ⟨by rw [hbody, split_nested hhit]; rfl, fun l t h => ?_⟩
    cases (hread l t h).1
  | closer =>
    have hclose : toolSplit parse .inToolCall (s.take i) 0 (s.drop i) = _ := split_close hhit
    cases hparse : parse (s.take i) with
    | none =>
      refine .inr ⟨by rw [hbody, hclose, hparse]; rfl, fun l t h => ?_⟩
      have := (hread l t h).2
      rw [hparse] at this
      cases this
    | some call =>
      obtain ⟨rest, hrest⟩ := hhit
      have hs : s = s.take i ++ (toolCallClose ++ rest) := (List.take_append_drop i s).symm.trans (by rw [← hrest]; rfl)
      have hlength : (s.take i).length = i := List.length_take_of_le hi
      refine .inl ⟨s.take i, rest, call, hs, ?_, ?_⟩
      · have hcall : Reads parse (toolCallOpen ++ (s.take i ++ (toolCallClose ++ rest))) none rest :=
          .call (by rw [hlength, ← hs]; exact hclear) (by rw [hparse]; rfl)
        rwa [← hs] at hcall
      · rw [hbody, hclose, hparse, ← hrest]
        exact congrArg (Routed.prepend [] [call] <| toolSplit parse .normal [] 0 ·) (@List.drop_left _ toolCallClose rest)

/-- The prose of the split is what is kept up to where no reading goes on. -/
theorem keeps_split (text : List UInt8) : ∃ stop, Keeps (Reads parse) text (toolReference parse text).text stop ∧
    ∀ l t, ¬ Reads parse stop l t := by
  induction hn : text.length using Nat.strong_induction_on generalizing text with
  | h n ih =>
    obtain hclear | ⟨hit, i, hi, hhit, hclear⟩ := first_hit text
    · refine ⟨[], ?_, fun _ _ => not_reads_nil⟩
      rw [toolReference, split_prose le_rfl hclear, List.drop_length]
      have hall : Keeps (Reads parse) text _ _ := keeps_prose le_rfl hclear
      rw [List.drop_length] at hall
      simpa [toolSplit, Routed.prepend] using hall
    have hprose : Keeps (Reads parse) text (text.take i) (text.drop i) := keeps_prose hi hclear
    have hsplit : (toolReference parse text).text = text.take i ++ (toolSplit parse .normal [] 0 (text.drop i)).text := by
      rw [toolReference, split_prose hi hclear]
      rfl
    cases hit with
    | closer =>
      refine ⟨text.drop i, ?_, fun l t => not_reads_closer hhit⟩
      rw [hsplit, split_stray hhit]
      simpa [Routed.failed] using hprose
    | opener =>
      rw [split_open hhit] at hsplit
      obtain ⟨back, hback⟩ := hhit
      rw [← hback, DelimHit.bytes, List.drop_left] at hsplit
      rw [← hback, DelimHit.bytes] at hprose
      obtain ⟨body, rest, call, rfl, hcall, hnext⟩ | ⟨hnone, hstop⟩ := @reads_call _ parse back
      · have hshorter : rest.length < n := by
          have hlength := congrArg List.length hback
          have hpos : 0 < DelimHit.opener.bytes.length := by decide
          simp only [List.length_append, List.length_drop] at hlength
          omega
        obtain ⟨stop, hkeeps, hend⟩ := ih _ hshorter rest rfl
        refine ⟨stop, ?_, hend⟩
        rw [hsplit, hnext]
        exact hprose.trans (.drop hcall hkeeps)
      · refine ⟨toolCallOpen ++ back, ?_, hstop⟩
        rw [hsplit, hnone, List.append_nil]
        exact hprose

/-- A delimiter that is read byte by byte with nothing in between would not be read. -/
theorem not_adjoins (hit : DelimHit) : ¬ Adjoins (Reads parse) s hit.bytes t := by
  have hwhole {s m t : List UInt8} (h : Adjoins (Reads parse) s m t) : s = m ++ t := by
    induction h with
    | one h => cases h; rfl
    | cons h _ ih => cases h; rw [ih]; rfl
  intro h
  have hs := hwhole h
  generalize hm : hit.bytes = m at h
  have hstart : hit.bytes <+: s := hs ▸ List.prefix_append _ _
  cases h with
  | one h => cases h with | prose hprose => exact hprose hit hstart
  | cons h _ => cases h with | prose hprose => exact hprose hit hstart

end Reading

namespace ToolOutputRouter

/-- The prose shows no delimiter exactly when the text, read outside of calls and up to its first
error, nowhere writes a delimiter with whole calls inside it. -/
theorem leak_free_iff {Call : Type} (parse : List UInt8 → Option Call) (chunks : List (List UInt8)) :
    (∀ hit : DelimHit, ¬ hit.bytes <:+: (new.route parse chunks).text) ↔
      ∀ hit : DelimHit, ¬ Scatters (Reads parse) chunks.flatten hit.bytes := by
  obtain ⟨stop, hkeeps, hend⟩ := @keeps_split _ parse chunks.flatten
  rw [route_reference]
  refine forall_congr' fun hit => not_congr ⟨fun hin => ?_, fun hscatters => ?_⟩
  · exact hkeeps.scatters (by cases hit <;> decide) hin fun _ _ => not_adjoins hit
  · obtain ⟨u, t, hword⟩ := hscatters.keeps
    exact (List.suffix_append u hit.bytes).isInfix.trans (hword.begins reads_deterministic hkeeps hend).isInfix

/-- A call inside an opener: once it is taken out, what is around it reads as an opener. -/
theorem call_inside_opener_leaks :
    let body := ['\x7b', '"', 'n', 'a', 'm', 'e', '"', ':', '"', 'f', '"', '\x7d']
    let fromStr := fun s => if s = body then some (.object [(['n', 'a', 'm', 'e'], .string ['f'])]) else none
    let front := "<tool_".toList
    let back := "call>".toList
    let text := front ++ (Hermes.toolCallOpen ++ (body ++ (Hermes.toolCallClose ++ back)))
    (new.route (Hermes.parseStrictBytes fromStr) [utf8Bytes text]).error = none ∧
      toolCallOpen <:+: (new.route (Hermes.parseStrictBytes fromStr) [utf8Bytes text]).text := by
  decide +kernel

end ToolOutputRouter
end Hipscope.Emit
