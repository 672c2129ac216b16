import Hipscope.Emit.ThinkRouter

/-! Any way of cutting a text into chunks yields the parts of the whole text. -/
namespace Hipscope.Emit.Think
open Text

section Markers
variable {m m' : ThinkMarker} {s : List Char}

/-- The markers do not nest. -/
theorem markers_nest (h : m.text <:+: m'.text) : m = m' := by
  have hall : ∀ m ∈ markers, ∀ m' ∈ markers, m.text <:+: m'.text → m = m' := by decide
  exact hall m m.mem_markers m' m'.mem_markers h

theorem marker?_eq (h : m.text <+: s) : marker? s = some m := by
  cases hfind : marker? s with
  | none => exact absurd (List.isPrefixOf_iff_prefix.2 h) (List.find?_eq_none.1 hfind m m.mem_markers)
  | some m' =>
    have hfound : m'.text.isPrefixOf s = true := by
      rw [marker?] at hfind
      simpa using List.find?_some hfind
    have hstarts := List.isPrefixOf_iff_prefix.1 hfound
    obtain hin | hin := occurs_of_starts hstarts h
    · rw [markers_nest hin]
    · rw [markers_nest hin]

theorem marker?_none (h : ∀ m : ThinkMarker, ¬ m.text <+: s) : marker? s = none :=
  List.find?_eq_none.2 fun m _ hstarts => h m (List.isPrefixOf_iff_prefix.1 hstarts)

end Markers

/-- No marker begins in the first `k` characters. -/
def Clear (k : ℕ) (s : List Char) : Prop := ∀ i < k, ∀ m : ThinkMarker, ¬ m.text <+: s.drop i

section Split
variable {st : ThinkState} {s : List Char} {k : ℕ} {m : ThinkMarker}

theorem Clear.head {c : Char} (h : Clear (k + 1) (c :: s)) : marker? (c :: s) = none :=
  marker?_none fun m => h 0 (Nat.succ_pos k) m

theorem Clear.tail {c : Char} (h : Clear (k + 1) (c :: s)) : Clear k s :=
  fun i hi => h (i + 1) (Nat.succ_lt_succ hi)

/-- The parts of a text without markers. -/
def plain : ThinkState → List Char → List Part
  | _, [] => []
  | st, c :: s => st.part c :: plain (st.pass c) s

private theorem after_part (st : ThinkState) (c : Char) : after st [st.part c] = st.pass c := by
  rw [ThinkState.part, ThinkState.pass]
  by_cases hthink : st.inThink = true
  · rw [if_pos hthink, if_pos (Or.inl hthink)]
    rfl
  · rw [if_neg hthink]
    by_cases hnewline : st.strip ∧ isNewline c
    · rw [if_pos hnewline, if_pos (Or.inr hnewline)]
      rfl
    · rw [if_neg hnewline, if_neg (not_or.mpr ⟨hthink, hnewline⟩)]
      rfl

private theorem split_skip : split st k s = split st 0 (s.drop k) := by
  induction k generalizing s with
  | zero => rfl
  | succ k ih =>
    cases s with
    | nil => rfl
    | cons c s => rw [split, ih, List.drop_succ_cons]

theorem split_text (hk : k ≤ s.length) (h : Clear k s) :
    split st 0 s = plain st (s.take k) ++ split (after st (plain st (s.take k))) 0 (s.drop k) := by
  induction k generalizing s st with
  | zero => rfl
  | succ k ih =>
    cases s with
    | nil => exact absurd hk (Nat.not_succ_le_zero k)
    | cons c s =>
      have hafter : after st (plain st (c :: s.take k)) = after (st.pass c) (plain (st.pass c) (s.take k)) := by
        rw [plain, ← List.singleton_append, after_append, after_part]
      rw [split, h.head, List.take_succ_cons, List.drop_succ_cons, hafter]
      dsimp only
      rw [ih (Nat.le_of_succ_le_succ hk) h.tail]
      rfl

theorem split_marker (h : m.text <+: s) : split st 0 s = .marker m :: split (st.enter m) 0 (s.drop m.text.length) := by
  cases s with
  | nil => exact absurd (List.prefix_nil.mp h) m.text_ne_nil
  | cons c s =>
    have hpos := List.length_pos_iff.mpr m.text_ne_nil
    rw [split, marker?_eq h]
    dsimp only
    rw [split_skip, ← List.drop_succ_cons (a := c), Nat.sub_add_cancel hpos]

theorem plain_text (st : ThinkState) (s : List Char) : (plain st s).flatMap Part.text = s := by
  induction s generalizing st with
  | nil => rfl
  | cons c s ih =>
    have hpart : (st.part c).text = [c] := by
      rw [ThinkState.part]
      split
      · rfl
      · split <;> rfl
    rw [plain, List.flatMap_cons, ih, hpart]
    rfl

end Split

/-- A text comes apart into the given parts and a rest, whatever follows. -/
structure Consumed (st : ThinkState) (s : List Char) (parts : List Part) (st' : ThinkState) (rest : List Char) : Prop where
  text : s = parts.flatMap Part.text ++ rest
  ahead : ∀ t, split st 0 (s ++ t) = parts ++ split st' 0 (rest ++ t)
  state : st' = after st parts

namespace Consumed
variable {st st₁ st₂ : ThinkState} {s s' rest rest' : List Char} {parts parts' : List Part}

theorem refl (st : ThinkState) (s : List Char) : Consumed st s [] st s := ⟨rfl, fun _ => rfl, rfl⟩

theorem trans (h : Consumed st s parts st₁ rest) (h' : Consumed st₁ (rest ++ s') parts' st₂ rest') :
    Consumed st (s ++ s') (parts ++ parts') st₂ rest' where
  text := by rw [h.text, List.append_assoc, h'.text, List.flatMap_append, List.append_assoc]
  ahead t := by rw [List.append_assoc, h.ahead, ← List.append_assoc, h'.ahead, List.append_assoc]
  state := by rw [h'.state, h.state, after_append]

theorem andThen (h : Consumed st s parts st₁ rest) (h' : Consumed st₁ rest parts' st₂ rest') :
    Consumed st s (parts ++ parts') st₂ rest' := by
  have hboth : Consumed st (s ++ []) (parts ++ parts') st₂ rest' := h.trans ((List.append_nil rest).symm ▸ h')
  rwa [List.append_nil] at hboth

theorem of_plain {k : ℕ} (hk : k ≤ s.length) (h : ∀ t, Clear k (s ++ t)) :
    Consumed st s (plain st (s.take k)) (after st (plain st (s.take k))) (s.drop k) where
  text := by rw [plain_text, List.take_append_drop]
  ahead t := by
    rw [split_text (hk.trans (by rw [List.length_append]; omega)) (h t), List.take_append_of_le_length hk,
      List.drop_append_of_le_length hk]
  state := rfl

theorem of_marker {m : ThinkMarker} (h : m.text <+: s) : Consumed st s [.marker m] (st.enter m) (s.drop m.text.length) where
  text := by
    obtain ⟨t, rfl⟩ := h
    rw [List.drop_left, List.flatMap_singleton]
    rfl
  ahead t := by
    rw [split_marker (h.trans (List.prefix_append s t)), List.drop_append_of_le_length h.length_le]
    rfl
  state := by rfl

private theorem text_ne_nil (part : Part) : part.text ≠ [] := by
  cases part with
  | marker m => exact m.text_ne_nil
  | newline c => exact List.cons_ne_nil c []
  | content c => exact List.cons_ne_nil c []
  | reasoning c => exact List.cons_ne_nil c []

private theorem eq_of_front (h : parts <+: parts') (htext : parts.flatMap Part.text = parts'.flatMap Part.text) :
    parts = parts' := by
  obtain ⟨more, rfl⟩ := h
  rw [List.flatMap_append] at htext
  cases more with
  | nil => rw [List.append_nil]
  | cons part more => exact absurd (List.append_eq_nil_iff.mp (List.self_eq_append_right.mp htext)).1 (text_ne_nil part)

/-- Two ways of consuming a text up to the same rest find the same parts. -/
theorem unique (h : Consumed st s parts st₁ rest) (h' : Consumed st s parts' st₂ rest) : parts = parts' ∧ st₁ = st₂ := by
  have htext : parts.flatMap Part.text = parts'.flatMap Part.text := List.append_cancel_right (h.text.symm.trans h'.text)
  have hahead := (h.ahead []).symm.trans (h'.ahead [])
  have hparts : parts = parts' := by
    obtain hle | hle := List.prefix_or_prefix_of_prefix (List.prefix_append ..) (hahead ▸ List.prefix_append ..)
    · exact (eq_of_front hle htext.symm).symm
    · exact eq_of_front hle htext
  exact ⟨hparts, by rw [h.state, h'.state, hparts]⟩

end Consumed

section Hold
variable {s r : List Char} {hold : ℕ}

private theorem le_of_find? {l : List ℕ} {p : ℕ → Bool} {k : ℕ} (hsorted : l.Pairwise (· > ·)) (hk : k ∈ l)
    (hp : p k = true) : k ≤ (l.find? p).getD 0 := by
  induction l with
  | nil => exact absurd hk List.not_mem_nil
  | cons n l ih =>
    obtain ⟨hn, hsorted⟩ := List.pairwise_cons.mp hsorted
    rw [List.find?_cons]
    obtain rfl | hk := List.mem_cons.mp hk
    · rw [hp]
      exact le_rfl
    · cases hpn : p n with
      | true => exact (hn k hk).le
      | false => exact ih hsorted hk

private theorem longestPrefixSuffix_covers (s : List Char) (m : ThinkMarker) : Covers (longestPrefixSuffix s m) s m.text := by
  intro k hk hsuffix
  obtain rfl | hpos := Nat.eq_zero_or_pos k
  · exact Nat.zero_le _
  apply le_of_find?
  · rw [List.pairwise_reverse]
    exact List.pairwise_lt_range'
  · have hle := hsuffix.length_le
    rw [List.length_take_of_le hk.le] at hle
    rw [List.mem_reverse, List.mem_range'_1]
    omega
  · exact List.isSuffixOf_iff_suffix.mpr hsuffix

private theorem longestPrefixSuffix_spec (s : List Char) (m : ThinkMarker) :
    longestPrefixSuffix s m < m.text.length ∧ m.text.take (longestPrefixSuffix s m) <:+ s := by
  rw [longestPrefixSuffix]
  cases hfind : List.find? _ _ with
  | none => exact ⟨List.length_pos_iff.mpr m.text_ne_nil, List.nil_suffix⟩
  | some k =>
    have hk := List.mem_range'_1.mp (List.mem_reverse.mp (List.mem_of_find?_eq_some hfind))
    have hfound : (m.text.take k).isSuffixOf s = true := by simpa using List.find?_some hfind
    exact ⟨by rw [Option.getD_some]; omega, List.isSuffixOf_iff_suffix.mp hfound⟩

theorem longest_covers (s : List Char) (m : ThinkMarker) : Covers (longestThinkPrefixSuffix s) s m.text := by
  intro k hk hsuffix
  have hle := longestPrefixSuffix_covers s m k hk hsuffix
  cases m with
  | opener => exact hle.trans (Nat.le_max_left _ _)
  | closer => exact hle.trans (Nat.le_max_right _ _)

theorem longest_spec (s : List Char) : ∃ m : ThinkMarker, longestThinkPrefixSuffix s < m.text.length ∧
    m.text.take (longestThinkPrefixSuffix s) <:+ s := by
  obtain hle | hle := le_total (longestPrefixSuffix s .opener) (longestPrefixSuffix s .closer)
  · rw [longestThinkPrefixSuffix, max_eq_right hle]
    exact ⟨.closer, longestPrefixSuffix_spec s .closer⟩
  · rw [longestThinkPrefixSuffix, max_eq_left hle]
    exact ⟨.opener, longestPrefixSuffix_spec s .opener⟩

theorem longest_le (s : List Char) : longestThinkPrefixSuffix s ≤ s.length := by
  obtain ⟨m, hlt, hsuffix⟩ := longest_spec s
  have hle := hsuffix.length_le
  rwa [List.length_take_of_le hlt.le] at hle

/-- A tail that every held beginning lies in holds as much as the whole text. -/
theorem longest_of_suffix (hr : r <:+ s)
    (hlies : ∀ (m : ThinkMarker) k, k < m.text.length → m.text.take k <:+ s → k ≤ r.length) :
    longestThinkPrefixSuffix s = longestThinkPrefixSuffix r := by
  apply le_antisymm
  · obtain ⟨m, hlt, hsuffix⟩ := longest_spec s
    have hle := hlies m _ hlt hsuffix
    apply longest_covers r m _ hlt
    exact List.suffix_of_suffix_length_le hsuffix hr ((List.length_take_le _ _).trans hle)
  · obtain ⟨m, hlt, hsuffix⟩ := longest_spec r
    exact longest_covers s m _ hlt (hsuffix.trans hr)

private theorem tail_not_start {m m' : ThinkMarker} {y : List Char} (hy : y ≠ []) (hsuffix : y <:+ m.text)
    (hfront : y <+: m'.text) : y = m.text := by
  have hall : ∀ m ∈ markers, ∀ m' ∈ markers, ∀ y ∈ m.text.tails, y ≠ [] → y <+: m'.text → y = m.text := by decide
  exact hall m m.mem_markers m' m'.mem_markers y ((List.mem_tails _ _).mpr hsuffix) hy hfront

/-- No beginning of a marker reaches back into a marker. -/
private theorem held_after_marker {m m' : ThinkMarker} {before : List Char} {k : ℕ} (hk : k < m'.text.length)
    (h : m'.text.take k <:+ before ++ m.text ++ r) : k ≤ r.length := by
  by_contra hlong
  have hlen : (m'.text.take k).length = k := List.length_take_of_le hk.le
  obtain ⟨front, hfront⟩ := h
  obtain ⟨y, hy, hheld⟩ | ⟨c, -, hr⟩ := List.append_eq_append_iff.mp hfront
  · have hylen : y.length + r.length = k := by rw [← List.length_append, ← hheld, hlen]
    have hyne : y ≠ [] := by
      rintro rfl
      rw [List.length_nil, Nat.zero_add] at hylen
      exact hlong hylen.ge
    have hstart : y <+: m'.text := (hheld ▸ List.prefix_append y r).trans (List.take_prefix k _)
    have hinside : m.text <:+: y := by
      obtain hin | hin := List.suffix_or_suffix_of_suffix (List.suffix_append before m.text) (hy ▸ List.suffix_append front y)
      · exact hin.isInfix
      · rw [tail_not_start hyne hin hstart]
    have hsame := markers_nest (hinside.trans hstart.isInfix)
    subst hsame
    have hle := hinside.length_le
    omega
  · have hle := congrArg List.length hr
    rw [List.length_append, hlen] at hle
    omega

end Hold

section Emit
variable {p : ThinkOutputRouter}

def ThinkOutputRouter.state (p : ThinkOutputRouter) : ThinkState := ⟨p.inThink, p.stripAnswerNewlines⟩

private theorem plain_reasoning (strip : Bool) (text : List Char) : plain ⟨true, strip⟩ text = text.map Part.reasoning := by
  induction text with
  | nil => rfl
  | cons c text ih => exact congrArg (Part.reasoning c :: ·) ih

private theorem plain_content (text : List Char) : plain ⟨false, false⟩ text = text.map Part.content := by
  induction text with
  | nil => rfl
  | cons c text ih => exact congrArg (Part.content c :: ·) ih

private theorem plain_strip (text : List Char) : plain ⟨false, true⟩ text =
    (text.takeWhile isNewline).map Part.newline ++ (text.dropWhile isNewline).map Part.content := by
  induction text with
  | nil => rfl
  | cons c text ih =>
    rw [plain, List.takeWhile_cons, List.dropWhile_cons]
    by_cases hc : isNewline c = true
    · have hpart : ThinkState.part ⟨false, true⟩ c = .newline c := by simp [ThinkState.part, hc]
      have hpass : ThinkState.pass ⟨false, true⟩ c = ⟨false, true⟩ := by simp [ThinkState.pass, hc]
      rw [hpart, hpass, ih, if_pos hc, if_pos hc]
      rfl
    · have hpart : ThinkState.part ⟨false, true⟩ c = .content c := by simp [ThinkState.part, hc]
      have hpass : ThinkState.pass ⟨false, true⟩ c = ⟨false, false⟩ := by simp [ThinkState.pass, hc]
      rw [hpart, hpass, plain_content, if_neg hc, if_neg hc]
      rfl

private theorem after_reasoning (st : ThinkState) (text : List Char) : after st (text.map Part.reasoning) = st := by
  induction text with
  | nil => rfl
  | cons c text ih => exact ih

private theorem after_newline (st : ThinkState) (text : List Char) : after st (text.map Part.newline) = st := by
  induction text with
  | nil => rfl
  | cons c text ih => exact ih

private theorem after_content (st : ThinkState) {text : List Char} (h : text ≠ []) :
    after st (text.map Part.content) = { st with strip := false } := by
  obtain ⟨c, text, rfl⟩ := List.exists_cons_of_ne_nil h
  have hrest (text : List Char) : after ⟨st.inThink, false⟩ (text.map Part.content) = ⟨st.inThink, false⟩ := by
    induction text with
    | nil => rfl
    | cons c text ih => exact ih
  exact hrest text

private theorem pieces_reasoning (text : List Char) :
    (text.map Part.reasoning).filterMap Part.piece = text.map fun c => (true, [c]) := by
  rw [List.filterMap_map]
  exact congrFun (List.filterMap_eq_map (f := fun c => (true, [c]))) text

private theorem pieces_content (text : List Char) :
    (text.map Part.content).filterMap Part.piece = text.map fun c => (false, [c]) := by
  rw [List.filterMap_map]
  exact congrFun (List.filterMap_eq_map (f := fun c => (false, [c]))) text

private theorem pieces_newline (text : List Char) : (text.map Part.newline).filterMap Part.piece = [] := by
  rw [List.filterMap_map, List.filterMap_eq_nil_iff]
  intro c _
  rfl

private theorem merge_chars (channel : Bool) {text : List Char} (h : text ≠ []) :
    Channels.merge (text.map fun c => (channel, [c])) = [(channel, text)] := by
  have hmerge := Channels.merge_text channel h []
  rw [List.append_nil] at hmerge
  exact hmerge

/-- What an emitted text does is what its parts say. -/
structure Emits (p : ThinkOutputRouter) (parts : List Part) (out : ThinkOutputRouter × List ThinkRouteEvent) : Prop where
  events : merged out.2 = Channels.merge (parts.filterMap Part.piece)
  state : out.1.state = after p.state parts

private theorem emits_nothing (p : ThinkOutputRouter) : Emits p [] (p, []) := ⟨rfl, rfl⟩

private theorem emits_reasoning (strip : Bool) (pending : List Char) {text : List Char} (h : text ≠ []) :
    Emits ⟨true, pending, strip⟩ (text.map Part.reasoning) (⟨true, pending, strip⟩, [.reasoning text]) where
  events := by rw [pieces_reasoning, merge_chars true h]; rfl
  state := (after_reasoning _ text).symm

private theorem emits_content (strip : Bool) (pending : List Char) {lead text : List Char} (h : text ≠ []) :
    Emits ⟨false, pending, strip⟩ (lead.map Part.newline ++ text.map Part.content)
      (⟨false, pending, false⟩, [.content text]) where
  events := by rw [List.filterMap_append, pieces_newline, pieces_content, List.nil_append, merge_chars false h]; rfl
  state := by rw [after_append, after_newline, after_content _ h]; rfl

theorem emit_emits (p : ThinkOutputRouter) (text : List Char) : Emits p (plain p.state text) (p.emit text) := by
  obtain ⟨inThink, pending, strip⟩ := p
  by_cases htext : text = []
  · subst htext
    cases inThink <;> cases strip <;> exact emits_nothing _
  cases inThink with
  | true =>
    have hemit : (ThinkOutputRouter.mk true pending strip).emit text = (⟨true, pending, strip⟩, [.reasoning text]) := if_neg htext
    rw [hemit, ThinkOutputRouter.state, plain_reasoning]
    exact emits_reasoning strip pending htext
  | false =>
    cases strip with
    | false =>
      have hemit : (ThinkOutputRouter.mk false pending false).emit text = (⟨false, pending, false⟩, [.content text]) :=
        if_neg htext
      rw [hemit, ThinkOutputRouter.state, plain_content]
      exact @emits_content false pending [] text htext
    | true =>
      rw [ThinkOutputRouter.state, plain_strip]
      by_cases hrest : text.dropWhile isNewline = []
      · have hemit : (ThinkOutputRouter.mk false pending true).emit text = (⟨false, pending, true⟩, []) := if_pos hrest
        rw [hemit, hrest]
        exact ⟨by rw [List.map_nil, List.append_nil, pieces_newline]; rfl,
          by rw [List.map_nil, List.append_nil, after_newline]⟩
      · have hemit : (ThinkOutputRouter.mk false pending true).emit text =
            (⟨false, pending, false⟩, [.content (text.dropWhile isNewline)]) := if_neg hrest
        rw [hemit]
        exact emits_content true pending hrest

theorem emit_pending (p : ThinkOutputRouter) (text : List Char) : (p.emit text).1.pending = p.pending := by
  rw [ThinkOutputRouter.emit]
  split
  · split <;> rfl
  · split <;> rfl

end Emit

namespace ThinkOutputRouter
variable {p : ThinkOutputRouter}

/-- A round of pushes took the text apart and kept back what may begin a marker. -/
structure Drained (p : ThinkOutputRouter) (s : List Char) (parts : List Part)
    (out : ThinkOutputRouter × List ThinkRouteEvent) : Prop where
  consumed : Consumed p.state s parts out.1.state out.1.pending
  events : merged out.2 = Channels.merge (parts.filterMap Part.piece)
  hold : longestThinkPrefixSuffix s = out.1.pending.length
  settled : nextThinkMarker out.1.pending = none

private theorem merged_append {a b : List ThinkRouteEvent} {parts parts' : List Part}
    (ha : merged a = Channels.merge (parts.filterMap Part.piece))
    (hb : merged b = Channels.merge (parts'.filterMap Part.piece)) :
    merged (a ++ b) = Channels.merge ((parts ++ parts').filterMap Part.piece) := by
  rw [merged, List.map_append, List.filterMap_append]
  exact (Channels.merge_append_congr ha _).trans (Channels.merge_congr hb _)

private theorem nextThinkMarker_eq_none {s : List Char} (h : ∀ m : ThinkMarker, Absent m.text s) :
    nextThinkMarker s = none := by
  cases hnext : nextThinkMarker s with
  | none => rfl
  | some found => exact absurd (nextThinkMarker_some hnext).1 (h found.2 found.1)

private theorem drain_none (h : nextThinkMarker p.pending = none) (finish : Bool) : p.drain finish =
    (let emitLen := p.pending.length - if finish then 0 else longestThinkPrefixSuffix p.pending
    if 0 < emitLen then ({ p with pending := p.pending.drop emitLen } : ThinkOutputRouter).emit (p.pending.take emitLen)
    else (p, [])) := by
  rw [drain]
  split
  · rename_i hnext
    exact absurd (h.symm.trans hnext) (Option.some_ne_none _).symm
  · rfl

private theorem drain_some {i : ℕ} {m : ThinkMarker} (h : nextThinkMarker p.pending = some (i, m)) (finish : Bool) :
    p.drain finish =
      (let now := p.emit (p.pending.take i)
      let later := (({ now.1 with pending := p.pending.drop (i + m.text.length) } : ThinkOutputRouter).enter m).drain finish
      (later.1, now.2 ++ later.2)) := by
  rw [drain]
  split
  · rename_i hnext
    cases h.symm.trans hnext
    rfl
  · rename_i hnext
    exact absurd (h.symm.trans hnext) (Option.some_ne_none _)

private theorem drained_stop (h : nextThinkMarker p.pending = none) : ∃ parts, Drained p p.pending parts (p.drain false) := by
  have habsent := nextThinkMarker_none h
  have hlongest := longest_le p.pending
  have hclear (t : List Char) : Clear (p.pending.length - longestThinkPrefixSuffix p.pending) (p.pending ++ t) := by
    intro j hj m
    exact not_prefix_of_covers (habsent m) (longest_covers p.pending m) (by omega)
  have hcut : Consumed p.state _ _ _ _ := .of_plain (Nat.sub_le _ _) hclear
  rw [drain_none h]
  dsimp only
  rw [if_neg Bool.false_ne_true]
  generalize hk : p.pending.length - longestThinkPrefixSuffix p.pending = k at hcut
  split
  · obtain ⟨hevents, hstate⟩ := emit_emits { p with pending := p.pending.drop k } (p.pending.take k)
    have hpending := emit_pending { p with pending := p.pending.drop k } (p.pending.take k)
    refine ⟨plain p.state (p.pending.take k), ?_, hevents, ?_, ?_⟩
    · rw [hstate, hpending]
      exact hcut
    · rw [hpending, List.length_drop]
      omega
    · rw [hpending]
      exact nextThinkMarker_eq_none fun m => (habsent m).drop k
  · refine ⟨[], .refl _ _, rfl, ?_, h⟩
    dsimp only
    omega

private theorem state_enter (m : ThinkMarker) : (p.enter m).state = p.state.enter m := by cases m <;> rfl

private theorem pending_enter (m : ThinkMarker) : (p.enter m).pending = p.pending := by cases m <;> rfl

theorem drained (p : ThinkOutputRouter) : ∃ parts, Drained p p.pending parts (p.drain false) := by
  induction hn : p.pending.length using Nat.strong_induction_on generalizing p with
  | _ n ih =>
    cases hnext : nextThinkMarker p.pending with
    | none => exact drained_stop hnext
    | some found =>
      obtain ⟨i, m⟩ := found
      obtain ⟨hfound, hfit, hfirst⟩ := nextThinkMarker_some hnext
      have hclear (t : List Char) : Clear i (p.pending ++ t) := fun j hj m' =>
        not_prefix_before hfound hj (by omega) (hfirst j hj m') fun hin => congrArg _ (markers_nest hin)
      have hbefore : Consumed p.state _ _ _ _ := .of_plain (by omega) hclear
      obtain ⟨hevents, hstate⟩ := emit_emits p (p.pending.take i)
      have hmarker := hbefore.andThen (.of_marker hfound)
      rw [List.drop_drop, ← hstate] at hmarker
      rw [drain_some hnext]
      dsimp only
      generalize hr : ({ (p.emit (p.pending.take i)).1 with
        pending := p.pending.drop (i + m.text.length) } : ThinkOutputRouter).enter m = r
      have hrpending : r.pending = p.pending.drop (i + m.text.length) := by rw [← hr, pending_enter]
      have hrstate : r.state = (p.emit (p.pending.take i)).1.state.enter m := by
        rw [← hr, state_enter]
        rfl
      have hshorter : r.pending.length < n := by
        have hpos := List.length_pos_iff.mpr m.text_ne_nil
        rw [hrpending, List.length_drop]
        omega
      obtain ⟨parts, hconsumed, hlater, hhold, hsettled⟩ := ih _ hshorter r rfl
      rw [hrstate, hrpending] at hconsumed
      refine ⟨_, hmarker.andThen hconsumed, ?_, ?_, hsettled⟩
      · rw [List.append_assoc]
        exact merged_append hevents hlater
      · rw [← hhold, hrpending]
        apply longest_of_suffix (List.drop_suffix _ _)
        intro m' k hk hsuffix
        have hwhole : p.pending.take i ++ m.text ++ p.pending.drop (i + m.text.length) = p.pending := by
          rw [List.append_assoc, ← List.drop_drop, List.prefix_iff_eq_append.1 hfound, List.take_append_drop]
        rw [← hwhole] at hsuffix
        exact held_after_marker hk hsuffix

/-- What has been pushed, and what the router still holds of it. -/
private theorem longest_append {w rest : List Char} (hrest : rest <:+ w) (hlongest : longestThinkPrefixSuffix w = rest.length)
    (s : List Char) : longestThinkPrefixSuffix (w ++ s) = longestThinkPrefixSuffix (rest ++ s) := by
  apply longest_of_suffix
  · obtain ⟨front, rfl⟩ := hrest
    exact ⟨front, (List.append_assoc ..).symm⟩
  · intro m k hk hsuffix
    by_contra hlong
    rw [List.length_append] at hlong
    have hlen : (m.text.take k).length = k := List.length_take_of_le hk.le
    obtain ⟨front, hfront⟩ := hsuffix
    obtain ⟨y, hy, hheld⟩ | ⟨c, -, hs⟩ := List.append_eq_append_iff.mp hfront
    · have hylen : y.length + s.length = k := by rw [← List.length_append, ← hheld, hlen]
      have hstart : y = m.text.take y.length := by
        rw [← List.prefix_iff_eq_take]
        exact (hheld ▸ List.prefix_append y s).trans (List.take_prefix k _)
      have hle := longest_covers w m y.length (by omega) (hstart ▸ hy ▸ List.suffix_append front y)
      omega
    · have hle := congrArg List.length hs
      rw [List.length_append, hlen] at hle
      omega

private theorem push_drained (hsettled : nextThinkMarker p.pending = none)
    (hheld : longestThinkPrefixSuffix p.pending = p.pending.length)
    (text : List Char) : ∃ parts, Drained p (p.pending ++ text) parts (p.push text) := by
  rw [push]
  split
  · rename_i hempty
    refine ⟨[], ?_, rfl, ?_, hsettled⟩
    · rw [hempty, List.append_nil]
      exact .refl _ _
    · rw [hempty, List.append_nil]
      exact hheld
  · obtain ⟨parts, hdrained⟩ := drained { p with pending := p.pending ++ text }
    exact ⟨parts, hdrained.consumed, hdrained.events, hdrained.hold, hdrained.settled⟩

/-- Drained of a text that may end in what an earlier round kept back. -/
theorem Drained.trans {q r : ThinkOutputRouter} {s text : List Char} {parts parts' : List Part}
    {events events' : List ThinkRouteEvent} (h : Drained p s parts (q, events))
    (h' : Drained q (q.pending ++ text) parts' (r, events')) : Drained p (s ++ text) (parts ++ parts') (r, events ++ events') where
  consumed := h.consumed.trans h'.consumed
  events := merged_append h.events h'.events
  hold := by
    rw [← h'.hold]
    apply longest_append _ h.hold
    rw [h.consumed.text]
    exact List.suffix_append ..
  settled := h'.settled

private theorem Drained.held {q : ThinkOutputRouter} {s : List Char} {parts : List Part} {events : List ThinkRouteEvent}
    (h : Drained p s parts (q, events)) : longestThinkPrefixSuffix q.pending = q.pending.length := by
  have hhold : longestThinkPrefixSuffix s = q.pending.length := h.hold
  have hsuffix : q.pending <:+ s := h.consumed.text ▸ List.suffix_append ..
  rw [← longest_of_suffix hsuffix fun m k hk hin => hhold ▸ longest_covers s m k hk hin]
  exact hhold

theorem pushAll_drained {w : List Char} {parts : List Part} {start : ThinkOutputRouter} {events : List ThinkRouteEvent}
    (h : Drained start w parts (p, events)) (chunks : List (List Char)) :
    ∃ parts', Drained start (w ++ chunks.flatten) parts' ((p.pushAll chunks).1, events ++ (p.pushAll chunks).2) := by
  induction chunks generalizing p w parts events with
  | nil =>
    rw [List.flatten_nil, List.append_nil, pushAll, List.append_nil]
    exact ⟨parts, h⟩
  | cons chunk chunks ih =>
    obtain ⟨parts', hpush⟩ := push_drained h.settled h.held chunk
    rw [List.flatten_cons, ← List.append_assoc, pushAll]
    dsimp only
    rw [← List.append_assoc]
    exact ih (h.trans hpush)

private theorem drained_new (startedInThink : Bool) : Drained (new startedInThink) [] [] (new startedInThink, []) :=
  ⟨.refl _ _, rfl, rfl, (by decide : nextThinkMarker [] = none)⟩

theorem pushAll_new (startedInThink : Bool) (chunks : List (List Char)) :
    ∃ parts, Drained (new startedInThink) chunks.flatten parts ((new startedInThink).pushAll chunks) :=
  pushAll_drained (drained_new startedInThink) chunks

/-- What is held is no marker yet: its parts are its characters. -/
private theorem split_settled (st : ThinkState) {s : List Char} (h : nextThinkMarker s = none) :
    split st 0 s = plain st s := by
  have hclear : Clear s.length s := fun i _ m => nextThinkMarker_none h m i
  rw [split_text le_rfl hclear, List.take_length, List.drop_length]
  exact List.append_nil _

/-- Finishing gives what is held as it stands. -/
theorem finish_spec (h : nextThinkMarker p.pending = none) :
    merged p.finish.2 = Channels.merge ((split p.state 0 p.pending).filterMap Part.piece) ∧
      p.finish.1.state = after p.state (split p.state 0 p.pending) := by
  rw [split_settled p.state h, finish, drain_none h, if_pos rfl, Nat.sub_zero]
  dsimp only
  split
  · rw [List.take_length, List.drop_length]
    obtain ⟨hevents, hstate⟩ := emit_emits { p with pending := [] } p.pending
    exact ⟨hevents, hstate⟩
  · rename_i hempty
    rw [List.length_eq_zero_iff.mp (Nat.eq_zero_of_not_pos hempty)]
    exact ⟨rfl, rfl⟩

private theorem eq_of_state {q : ThinkOutputRouter} (hstate : p.state = q.state) (hpending : p.pending = q.pending) :
    p = q := by
  obtain ⟨inThink, pending, strip⟩ := p
  obtain ⟨inThink', pending', strip'⟩ := q
  cases hstate
  cases hpending
  rfl

/-- Two rounds over one text end in the same router, with the same parts. -/
private theorem Drained.unique {s : List Char} {parts parts' : List Part}
    {out out' : ThinkOutputRouter × List ThinkRouteEvent}
    (h : Drained p s parts out) (h' : Drained p s parts' out') : merged out.2 = merged out'.2 ∧ out.1 = out'.1 := by
  have hrest : out.1.pending = out'.1.pending := by
    have hsuffix : out.1.pending <:+ s := h.consumed.text ▸ List.suffix_append ..
    have hsuffix' : out'.1.pending <:+ s := h'.consumed.text ▸ List.suffix_append ..
    have hlength := h.hold.symm.trans h'.hold
    exact (List.suffix_of_suffix_length_le hsuffix hsuffix' hlength.le).eq_of_length hlength
  obtain ⟨hparts, hstate⟩ := (hrest ▸ h.consumed).unique h'.consumed
  exact ⟨by rw [h.events, h'.events, hparts], eq_of_state hstate hrest⟩

/-- However a text is cut into chunks, the merged events, the think state and what is still held
are those of one push; finishing completes the channels' text of the whole, which is the text
without its markers and the newlines right after a closing one. -/
theorem think_routing (startedInThink : Bool) (chunks : List (List Char)) :
    let out := (new startedInThink).pushAll chunks
    let parts := split ⟨startedInThink, false⟩ 0 chunks.flatten
    merged out.2 = merged ((new startedInThink).push chunks.flatten).2 ∧
      out.1 = ((new startedInThink).push chunks.flatten).1 ∧
      merged (out.2 ++ out.1.finish.2) = Channels.merge (parts.filterMap Part.piece) ∧
      out.1.finish.1.inThink = (after ⟨startedInThink, false⟩ parts).inThink ∧
      parts.flatMap Part.text = chunks.flatten ∧
      (∀ front c back, parts = front ++ .newline c :: back → isNewline c ∧ AfterCloser front) ∧
      ∀ front c back, parts = front ++ .content c :: back → isNewline c → ¬ AfterCloser front := by
  intro out parts
  obtain ⟨found, hout⟩ := pushAll_new startedInThink chunks
  obtain ⟨found', hpush⟩ := push_drained (drained_new startedInThink).settled (drained_new startedInThink).held chunks.flatten
  obtain ⟨hsame, hrouter⟩ := hout.unique hpush
  have hvalid : Valid ⟨startedInThink, false⟩ parts := split_valid _ 0 chunks.flatten
  have hparts : parts = found ++ split out.1.state 0 out.1.pending := by
    have hahead := hout.consumed.ahead []
    rwa [List.append_nil, List.append_nil] at hahead
  obtain ⟨hfinish, hstate⟩ := finish_spec hout.settled
  refine ⟨hsame, hrouter, ?_, ?_, ?_, ?_, ?_⟩
  · rw [hparts]
    exact merged_append hout.events hfinish
  · rw [hparts, after_append]
    have hfound : after ⟨startedInThink, false⟩ found = out.1.state := hout.consumed.state.symm
    rw [hfound, ← hstate]
    rfl
  · rw [hparts, split_settled _ hout.settled, List.flatMap_append, plain_text]
    exact hout.consumed.text.symm
  · intro front c back heq
    exact newlines_dropped.1 (heq ▸ hvalid)
  · intro front c back heq
    exact newlines_dropped.2 (heq ▸ hvalid)

end ThinkOutputRouter
end Hipscope.Emit.Think
