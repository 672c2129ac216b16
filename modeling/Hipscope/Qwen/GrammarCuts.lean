import Hipscope.Qwen.Grammar
import Hipscope.Text.Search

/-! Cutting a text into tokens does not change where the matcher ends. -/
namespace Hipscope.Qwen
open Text
variable {vars : NgramVars} {m m' n r : Matcher} {x y buf hist : List Char} {byte : UInt8}

namespace Matcher

/-- The two texts of a matcher that the scanner does not look at. -/
def setText (m : Matcher) (hist buf : List Char) : Matcher := { m with ngramHistory := hist, partialBuf := buf }

theorem pushAttractorByte_setText :
    (m.setText hist buf).pushAttractorByte vars byte = (m.pushAttractorByte vars byte).setText hist buf := by
  unfold pushAttractorByte
  by_cases hflag : m.attractorDetected = true
  · rw [if_pos hflag, if_pos (show (m.setText hist buf).attractorDetected = true from hflag)]
  · rw [if_neg hflag, if_neg (show ¬ (m.setText hist buf).attractorDetected = true from hflag)]
    by_cases hwide : 0x80 ≤ byte
    · rw [if_pos hwide, if_pos hwide]
    · rw [if_neg hwide, if_neg hwide]
      simp only [setText]

theorem argsByte_setText : (m.setText hist buf).argsByte vars byte = (m.argsByte vars byte).setText hist buf := by
  unfold argsByte
  rw [pushAttractorByte_setText]
  by_cases hescape : m.argsStringEscape = true
  · rw [if_pos hescape, if_pos (show (m.setText hist buf).argsStringEscape = true from hescape)]
    rfl
  · rw [if_neg hescape, if_neg (show ¬ (m.setText hist buf).argsStringEscape = true from hescape)]
    by_cases hstring : m.argsInString = true
    · rw [if_pos hstring, if_pos (show (m.setText hist buf).argsInString = true from hstring)]
      split
      · rfl
      · split <;> rfl
    · rw [if_neg hstring, if_neg (show ¬ (m.setText hist buf).argsInString = true from hstring)]
      simp only
      split
      · rfl
      · split
        · rfl
        · split <;> rfl

theorem foldl_argsByte_setText (bytes : List UInt8) :
    bytes.foldl (argsByte vars) (m.setText hist buf) = (bytes.foldl (argsByte vars) m).setText hist buf := by
  induction bytes generalizing m with
  | nil => rfl
  | cons byte bytes ih => rw [List.foldl_cons, List.foldl_cons, argsByte_setText, ih]

/-- The fields that no byte of the arguments changes. -/
structure SameFrame (m m' : Matcher) : Prop where
  state : m'.state = m.state
  tools : m'.tools = m.tools
  history : m'.ngramHistory = m.ngramHistory
  buf : m'.partialBuf = m.partialBuf

theorem SameFrame.trans (h : SameFrame m n) (h' : SameFrame n r) : SameFrame m r :=
  ⟨h'.state.trans h.state, h'.tools.trans h.tools, h'.history.trans h.history, h'.buf.trans h.buf⟩

theorem pushAttractorByte_frame (m : Matcher) : SameFrame m (m.pushAttractorByte vars byte) := by
  rw [pushAttractorByte]
  split
  · exact ⟨rfl, rfl, rfl, rfl⟩
  · split <;> exact ⟨rfl, rfl, rfl, rfl⟩

theorem argsByte_frame (m : Matcher) : SameFrame m (m.argsByte vars byte) := by
  have hpush : SameFrame m (m.pushAttractorByte vars byte) := pushAttractorByte_frame m
  rw [argsByte]
  split
  · exact ⟨rfl, rfl, rfl, rfl⟩
  · split
    · split
      · exact ⟨rfl, rfl, rfl, rfl⟩
      · split <;> exact ⟨rfl, rfl, rfl, rfl⟩
    · simp only
      split
      · exact hpush.trans ⟨rfl, rfl, rfl, rfl⟩
      · split
        · exact hpush.trans ⟨rfl, rfl, rfl, rfl⟩
        · split
          · exact hpush.trans ⟨rfl, rfl, rfl, rfl⟩
          · exact hpush

theorem updateArgsBraceState_frame (m : Matcher) (text : List Char) : SameFrame m (m.updateArgsBraceState vars text) := by
  have hfold : ∀ (bytes : List UInt8) (m : Matcher), SameFrame m (bytes.foldl (argsByte vars) m) := by
    intro bytes
    induction bytes with
    | nil => exact fun m => ⟨rfl, rfl, rfl, rfl⟩
    | cons byte bytes ih => exact fun m => (argsByte_frame m).trans (ih _)
  exact hfold _ m

theorem feed_eq (m : Matcher) (x : List Char) :
    m.feed vars x = (m.updateArgsBraceState vars x).setText (lastBytes ngramWindow (m.ngramHistory ++ x)) m.partialBuf :=
  foldl_argsByte_setText (m := m) (utf8Bytes x)

theorem feed_setText : (m.setText hist buf).feed vars x =
    (m.updateArgsBraceState vars x).setText (lastBytes ngramWindow (hist ++ x)) buf := by
  rw [feed_eq, updateArgsBraceState, foldl_argsByte_setText]
  rfl

/-- The two windows and the scanner take a text in one piece or in two. -/
theorem feed_append (m : Matcher) (x y : List Char) : m.feed vars (x ++ y) = (m.feed vars x).feed vars y := by
  have hfold : m.updateArgsBraceState vars (x ++ y) = (m.updateArgsBraceState vars x).updateArgsBraceState vars y := by
    rw [updateArgsBraceState, utf8Bytes, List.flatMap_append, List.foldl_append]
    rfl
  rw [feed_eq, feed_eq m x, feed_setText, hfold, lastBytes_append, List.append_assoc]

@[simp] theorem feed_state (m : Matcher) (x : List Char) : (m.feed vars x).state = m.state := by
  rw [feed_eq]
  exact (updateArgsBraceState_frame m x).state

@[simp] theorem feed_tools (m : Matcher) (x : List Char) : (m.feed vars x).tools = m.tools := by
  rw [feed_eq]
  exact (updateArgsBraceState_frame m x).tools

@[simp] theorem feed_partialBuf (m : Matcher) (x : List Char) : (m.feed vars x).partialBuf = m.partialBuf := by
  rw [feed_eq]
  rfl

/-- The buffer alone. -/
def setBuf (m : Matcher) (buf : List Char) : Matcher := { m with partialBuf := buf }

@[simp] theorem setBuf_setBuf (m : Matcher) (x y : List Char) : (m.setBuf x).setBuf y = m.setBuf y := rfl
@[simp] theorem setBuf_state (m : Matcher) (x : List Char) : (m.setBuf x).state = m.state := rfl
@[simp] theorem setBuf_partialBuf (m : Matcher) (x : List Char) : (m.setBuf x).partialBuf = x := rfl

theorem setBuf_feed : (m.setBuf buf).feed vars x = (m.feed vars x).setBuf buf := by
  have hset : m.setBuf buf = m.setText m.ngramHistory buf := rfl
  rw [hset, feed_setText, feed_eq]
  rfl

theorem give_of_ne (h : m.state ≠ .inArgs) (y : List Char) : m.give vars y = m.setBuf (m.partialBuf ++ y) := by
  rw [give, if_neg h]
  rfl

theorem give_of_inArgs (h : m.state = .inArgs) (y : List Char) :
    m.give vars y = (m.feed vars y).setBuf (m.partialBuf ++ y) := by
  rw [give, if_pos h]
  simp only [feed_partialBuf]
  rfl

theorem give_partialBuf (m : Matcher) (y : List Char) : (m.give vars y).partialBuf = m.partialBuf ++ y := by
  by_cases h : m.state = .inArgs
  · rw [give_of_inArgs h]
    rfl
  · rw [give_of_ne h]
    rfl

theorem give_append (m : Matcher) (x y : List Char) : m.give vars (x ++ y) = (m.give vars x).give vars y := by
  by_cases h : m.state = .inArgs
  · have h' : (m.give vars x).state = .inArgs := by
      rw [give_of_inArgs h]
      exact (feed_state m x).trans h
    rw [give_of_inArgs h, give_of_inArgs h', give_of_inArgs h, setBuf_feed, feed_append, ← List.append_assoc]
    rfl
  · have h' : (m.give vars x).state ≠ .inArgs := by
      rw [give_of_ne h]
      exact h
    rw [give_of_ne h, give_of_ne h', give_of_ne h, ← List.append_assoc]
    rfl

end Matcher

/-- Transitions until one stays. -/
inductive Settles (vars : NgramVars) : Matcher → Matcher → Prop where
  | stay {m m' : Matcher} (h : m.transitionOnce vars = (.stay, m')) : Settles vars m m'
  | advance {m n r : Matcher} (h : m.transitionOnce vars = (.advanced, n)) (hr : Settles vars n r) : Settles vars m r

theorem Settles.unique (h : Settles vars m r) (h' : Settles vars m m') : r = m' := by
  induction h with
  | stay h =>
    cases h' with
    | stay h' => exact (Prod.mk.inj (h.symm.trans h')).2
    | advance h' => cases h.symm.trans h'
  | advance h _ ih =>
    cases h' with
    | stay h' => cases h.symm.trans h'
    | advance h' hr' =>
      rw [← (Prod.mk.inj (h.symm.trans h')).2] at hr'
      exact ih hr'

/-- Where two matchers take the same step, they settle alike. -/
theorem Settles.congr (h : Settles vars m r) (heq : n.transitionOnce vars = m.transitionOnce vars) : Settles vars n r := by
  cases h with
  | stay h => exact .stay (heq.trans h)
  | advance h hr => exact .advance (heq.trans h) hr

section Step

/-- What is kept of a text without the marker serves the rest like the whole. -/
private theorem search_kept {marker : List Char} (hne : marker ≠ []) (hnone : memmem x marker = none) (y : List Char) :
    (memmem (x ++ y) marker).map (fun i => (x ++ y).drop (i + marker.length)) =
      (memmem (Matcher.keepTail marker x ++ y) marker).map fun i =>
        (Matcher.keepTail marker x ++ y).drop (i + marker.length) := by
  obtain ⟨front, hfront⟩ := lastBytes_suffix (String.utf8Len marker - 1) x
  have hwhole : front ++ Matcher.keepTail marker x = x := hfront
  have hkeeps : ∀ t, t <:+ front ++ Matcher.keepTail marker x → t <+: marker → t ≠ marker →
      t <:+ Matcher.keepTail marker x := by
    intro t hsuffix hbegins hproper
    refine lastBytes_longest (hwhole ▸ hsuffix) ?_
    have := utf8Len_lt_of_prefix hbegins hproper
    omega
  have hfound := memmem_kept hne (hwhole.symm ▸ hnone) hkeeps y
  rw [hwhole] at hfound
  rw [hfound]
  cases memmem (Matcher.keepTail marker x ++ y) marker with
  | none => rfl
  | some i =>
    rw [Option.map_some, Option.map_some, Option.map_some, Nat.add_assoc, ← List.drop_drop]
    conv_lhs => rw [← hwhole, List.append_assoc, List.drop_left]

/-- The buffer behind the marker, if the marker is there. -/
def behind (marker buf : List Char) : Option (List Char) :=
  (memmem buf marker).map fun i => buf.drop (i + marker.length)

theorem behind_append {marker : List Char} (hne : marker ≠ []) (h : behind marker x = some buf) (y : List Char) :
    behind marker (x ++ y) = some (buf ++ y) := by
  cases hfind : memmem x marker with
  | none =>
    rw [behind, hfind] at h
    cases h
  | some i =>
    rw [behind, hfind] at h
    cases h
    obtain ⟨-, hfit, -⟩ := memmem_some hne hfind
    rw [behind, memmem_append hne hfind, Option.map_some, List.drop_append_of_le_length hfit]

theorem behind_length {marker : List Char} (hne : marker ≠ []) (h : behind marker x = some buf) :
    buf.length < x.length := by
  obtain ⟨i, hi, rfl⟩ := Option.map_eq_some_iff.1 h
  obtain ⟨-, hfit, -⟩ := memmem_some hne hi
  have := List.length_pos_iff.2 hne
  rw [List.length_drop]
  omega

theorem behind_kept {marker : List Char} (hne : marker ≠ []) (hnone : behind marker x = none) (y : List Char) :
    behind marker (x ++ y) = behind marker (Matcher.keepTail marker x ++ y) :=
  search_kept hne (Option.map_eq_none_iff.1 hnone) y

/-- What a closed call leaves of the matcher. -/
def Matcher.closed (m : Matcher) (buf : List Char) : Matcher := ⟨.out, buf, m.tools, [], [], false, none, 0, false, false⟩

/-- The arguments of a tool begin. -/
def Matcher.opened (m : Matcher) (idx : ℕ) (rest : List Char) : Matcher :=
  ⟨.inArgs, rest, m.tools, m.ngramHistory, m.attractorBuf, m.attractorDetected, some idx, 0, false, false⟩

/-- A call begins. -/
def Matcher.entered (m : Matcher) (buf : List Char) : Matcher := { m with state := .afterOpen, partialBuf := buf }

theorem transitionOnce_out (h : m.state = .out) (buf : List Char) :
    (m.setBuf buf).transitionOnce vars = (behind openMarker buf).elim
      (.stay, m.setBuf (Matcher.keepTail openMarker buf)) fun rest => (.advanced, m.entered rest) := by
  cases m
  cases h
  rw [Matcher.setBuf, Matcher.transitionOnce, behind]
  cases memmem _ openMarker <;> rfl

theorem transitionOnce_inArgs (h : m.state = .inArgs) (buf : List Char) :
    (m.setBuf buf).transitionOnce vars = (behind closeMarker buf).elim
      (.stay, m.setBuf (Matcher.keepTail closeMarker buf)) fun rest => (.advanced, m.closed rest) := by
  cases m
  cases h
  rw [Matcher.setBuf, Matcher.transitionOnce, behind]
  cases memmem _ closeMarker <;> rfl

/-- The arguments begin with what came behind the header. -/
def Matcher.begun (vars : NgramVars) (m : Matcher) (idx : ℕ) (rest : List Char) : Matcher :=
  if rest = [] then m.opened idx [] else (m.opened idx rest).feed vars rest

/-- What comes behind the first piece of the arguments is fed to the begun matcher. -/
private theorem begun_append (idx : ℕ) (rest : List Char) (hy : y ≠ []) :
    m.begun vars idx (rest ++ y) = (m.begun vars idx rest).give vars y := by
  have hopened : (m.opened idx rest).state = .inArgs := rfl
  rw [Matcher.begun, if_neg (List.append_ne_nil_of_right_ne_nil _ hy), Matcher.begun]
  split
  · next hrest =>
    subst hrest
    rw [Matcher.give_of_inArgs rfl, ← Matcher.setBuf_feed]
    rfl
  · rw [Matcher.give_of_inArgs ((Matcher.feed_state _ _).trans hopened), ← Matcher.feed_append, ← Matcher.setBuf_feed,
      Matcher.feed_partialBuf]
    rfl

theorem transitionOnce_afterOpen (h : m.state = .afterOpen) (buf : List Char) :
    (m.setBuf buf).transitionOnce vars =
      (m.tools.zipIdx.find? fun schema => schema.1.header.isPrefixOf buf).elim (.stay, m.setBuf buf)
        fun schema => (.advanced, m.begun vars schema.2 (buf.drop schema.1.header.length)) := by
  have hbegun : ∀ idx rest, m.begun vars idx rest =
      if rest = [] then m.opened idx rest else (m.opened idx rest).feed vars rest := by
    intro idx rest
    rw [Matcher.begun]
    split
    · next hrest => rw [hrest]
    · rfl
  simp only [hbegun]
  cases m
  cases h
  rw [Matcher.setBuf, Matcher.transitionOnce]
  cases List.find? _ _ <;> rfl

/-- Names without quotes. -/
def QuoteFree (tools : List ToolSchema) : Prop := ∀ schema ∈ tools, '"' ∉ schema.name

/-- Of two headers one begins the other only if they are the same. -/
theorem QuoteFree.header_eq {tools : List ToolSchema} (hquote : QuoteFree tools) {a b : ToolSchema} (ha : a ∈ tools)
    (hb : b ∈ tools) (h : a.header <+: b.header) : a.header = b.header := by
  rw [ToolSchema.header, ToolSchema.header, List.append_assoc, List.append_assoc, List.prefix_append_right_inj] at h
  have hname : a.name = b.name := eq_of_closed_prefix (hquote a ha) (hquote b hb) h
  rw [ToolSchema.header, ToolSchema.header, hname]

theorem find_header_append (hquote : QuoteFree m.tools) {schema : ToolSchema × ℕ}
    (h : m.tools.zipIdx.find? (fun schema => schema.1.header.isPrefixOf x) = some schema) (y : List Char) :
    m.tools.zipIdx.find? (fun schema => schema.1.header.isPrefixOf (x ++ y)) = some schema := by
  refine find_append (f := fun schema : ToolSchema × ℕ => schema.1.header) ?_ h y
  refine List.pairwise_of_forall_mem_list fun a ha b hb hin => ?_
  obtain ⟨⟨c, i⟩, hc, rfl⟩ := List.mem_map.1 ha
  obtain ⟨⟨d, j⟩, hd, rfl⟩ := List.mem_map.1 hb
  exact (hquote.header_eq (List.fst_mem_of_mem_zipIdx hd) (List.fst_mem_of_mem_zipIdx hc) hin).symm

private theorem openMarker_ne : openMarker ≠ [] := List.cons_ne_nil _ _

private theorem closeMarker_ne : closeMarker ≠ [] := List.cons_ne_nil _ _

private theorem keepTail_append (marker x y : List Char) :
    Matcher.keepTail marker (Matcher.keepTail marker x ++ y) = Matcher.keepTail marker (x ++ y) := lastBytes_append _ x y

theorem transitionOnce_length (h : m.transitionOnce vars = (.advanced, n)) : n.partialBuf.length < m.partialBuf.length := by
  cases hσ : m.state with
  | out =>
    have h := (transitionOnce_out hσ m.partialBuf).symm.trans h
    cases hbehind : behind openMarker m.partialBuf with
    | none =>
      rw [hbehind] at h
      cases h
    | some buf =>
      rw [hbehind] at h
      cases h
      exact behind_length openMarker_ne hbehind
  | inArgs =>
    have h := (transitionOnce_inArgs hσ m.partialBuf).symm.trans h
    cases hbehind : behind closeMarker m.partialBuf with
    | none =>
      rw [hbehind] at h
      cases h
    | some buf =>
      rw [hbehind] at h
      cases h
      exact behind_length closeMarker_ne hbehind
  | afterOpen =>
    have h := (transitionOnce_afterOpen hσ m.partialBuf).symm.trans h
    cases hfind : m.tools.zipIdx.find? fun schema => schema.1.header.isPrefixOf m.partialBuf with
    | none =>
      rw [hfind] at h
      cases h
    | some schema =>
      rw [hfind] at h
      cases h
      have hin : schema.1.header <+: m.partialBuf := List.isPrefixOf_iff_prefix.1 (by simpa using List.find?_some hfind)
      have hpos : 0 < schema.1.header.length := by
        rw [ToolSchema.header, List.append_assoc, List.length_append]
        exact Nat.add_pos_left (by decide) _
      have hbuf : (m.begun vars schema.2 (m.partialBuf.drop schema.1.header.length)).partialBuf =
          m.partialBuf.drop schema.1.header.length := by
        rw [Matcher.begun]
        split
        · next hrest => rw [hrest]; rfl
        · exact Matcher.feed_partialBuf _ _
      have := hin.length_le
      simp only [hbuf, List.length_drop]
      omega

theorem settles_settle {rounds : ℕ} (h : m.partialBuf.length < rounds) : Settles vars m (m.settle vars rounds) := by
  induction rounds generalizing m with
  | zero => exact absurd h (Nat.not_lt_zero _)
  | succ rounds ih =>
    rw [Matcher.settle]
    rcases hstep : m.transitionOnce vars with ⟨transition, m'⟩
    cases transition with
    | stay => exact .stay hstep
    | advanced =>
      have := transitionOnce_length hstep
      exact .advance hstep (ih (by omega))

theorem advance_settles (hy : y ≠ []) : Settles vars (m.give vars y) (m.advance vars y) := by
  rw [Matcher.advance, if_neg hy]
  refine settles_settle ?_
  rw [Matcher.give_partialBuf]
  exact Nat.lt_succ_self _

theorem transitionOnce_tools {tr : Matcher.Transition} (h : m.transitionOnce vars = (tr, n)) : n.tools = m.tools := by
  have hout : ((m.setBuf m.partialBuf).transitionOnce vars).2 = n := congrArg Prod.snd h
  rw [← hout]
  cases hσ : m.state with
  | out =>
    rw [transitionOnce_out hσ]
    cases behind openMarker m.partialBuf <;> rfl
  | inArgs =>
    rw [transitionOnce_inArgs hσ]
    cases behind closeMarker m.partialBuf <;> rfl
  | afterOpen =>
    rw [transitionOnce_afterOpen hσ]
    cases m.tools.zipIdx.find? fun schema => schema.1.header.isPrefixOf m.partialBuf with
    | none => rfl
    | some schema =>
      rw [Option.elim_some, Matcher.begun]
      split
      · rfl
      · exact Matcher.feed_tools _ _

/-- A matcher that stays does so again with more text behind it, or steps like the whole. -/
theorem give_of_stay (h : m.transitionOnce vars = (.stay, m')) (y : List Char) :
    (m.give vars y).transitionOnce vars = (m'.give vars y).transitionOnce vars := by
  cases hσ : m.state with
  | out =>
    have h := (transitionOnce_out hσ m.partialBuf).symm.trans h
    cases hbehind : behind openMarker m.partialBuf with
    | some buf =>
      rw [hbehind] at h
      cases h
    | none =>
      rw [hbehind] at h
      cases h
      have hne : m.state ≠ .inArgs := fun h => by cases hσ.symm.trans h
      rw [Matcher.give_of_ne hne, Matcher.give_of_ne (by exact hne), Matcher.setBuf_setBuf, Matcher.setBuf_partialBuf,
        transitionOnce_out hσ, transitionOnce_out hσ, behind_kept openMarker_ne hbehind, keepTail_append]
  | inArgs =>
    have h := (transitionOnce_inArgs hσ m.partialBuf).symm.trans h
    cases hbehind : behind closeMarker m.partialBuf with
    | some buf =>
      rw [hbehind] at h
      cases h
    | none =>
      rw [hbehind] at h
      cases h
      have hfed : (m.feed vars y).state = .inArgs := (Matcher.feed_state m y).trans hσ
      rw [Matcher.give_of_inArgs hσ, Matcher.give_of_inArgs (by exact hσ), Matcher.setBuf_feed, Matcher.setBuf_setBuf,
        Matcher.setBuf_partialBuf, transitionOnce_inArgs hfed, transitionOnce_inArgs hfed,
        behind_kept closeMarker_ne hbehind, keepTail_append]
  | afterOpen =>
    have h := (transitionOnce_afterOpen hσ m.partialBuf).symm.trans h
    cases hfind : m.tools.zipIdx.find? fun schema => schema.1.header.isPrefixOf m.partialBuf with
    | some schema =>
      rw [hfind] at h
      cases h
    | none =>
      rw [hfind] at h
      cases h
      rfl

/-- A step of a matcher is a step with more text behind it. -/
theorem give_of_advanced (hquote : QuoteFree m.tools) (h : m.transitionOnce vars = (.advanced, n)) (hy : y ≠ []) :
    (m.give vars y).transitionOnce vars = (.advanced, n.give vars y) := by
  cases hσ : m.state with
  | out =>
    have h := (transitionOnce_out hσ m.partialBuf).symm.trans h
    cases hbehind : behind openMarker m.partialBuf with
    | none =>
      rw [hbehind] at h
      cases h
    | some buf =>
      rw [hbehind] at h
      cases h
      have hne : m.state ≠ .inArgs := fun h => by cases hσ.symm.trans h
      have hentered : (m.entered buf).state ≠ .inArgs := fun h => by cases h
      rw [Matcher.give_of_ne hne, transitionOnce_out hσ, behind_append openMarker_ne hbehind, Matcher.give_of_ne hentered]
      rfl
  | inArgs =>
    have h := (transitionOnce_inArgs hσ m.partialBuf).symm.trans h
    cases hbehind : behind closeMarker m.partialBuf with
    | none =>
      rw [hbehind] at h
      cases h
    | some buf =>
      rw [hbehind] at h
      cases h
      have hfed : (m.feed vars y).state = .inArgs := (Matcher.feed_state m y).trans hσ
      have hclosed : (m.closed buf).state ≠ .inArgs := fun h => by cases h
      rw [Matcher.give_of_inArgs hσ, transitionOnce_inArgs hfed, behind_append closeMarker_ne hbehind,
        Matcher.give_of_ne hclosed, Option.elim_some, Matcher.closed, Matcher.feed_tools]
      rfl
  | afterOpen =>
    have h := (transitionOnce_afterOpen hσ m.partialBuf).symm.trans h
    cases hfind : m.tools.zipIdx.find? fun schema => schema.1.header.isPrefixOf m.partialBuf with
    | none =>
      rw [hfind] at h
      cases h
    | some schema =>
      rw [hfind] at h
      cases h
      have hne : m.state ≠ .inArgs := fun h => by cases hσ.symm.trans h
      have hin : schema.1.header <+: m.partialBuf := List.isPrefixOf_iff_prefix.1 (by simpa using List.find?_some hfind)
      rw [Matcher.give_of_ne hne, transitionOnce_afterOpen hσ, find_header_append hquote hfind, Option.elim_some,
        List.drop_append_of_le_length hin.length_le, begun_append _ _ hy]

end Step

section Append
variable {a b : List Char}

theorem give_tools (m : Matcher) (y : List Char) : (m.give vars y).tools = m.tools := by
  by_cases h : m.state = .inArgs
  · rw [Matcher.give_of_inArgs h]
    exact Matcher.feed_tools m y
  · rw [Matcher.give_of_ne h]
    rfl

theorem Settles.tools (h : Settles vars m r) : r.tools = m.tools := by
  induction h with
  | stay h => exact transitionOnce_tools h
  | advance h _ ih => exact ih.trans (transitionOnce_tools h)

/-- A matcher that has settled goes on like one that has not. -/
theorem Settles.give (hquote : QuoteFree m.tools) (hy : y ≠ []) (h : Settles vars m m')
    (hr : Settles vars (m'.give vars y) r) : Settles vars (m.give vars y) r := by
  induction h with
  | stay h => exact hr.congr (give_of_stay h y)
  | advance h _ ih => exact .advance (give_of_advanced hquote h hy) (ih (transitionOnce_tools h ▸ hquote) hr)

private theorem settles_twice (hquote : QuoteFree m.tools) (ha : a ≠ []) (hb : b ≠ []) :
    Settles vars (m.give vars (a ++ b)) ((m.advance vars a).advance vars b) := by
  rw [Matcher.give_append]
  exact (advance_settles ha).give ((give_tools m a : (m.give vars a).tools = m.tools) ▸ hquote) hb (advance_settles hb)

theorem advance_nil (m : Matcher) : m.advance vars [] = m := by rw [Matcher.advance, if_pos rfl]

theorem advance_tools (m : Matcher) (a : List Char) : (m.advance vars a).tools = m.tools := by
  by_cases ha : a = []
  · rw [Matcher.advance, if_pos ha]
  · exact (advance_settles ha).tools.trans (give_tools m a)

/-- A text ends in the same matcher however it is cut into tokens. -/
theorem advanceAll_flatten (hquote : QuoteFree m.tools) (tokens : List (List Char)) :
    m.advanceAll vars tokens = m.advance vars tokens.flatten := by
  induction tokens generalizing m with
  | nil => rfl
  | cons token tokens ih =>
    rw [Matcher.advanceAll, List.foldl_cons, List.flatten_cons]
    have hrest := ih (m := m.advance vars token) (advance_tools m token ▸ hquote)
    rw [Matcher.advanceAll] at hrest
    rw [hrest]
    by_cases htoken : token = []
    · rw [htoken, advance_nil, List.nil_append]
    · by_cases htokens : tokens.flatten = []
      · rw [htokens, advance_nil, List.append_nil]
      · exact (settles_twice hquote htoken htokens).unique
          (advance_settles (List.append_ne_nil_of_left_ne_nil htoken _))

/-- Two calls of `advance` are one call with the text of both. -/
theorem advance_append (hquote : QuoteFree m.tools) (a b : List Char) :
    (m.advance vars a).advance vars b = m.advance vars (a ++ b) := by
  have h : m.advanceAll vars [a, b] = m.advance vars [a, b].flatten := advanceAll_flatten hquote [a, b]
  rwa [List.flatten_cons, List.flatten_singleton] at h

/-- A closing marker over two calls, and the start of the next block. -/
theorem advance_append_bash :
    ((Matcher.new [⟨"bash".toList, ["command".toList]⟩]).advance ⟨none, none⟩ "<tool_call>\n\x7b\"name\": \"ba".toList).advance
        ⟨none, none⟩ "sh\", \"arguments\": \x7b\"command\": \"ls\"\x7d\x7d\n</tool_call><tool".toList =
      (Matcher.new [⟨"bash".toList, ["command".toList]⟩]).advance ⟨none, none⟩
        ("<tool_call>\n\x7b\"name\": \"ba".toList ++
          "sh\", \"arguments\": \x7b\"command\": \"ls\"\x7d\x7d\n</tool_call><tool".toList) := by
  refine advance_append (fun schema hmem => ?_) _ _
  rw [Matcher.new, List.mem_singleton] at hmem
  rw [hmem]
  decide

end Append
end Hipscope.Qwen
