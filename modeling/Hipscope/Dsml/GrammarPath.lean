import Mathlib.Data.List.Find
import Hipscope.Dsml.Grammar
import Hipscope.Text.Search

/-! Texts the matcher follows. Characters are marked: those of a parameter's value apart from
those of the structure around it. -/
namespace Hipscope.Dsml.Grammar
open Text

/-- A marked character; the mark tells whether it belongs to a value. -/
abbrev Marked := Char × Bool

def structural (s : List Char) : List Marked := s.map fun c => (c, false)
def valueText (s : List Char) : List Marked := s.map fun c => (c, true)
def plain (s : List Marked) : List Char := s.map Prod.fst

@[simp] theorem plain_append (s t : List Marked) : plain (s ++ t) = plain s ++ plain t := List.map_append
@[simp] theorem plain_nil : plain [] = [] := rfl
@[simp] theorem plain_cons (x : Marked) (s : List Marked) : plain (x :: s) = x.1 :: plain s := rfl
@[simp] theorem plain_length (s : List Marked) : (plain s).length = s.length := List.length_map _
@[simp] theorem plain_structural (s : List Char) : plain (structural s) = s := by simp [plain, structural, Function.comp_def]
@[simp] theorem plain_valueText (s : List Char) : plain (valueText s) = s := by simp [plain, valueText, Function.comp_def]
@[simp] theorem structural_length (s : List Char) : (structural s).length = s.length := List.length_map _
@[simp] theorem valueText_length (s : List Char) : (valueText s).length = s.length := List.length_map _
@[simp] theorem structural_append (s t : List Char) : structural (s ++ t) = structural s ++ structural t := List.map_append
theorem structural_cons (c : Char) (s : List Char) : structural (c :: s) = (c, false) :: structural s := rfl

/-- The markers a state waits for, each with the state behind it. -/
def alternatives (tools : List ToolSchema) : State → List (List Char × State)
  | .out => [(openToolCalls, .inToolCalls)]
  | .inToolCalls => Matcher.toolCallsAlternatives
  | .inInvokeName toolIdx => (toolCandidates tools toolIdx).map fun c => (c.2, .inInvokeBody c.1 [])
  | .inInvokeBody toolIdx emittedParams => Matcher.invokeBodyAlternatives tools toolIdx emittedParams
  | .inParamName toolIdx paramIdx emittedParams =>
    (paramCandidates (toolAt tools toolIdx) emittedParams paramIdx).map fun c =>
      (c.2, .inParamAttr toolIdx c.1 emittedParams)
  | .inParamAttr toolIdx paramIdx emittedParams => Matcher.attrAlternatives toolIdx paramIdx emittedParams
  | .inParamBody toolIdx paramIdx emittedParams =>
    [(closeParam, .inInvokeBody toolIdx (Matcher.addEmitted emittedParams paramIdx))]

theorem toolAt_eq {tools : List ToolSchema} {i : ℕ} {tool : ToolSchema} (h : tools[i]? = some tool) :
    toolAt tools i = tool := by
  rw [toolAt, h, Option.getD_some]

section Fixed
variable {tools : List ToolSchema} {i : ℕ} {emitted : List ℕ}

/-- The markers that do not depend on the schema. -/
def fixedMarkers : List (List Char) :=
  [openToolCalls, closeToolCalls, openInvoke, closeInvoke, openToolVariant, closeToolVariant, openParam, attrStringTrue,
    attrStringFalse]

theorem fixedMarkers_apart : ∀ a ∈ fixedMarkers, ∀ b ∈ fixedMarkers, a <+: b → a = b := by decide

theorem fixedMarkers_nonempty : ∀ a ∈ fixedMarkers, a ≠ [] := by decide

theorem invokeBody_fixed : ∀ a ∈ alternatives tools (.inInvokeBody i emitted), a.1 ∈ fixedMarkers := by
  intro a ha
  rw [alternatives, Matcher.invokeBodyAlternatives, List.mem_cons] at ha
  rcases ha with rfl | ha
  · exact (by decide : openParam ∈ fixedMarkers)
  · split at ha
    · rcases List.mem_pair.1 ha with rfl | rfl
      · decide
      · decide
    · cases ha

theorem toolCalls_fixed : ∀ a ∈ alternatives tools .inToolCalls, a.1 ∈ fixedMarkers := by
  change ∀ a ∈ Matcher.toolCallsAlternatives, a.1 ∈ fixedMarkers
  decide

end Fixed

/-- Inside a value. -/
def State.isBody : State → Bool
  | .inParamBody .. => true
  | _ => false

/-- The marker ahead, in a text no other marker of the state begins. -/
structure Ahead (tools : List ToolSchema) (σ : State) (marker : List Char) (σ' : State) (text : List Char) : Prop where
  isBody : σ.isBody = false
  first : (alternatives tools σ).find? (fun a => a.1 = marker) = some (marker, σ')
  only : ∀ a ∈ alternatives tools σ, a.1 <+: text → a.1 = marker
  nonempty : marker ≠ []
  noSpace : Matcher.stateAllowsLeadingWs σ = true → ∀ c ∈ marker.head?, Matcher.isWs c = false
  begins : marker <+: text

/-- The texts that lead from a state out of the block: markers, space between them, and values
without `</`. -/
inductive Legal (tools : List ToolSchema) : State → List Marked → Prop where
  | done : Legal tools .out []
  | space {σ : State} {c : Char} {M : List Marked} (hσ : Matcher.stateAllowsLeadingWs σ = true)
      (hc : Matcher.isWs c = true) (h : Legal tools σ M) : Legal tools σ ((c, false) :: M)
  | tag {σ σ' : State} {marker : List Char} {M : List Marked} (hahead : Ahead tools σ marker σ' (marker ++ plain M))
      (h : Legal tools σ' M) : Legal tools σ (structural marker ++ M)
  | value {toolIdx paramIdx : ℕ} {emittedParams : List ℕ} {v : List Char} {M : List Marked} (hv : ¬ ['<', '/'] <:+: v)
      (h : Legal tools (.inInvokeBody toolIdx (Matcher.addEmitted emittedParams paramIdx)) M) :
      Legal tools (.inParamBody toolIdx paramIdx emittedParams) (valueText v ++ (structural closeParam ++ M))

section Tail
variable {trigger buf s : List Char}

theorem dropToPrefix_suffix (trigger buf : List Char) : Matcher.dropToPrefix trigger buf <:+ buf := by
  induction buf with
  | nil => exact List.suffix_refl _
  | cons c rest ih =>
    rw [Matcher.dropToPrefix]
    split
    · exact List.suffix_refl _
    · exact ih.trans (List.suffix_cons c rest)

theorem dropToPrefix_prefix (trigger buf : List Char) : Matcher.dropToPrefix trigger buf <+: trigger := by
  induction buf with
  | nil => exact List.nil_prefix
  | cons c rest ih =>
    rw [Matcher.dropToPrefix]
    split
    · rename_i h
      exact List.isPrefixOf_iff_prefix.1 h
    · exact ih

/-- No longer tail can begin the trigger. -/
theorem dropToPrefix_longest (hs : s <:+ buf) (hp : s <+: trigger) : s <:+ Matcher.dropToPrefix trigger buf := by
  induction buf with
  | nil => rwa [Matcher.dropToPrefix]
  | cons c rest ih =>
    rw [Matcher.dropToPrefix]
    split
    · exact hs
    · rename_i h
      rcases List.suffix_cons_iff.1 hs with rfl | hs
      · exact absurd (List.isPrefixOf_iff_prefix.2 hp) h
      · exact ih hs

theorem keepTail_suffix (trigger buf : List Char) : Matcher.keepTail trigger buf <:+ buf := by
  rw [Matcher.keepTail]
  refine (dropToPrefix_suffix _ _).trans ?_
  split
  · exact List.drop_suffix _ _
  · exact List.suffix_refl _

theorem keepTail_begins (trigger buf : List Char) : Matcher.keepTail trigger buf <+: trigger := dropToPrefix_prefix _ _

/-- The cut by bytes loses no tail that can begin the trigger. -/
theorem keepTail_longest (hs : s <:+ buf) (hp : s <+: trigger) (hne : s ≠ trigger) :
    s <:+ Matcher.keepTail trigger buf := by
  rw [Matcher.keepTail]
  refine dropToPrefix_longest ?_ hp
  split
  · rename_i hlong
    have hshort := utf8Len_lt_of_prefix hp hne
    refine List.suffix_of_suffix_length_le hs (List.drop_suffix _ _) ?_
    by_contra hlt
    have hcut := utf8Len_take_safeSplit buf (String.utf8Len buf - (String.utf8Len trigger - 1))
    have hsplit := congrArg String.utf8Len (List.take_append_drop
      (utf8SafeSplit buf (String.utf8Len buf - (String.utf8Len trigger - 1))) buf)
    rw [String.utf8Len_append] at hsplit
    have hlt' := utf8Len_lt_of_suffix (List.suffix_of_suffix_length_le
      (List.drop_suffix (utf8SafeSplit buf (String.utf8Len buf - (String.utf8Len trigger - 1))) buf) hs (by omega))
      (fun heq => hlt (by rw [heq]))
    omega
  · exact hs

end Tail

section Close
variable {v X w c : List Char} {j : ℕ}

/-- `</` does not begin inside a value without it, even if the value ends with `<`. -/
theorem not_close_before (hv : ¬ ['<', '/'] <:+: v) (hj : j < v.length) : ¬ ['<', '/'] <+: (v ++ '<' :: X).drop j := by
  intro h
  rw [List.drop_append_of_le_length hj.le, List.drop_eq_getElem_cons hj, List.cons_append, List.cons_prefix_cons] at h
  obtain ⟨hhead, htail⟩ := h
  cases hrest : v.drop (j + 1) with
  | nil =>
    rw [hrest, List.nil_append, List.cons_prefix_cons] at htail
    exact absurd htail.1 (by decide)
  | cons d rest =>
    rw [hrest, List.cons_append, List.cons_prefix_cons] at htail
    refine hv ⟨v.take j, rest, ?_⟩
    have hsplit := List.take_append_drop j v
    rw [List.drop_eq_getElem_cons hj, hrest, ← hhead, ← htail.1] at hsplit
    simpa using hsplit

private theorem closeParam_eq : closeParam = '<' :: '/' :: closeParam.drop 2 := rfl

private theorem close_begins : ['<', '/'] <+: closeParam := ⟨closeParam.drop 2, rfl⟩

/-- The first closing marker is the one behind the value. -/
theorem memmem_closeParam (hv : ¬ ['<', '/'] <:+: v) (w : List Char) :
    memmem (v ++ (closeParam ++ w)) closeParam = some v.length := by
  refine memmem_eq_some (by decide) ?_ fun j hj h => ?_
  · rw [List.drop_left]
    exact List.prefix_append _ _
  · exact not_close_before hv hj (close_begins.trans h)

/-- It is not seen before it is complete. -/
theorem memmem_closeParam_none (hv : ¬ ['<', '/'] <:+: v) (hc : c <+: closeParam) (hne : c ≠ closeParam) :
    memmem (v ++ c) closeParam = none := by
  cases hfind : memmem (v ++ c) closeParam with
  | none => rfl
  | some j =>
    obtain ⟨hat, hfit, -⟩ := memmem_some (by decide) hfind
    obtain ⟨rest, hrest⟩ := hc
    have hpos : 0 < rest.length := by
      refine List.length_pos_iff.2 ?_
      rintro rfl
      exact hne (by simpa using hrest)
    have hlen := congrArg List.length hrest
    rw [List.length_append] at hlen hfit
    refine absurd (close_begins.trans (hat.trans ?_)) (not_close_before (X := closeParam.drop 1) hv (j := j) (by omega))
    have hwhole : v ++ '<' :: closeParam.drop 1 = (v ++ c) ++ rest := by
      rw [List.append_assoc, hrest]
      rfl
    rw [hwhole]
    exact (List.prefix_append (v ++ c) rest).drop j

/-- Of a value, only a last `<` is kept. -/
theorem keepTail_value (hv : ¬ ['<', '/'] <:+: v) :
    Matcher.keepTail closeParam v = if v.getLast? = some '<' then ['<'] else [] := by
  have hsuffix := keepTail_suffix closeParam v
  have hbegins := keepTail_begins closeParam v
  have hshape : Matcher.keepTail closeParam v = [] ∨ Matcher.keepTail closeParam v = ['<'] := by
    cases hk : Matcher.keepTail closeParam v with
    | nil => exact .inl rfl
    | cons a k =>
      rw [hk, closeParam_eq, List.cons_prefix_cons] at hbegins
      cases k with
      | nil => exact .inr (by rw [hbegins.1])
      | cons b k =>
        rw [List.cons_prefix_cons] at hbegins
        refine absurd (List.IsInfix.trans ?_ (hk ▸ hsuffix).isInfix) hv
        exact ⟨[], k, by rw [hbegins.1, hbegins.2.1]; rfl⟩
  split
  · rename_i hlast
    have hin : ['<'] <:+ Matcher.keepTail closeParam v := by
      refine keepTail_longest ?_ ⟨closeParam.drop 1, rfl⟩ (by decide)
      obtain ⟨front, rfl⟩ := List.getLast?_eq_some_iff.1 hlast
      exact List.suffix_append _ _
    rcases hshape with h | h
    · rw [h] at hin
      exact absurd (List.suffix_nil.1 hin) (by decide)
    · exact h
  · rename_i hlast
    rcases hshape with h | h
    · exact h
    · rw [h] at hsuffix
      obtain ⟨front, hfront⟩ := hsuffix
      exact absurd (by rw [← hfront, List.getLast?_append]; rfl) hlast

/-- Of a value and a begun closing marker, the marker is kept. -/
theorem keepTail_closing (hv : ¬ ['<', '/'] <:+: v) (hc : c <+: closeParam) (hne : c ≠ closeParam) (hpos : c ≠ []) :
    Matcher.keepTail closeParam (v ++ c) = c := by
  have hsuffix := keepTail_suffix closeParam (v ++ c)
  have hbegins := keepTail_begins closeParam (v ++ c)
  have hin : c <:+ Matcher.keepTail closeParam (v ++ c) := keepTail_longest (List.suffix_append _ _) hc hne
  refine (hin.eq_of_length_le ?_).symm
  by_contra hlt
  obtain ⟨front, hfront⟩ := hsuffix
  have hlen := congrArg List.length hfront
  rw [List.length_append, List.length_append] at hlen
  have hclen := List.length_pos_iff.2 hpos
  refine not_close_before (X := c.drop 1) hv (j := front.length) (by omega) ?_
  have hcons : '<' :: c.drop 1 = c := by
    cases c with
    | nil => exact absurd rfl hpos
    | cons a c =>
      rw [closeParam_eq, List.cons_prefix_cons] at hc
      rw [hc.1]
      rfl
  rw [hcons, ← hfront, List.drop_left]
  exact List.prefix_of_prefix_length_le close_begins hbegins (show 2 ≤ _ by omega)

/-- A proper beginning of the trigger is kept as it is. -/
theorem keepTail_self {trigger : List Char} (hc : c <+: trigger) (hne : c ≠ trigger) : Matcher.keepTail trigger c = c :=
  (keepTail_suffix trigger c).eq_of_length_le (keepTail_longest (List.suffix_refl c) hc hne).length_le

end Close

section Markers
variable {m : Matcher} {alts : List (List Char × State)} {marker text : List Char} {σ' : State}

/-- In a text that only one marker begins, the search for a complete marker finds that one, or
none while it is incomplete. -/
theorem find_marker (hfirst : alts.find? (fun a => a.1 = marker) = some (marker, σ'))
    (honly : ∀ a ∈ alts, a.1 <+: text → a.1 = marker) (hbuf : m.partialBuf <+: text) :
    (marker <+: m.partialBuf → alts.find? (fun a => a.1.isPrefixOf m.partialBuf) = some (marker, σ')) ∧
      (¬ marker <+: m.partialBuf → alts.find? (fun a => a.1.isPrefixOf m.partialBuf) = none) := by
  constructor
  · intro hin
    rw [← hfirst]
    refine List.find?_congr fun a ha => ?_
    rw [Bool.eq_iff_iff, List.isPrefixOf_iff_prefix, decide_eq_true_eq]
    exact ⟨fun h => honly a ha (h.trans hbuf), fun h => h ▸ hin⟩
  · intro hnot
    rw [List.find?_eq_none]
    intro a ha h
    rw [List.isPrefixOf_iff_prefix] at h
    exact hnot (honly a ha (h.trans hbuf) ▸ h)

/-- An incomplete marker is a longer text's beginning. -/
theorem buf_prefix_marker (hmarker : marker <+: text) (hbuf : m.partialBuf <+: text) (hnot : ¬ marker <+: m.partialBuf) :
    m.partialBuf <+: marker :=
  (List.prefix_or_prefix_of_prefix hbuf hmarker).resolve_right hnot

theorem transitionFromAlternatives_cases (hfirst : alts.find? (fun a => a.1 = marker) = some (marker, σ'))
    (honly : ∀ a ∈ alts, a.1 <+: text → a.1 = marker) (hmarker : marker <+: text) (hbuf : m.partialBuf <+: text) :
    (marker <+: m.partialBuf ∧ m.transitionFromAlternatives alts =
        (.advanced, { m with state := σ', partialBuf := m.partialBuf.drop marker.length })) ∨
      (¬ marker <+: m.partialBuf ∧ m.transitionFromAlternatives alts = (.stay, m)) := by
  obtain ⟨hfound, hnone⟩ := find_marker hfirst honly hbuf
  by_cases hin : marker <+: m.partialBuf
  · exact .inl ⟨hin, by rw [Matcher.transitionFromAlternatives, hfound hin]⟩
  · refine .inr ⟨hin, ?_⟩
    have hany : (alts.any fun a => m.partialBuf.isPrefixOf a.1) = true := by
      refine List.any_eq_true.2 ⟨_, List.mem_of_find?_eq_some hfirst, ?_⟩
      exact List.isPrefixOf_iff_prefix.2 (buf_prefix_marker hmarker hbuf hin)
    rw [Matcher.transitionFromAlternatives, hnone hin]
    simp only [hany, if_true]

theorem transitionName_cases (idx : Option ℕ) (candidates : List (ℕ × List Char)) (settled next : ℕ → State)
    (hfirst : (candidates.map fun c => (c.2, next c.1)).find? (fun a => a.1 = marker) = some (marker, σ'))
    (honly : ∀ a ∈ candidates.map fun c => (c.2, next c.1), a.1 <+: text → a.1 = marker) (hmarker : marker <+: text)
    (hbuf : m.partialBuf <+: text) :
    (marker <+: m.partialBuf ∧ m.transitionName idx candidates settled next =
        (.advanced, { m with state := σ', partialBuf := m.partialBuf.drop marker.length })) ∨
      (¬ marker <+: m.partialBuf ∧ (m.transitionName idx candidates settled next = (.stay, m) ∨
        (idx = none ∧ ∃ i, (i, marker) ∈ candidates ∧ next i = σ' ∧
          m.transitionName idx candidates settled next = (.advanced, { m with state := settled i })))) := by
  obtain ⟨hfound, hnone⟩ := find_marker hfirst honly hbuf
  have hmap : (candidates.map fun c => (c.2, next c.1)).find? (fun a => a.1.isPrefixOf m.partialBuf) =
      (candidates.find? fun c => c.2.isPrefixOf m.partialBuf).map fun c => (c.2, next c.1) := List.find?_map
  rw [hmap] at hfound hnone
  by_cases hin : marker <+: m.partialBuf
  · refine .inl ⟨hin, ?_⟩
    obtain ⟨⟨i, full⟩, hc, heq⟩ := Option.map_eq_some_iff.1 (hfound hin)
    cases heq
    simp only [Matcher.transitionName, hc]
  · refine .inr ⟨hin, ?_⟩
    have hc := Option.map_eq_none_iff.1 (hnone hin)
    have hbegins := buf_prefix_marker hmarker hbuf hin
    obtain ⟨⟨i, full⟩, hmem, heq⟩ := List.mem_map.1 (List.mem_of_find?_eq_some hfirst)
    simp only [Prod.mk.injEq] at heq
    obtain ⟨rfl, hnext⟩ := heq
    have hfilter : (i, full) ∈ candidates.filter fun c => m.partialBuf.isPrefixOf c.2 :=
      List.mem_filter.2 ⟨hmem, List.isPrefixOf_iff_prefix.2 hbegins⟩
    simp only [Matcher.transitionName, hc]
    generalize candidates.filter (fun c => m.partialBuf.isPrefixOf c.2) = matching at hfilter ⊢
    match idx, matching, hfilter with
    | none, [(k, g)], hfilter =>
      obtain ⟨rfl, rfl⟩ := Prod.mk.inj (List.mem_singleton.1 hfilter)
      exact .inr ⟨rfl, i, hmem, hnext, rfl⟩
    | none, _ :: _ :: _, _ => exact .inl rfl
    | some _, _ :: _, _ => exact .inl rfl

end Markers

/-- A name is being written and no candidate is settled on. -/
def State.isUnsettled : State → Bool
  | .inInvokeName none => true
  | .inParamName _ none _ => true
  | _ => false

/-- What a transition that goes on makes smaller. -/
def Matcher.size (m : Matcher) : ℕ := 2 * m.partialBuf.length + if m.state.isUnsettled then 1 else 0

section Step
variable {tools : List ToolSchema} {m : Matcher} {σ σ' : State} {marker text : List Char}

theorem Ahead.noLeadingSpace (h : Ahead tools σ marker σ' text) {buf : List Char} (hbuf : buf <+: text) :
    ¬(Matcher.stateAllowsLeadingWs σ = true ∧ buf.takeWhile Matcher.isWs ≠ []) := by
  rintro ⟨hσ, hne⟩
  cases buf with
  | nil => exact hne rfl
  | cons c buf =>
    obtain ⟨a, rest, hmarker⟩ := List.exists_cons_of_ne_nil h.nonempty
    have hhead : c = a := by
      have hbegins := h.begins
      rw [hmarker] at hbegins
      obtain ⟨x, rfl⟩ := hbuf
      obtain ⟨y, hy⟩ := hbegins
      exact (List.cons.inj hy).1.symm
    have := h.noSpace hσ a (by rw [hmarker]; rfl)
    rw [hhead, List.takeWhile_cons, this] at hne
    exact hne rfl

/-- What a transition does before a marker: past it, nothing, or settle on a name. -/
theorem Ahead.transition (h : Ahead m.tools m.state marker σ' text) (hbuf : m.partialBuf <+: text) :
    (marker <+: m.partialBuf ∧
      m.transitionOnce = (.advanced, { m with state := σ', partialBuf := m.partialBuf.drop marker.length })) ∨
    (¬ marker <+: m.partialBuf ∧ (m.transitionOnce = (.stay, m) ∨ ∃ τ, m.state.isUnsettled = true ∧
      τ.isUnsettled = false ∧ Ahead m.tools τ marker σ' text ∧
        m.transitionOnce = (.advanced, { m with state := τ }))) := by
  have hspace := h.noLeadingSpace hbuf
  obtain ⟨σ, buf, tools⟩ := m
  simp only at h hbuf hspace ⊢
  cases σ with
  | out =>
    obtain rfl : marker = openToolCalls := by
      have := List.mem_of_find?_eq_some h.first
      simp only [alternatives, List.mem_singleton, Prod.mk.injEq] at this
      exact this.1
    obtain rfl : σ' = .inToolCalls := by
      have := List.mem_of_find?_eq_some h.first
      simp only [alternatives, List.mem_singleton, Prod.mk.injEq] at this
      exact this.2
    by_cases hin : openToolCalls <+: buf
    · refine .inl ⟨hin, ?_⟩
      have hfind : memmem buf openToolCalls = some 0 := memmem_eq_some (by decide) hin fun j hj => absurd hj (Nat.not_lt_zero j)
      rw [Matcher.transitionOnce, if_neg hspace]
      simp only [Matcher.transitionFromFree, hfind, Nat.zero_add]
    · refine .inr ⟨hin, .inl ?_⟩
      have hbegins : buf <+: openToolCalls := (List.prefix_or_prefix_of_prefix hbuf h.begins).resolve_right hin
      have hne : buf ≠ openToolCalls := fun heq => hin (heq ▸ List.prefix_refl _)
      have hnone : memmem buf openToolCalls = none := by
        cases hfind : memmem buf openToolCalls with
        | none => rfl
        | some j =>
          obtain ⟨-, hfit, -⟩ := memmem_some (by decide) hfind
          exact absurd (hbegins.eq_of_length_le (by omega)) hne
      rw [Matcher.transitionOnce, if_neg hspace]
      simp only [Matcher.transitionFromFree, hnone, keepTail_self hbegins hne]
  | inToolCalls =>
    rw [Matcher.transitionOnce, if_neg hspace]
    rcases transitionFromAlternatives_cases (m := ⟨.inToolCalls, buf, tools⟩) h.first h.only h.begins hbuf with
      hfull | ⟨hnot, hstay⟩
    · exact .inl hfull
    · exact .inr ⟨hnot, .inl hstay⟩
  | inInvokeBody toolIdx emittedParams =>
    rw [Matcher.transitionOnce, if_neg hspace]
    rcases transitionFromAlternatives_cases (m := ⟨.inInvokeBody toolIdx emittedParams, buf, tools⟩) h.first h.only
      h.begins hbuf with hfull | ⟨hnot, hstay⟩
    · exact .inl hfull
    · exact .inr ⟨hnot, .inl hstay⟩
  | inParamAttr toolIdx paramIdx emittedParams =>
    rw [Matcher.transitionOnce, if_neg hspace]
    rcases transitionFromAlternatives_cases (m := ⟨.inParamAttr toolIdx paramIdx emittedParams, buf, tools⟩) h.first
      h.only h.begins hbuf with hfull | ⟨hnot, hstay⟩
    · exact .inl hfull
    · exact .inr ⟨hnot, .inl hstay⟩
  | inParamBody toolIdx paramIdx emittedParams => cases h.isBody
  | inInvokeName toolIdx =>
    have hfirst : ((toolCandidates tools toolIdx).map fun c => (c.2, State.inInvokeBody c.1 [])).find?
      (fun a => a.1 = marker) = some (marker, σ') := h.first
    have honly : ∀ a ∈ (toolCandidates tools toolIdx).map fun c => (c.2, State.inInvokeBody c.1 []), a.1 <+: text →
      a.1 = marker := h.only
    rw [Matcher.transitionOnce, if_neg hspace]
    rcases transitionName_cases (m := ⟨.inInvokeName toolIdx, buf, tools⟩) toolIdx
      (toolCandidates tools toolIdx) (fun i => .inInvokeName (some i)) (fun i => .inInvokeBody i []) hfirst honly
      h.begins hbuf with hfull | ⟨hnot, hstay | ⟨rfl, i, hmem, hnext, heq⟩⟩
    · exact .inl hfull
    · exact .inr ⟨hnot, .inl hstay⟩
    refine .inr ⟨hnot, .inr ?_⟩
    obtain ⟨k, -, hk⟩ := List.mem_map.1 hmem
    cases hk
    refine ⟨.inInvokeName (some i), rfl, rfl, ⟨rfl, ?_, ?_, h.nonempty, h.noSpace, h.begins⟩, heq⟩
    · simp [alternatives, toolCandidates, hnext]
    · intro a ha _
      simp only [alternatives, toolCandidates, List.map_cons, List.map_nil, List.mem_singleton] at ha
      rw [ha]
  | inParamName toolIdx paramIdx emittedParams =>
    have hfirst : ((paramCandidates (toolAt tools toolIdx) emittedParams paramIdx).map fun c =>
      (c.2, State.inParamAttr toolIdx c.1 emittedParams)).find? (fun a => a.1 = marker) = some (marker, σ') := h.first
    have honly : ∀ a ∈ (paramCandidates (toolAt tools toolIdx) emittedParams paramIdx).map fun c =>
      (c.2, State.inParamAttr toolIdx c.1 emittedParams), a.1 <+: text → a.1 = marker := h.only
    rw [Matcher.transitionOnce, if_neg hspace]
    rcases transitionName_cases (m := ⟨.inParamName toolIdx paramIdx emittedParams, buf, tools⟩) paramIdx
      (paramCandidates (toolAt tools toolIdx) emittedParams paramIdx) (fun i => .inParamName toolIdx (some i) emittedParams)
      (fun i => .inParamAttr toolIdx i emittedParams) hfirst honly h.begins hbuf with
      hfull | ⟨hnot, hstay | ⟨rfl, i, hmem, hnext, heq⟩⟩
    · exact .inl hfull
    · exact .inr ⟨hnot, .inl hstay⟩
    refine .inr ⟨hnot, .inr ?_⟩
    obtain ⟨k, -, hk⟩ := List.mem_map.1 hmem
    cases hk
    refine ⟨.inParamName toolIdx (some i) emittedParams, rfl, rfl, ⟨rfl, ?_, ?_, h.nonempty, h.noSpace, h.begins⟩, heq⟩
    · simp [alternatives, paramCandidates, hnext]
    · intro a ha _
      simp only [alternatives, paramCandidates, List.map_cons, List.map_nil, List.mem_singleton] at ha
      rw [ha]

end Step
end Hipscope.Dsml.Grammar
