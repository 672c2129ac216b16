import Hipscope.Dsml.RoundTrip

/-! A parameter that breaks off, and what becomes of the one behind it. -/
namespace Hipscope.Dsml
open Text

/-- A parameter as it should be written, from its name on. -/
structure WellFormed where
  name : List Char
  isString : Bool
  raw : List Char
  name_quoted : '"' ∉ name
  name_free : ¬ parameterClose <:+: name
  raw_free : ¬ parameterClose <:+: raw

namespace WellFormed

/-- The rest of the opening tag behind the name. -/
def tag (p : WellFormed) : List Char := "\" string=\"".toList ++ stringAttr p.isString ++ "\">".toList

def text (p : WellFormed) : List Char := p.name ++ (p.tag ++ (p.raw ++ parameterClose))

/-- A string as it stands, all else as JSON where it parses. -/
def value (p : WellFormed) (fromStr : List Char → Option Value) : Value :=
  if p.isString then .string p.raw else (fromStr (trim p.raw)).getD (.string p.raw)

end WellFormed

/-- The opening at whose name the text begins is read to its end within the text: a quote after the name, the end of
the tag, a closing marker. -/
def endsWithin (b : List Char) : Bool :=
  ((memmem b ['"']).bind fun nameEnd =>
    (parameterTag (b.drop nameEnd)).bind fun tag => memmem tag.2 parameterClose).isSome

/-- The name an opening gets when another one follows `b`. -/
def readName (b : List Char) : List Char :=
  (b ++ parameterOpenPrefix).take ((memmem (b ++ parameterOpenPrefix) ['"']).getD 0)

/-- The value under a name, for an object. -/
def Value.member (name : List Char) : Value → Option Value
  | .object members => (members.find? fun m => m.1 = name).map Prod.snd
  | _ => none

/-- Well-formed parameters, each with what stands between it and the next opening. -/
def behind (parameters : List (WellFormed × List Char)) : List Char :=
  parameters.flatMap fun m => parameterOpenPrefix ++ (m.1.text ++ m.2)

/-- The value last found under a name. -/
def lastValue (name : List Char) : List (List Char × Value) → Option Value
  | [] => none
  | m :: found => (lastValue name found).or (if m.1 = name then some m.2 else none)

def namedValues (fromStr : List Char → Option Value) (parameters : List (WellFormed × List Char)) :
    List (List Char × Value) :=
  parameters.map fun m => (m.1.name, m.1.value fromStr)

/-- What the loop over a body collects. -/
def collected (fromStr : List Char → Option Value) (body : List Char) : List (List Char × Value) :=
  scan (nextParameter fromStr) (body.length + 1) body

/-- The loop ends, and the body's object has the parameter's value under its name. -/
def Keeps (fromStr : List Char → Option Value) (body : List Char) (p : WellFormed) : Prop :=
  (∀ rounds > body.length, scan (nextParameter fromStr) rounds body = collected fromStr body) ∧
    (parseParameters fromStr body).member p.name = some (p.value fromStr)

section Tag
variable {a c u v y flag text : List Char} {s : Bool} {i : ℕ}

/-- Where the tag behind a name has its string attribute. -/
private def attrAt (a : List Char) : Option ℕ :=
  (memmem a ['>']).bind fun stop => memmem (a.take stop) "string=\"".toList

/-- What follows the attribute's opening quote. -/
private def attrValue (text : List Char) : Option (Bool × List Char) := do
  let stop ← memmem text ['"']
  let start ← memmem (text.drop stop) "\">".toList
  some (text.take stop = "true".toList, (text.drop stop).drop (start + 2))

private theorem memmem_quote_cons : memmem ('"' :: a) ['>'] = (memmem a ['>']).map (· + 1) := by
  cases hstop : memmem a ['>'] with
  | none =>
    cases hstart : memmem ('"' :: a) ['>'] with
    | none => rfl
    | some i =>
      have hat := (memmem_some (by decide) hstart).1
      cases i with
      | zero => exact absurd (List.cons_prefix_cons.1 hat).1 (by decide)
      | succ i => exact absurd hat (memmem_none hstop i)
  | some stop =>
    obtain ⟨hat, -, hfirst⟩ := memmem_some (by decide) hstop
    refine memmem_eq_some (by decide) hat fun j hj hocc => ?_
    cases j with
    | zero => exact absurd (List.cons_prefix_cons.1 hocc).1 (by decide)
    | succ j => exact hfirst j (Nat.lt_of_succ_lt_succ hj) hocc

private theorem parameterTag_plain (h : attrAt a = none) :
    parameterTag ('"' :: a) = (memmem a ['>']).map fun start => (true, a.drop (start + 1)) := by
  unfold attrAt at h
  unfold parameterTag
  simp only [List.drop_succ_cons, List.drop_zero, h, memmem_quote_cons]
  cases memmem a ['>'] <;> rfl

private theorem parameterTag_attr (h : attrAt a = some i) : parameterTag ('"' :: a) = attrValue (a.drop (i + 8)) := by
  unfold attrAt at h
  unfold parameterTag
  simp only [List.drop_succ_cons, List.drop_zero, h]
  rfl

private theorem attrAt_le (h : attrAt a = some i) : i + 8 ≤ a.length := by
  obtain ⟨stop, -, hattr⟩ := Option.bind_eq_some_iff.1 h
  have hfit := (memmem_some (by decide) hattr).2.1
  rw [List.length_take] at hfit
  have hlen : "string=\"".toList.length = 8 := rfl
  omega

private theorem attrAt_append {stop : ℕ} (h : memmem a ['>'] = some stop) (y : List Char) :
    attrAt (a ++ y) = attrAt a := by
  have hfit := (memmem_some (by decide) h).2.1
  rw [attrAt, attrAt, memmem_append (by decide) h y, h, Option.bind_some, Option.bind_some,
    List.take_append_of_le_length (by omega)]

private theorem attrValue_append (h : attrValue text = some (s, c)) (y : List Char) :
    attrValue (text ++ y) = some (s, c ++ y) := by
  obtain ⟨stop, hstop, h⟩ := Option.bind_eq_some_iff.1 h
  obtain ⟨start, hstart, h⟩ := Option.bind_eq_some_iff.1 h
  obtain ⟨rfl, rfl⟩ := Prod.mk.inj (Option.some.inj h)
  have hfit := (memmem_some (by decide) hstop).2.1
  have hfit' := (memmem_some (by decide) hstart).2.1
  have hlen : "\">".toList.length = 2 := rfl
  rw [attrValue, memmem_append (by decide) hstop y]
  have hdrop : (text ++ y).drop stop = text.drop stop ++ y := List.drop_append_of_le_length (by omega)
  simp only [Option.bind_eq_bind, Option.bind_some, hdrop, memmem_append (by decide) hstart y]
  rw [List.take_append_of_le_length (by omega), List.drop_append_of_le_length (by omega)]

private theorem attrValue_of_append (h : attrValue (text ++ y) = some (s, c)) (hlong : y.length ≤ c.length) :
    ∃ c', attrValue text = some (s, c') ∧ c = c' ++ y := by
  obtain ⟨stop, hstop, h⟩ := Option.bind_eq_some_iff.1 h
  obtain ⟨start, hstart, h⟩ := Option.bind_eq_some_iff.1 h
  obtain ⟨rfl, rfl⟩ := Prod.mk.inj (Option.some.inj h)
  have hfit := (memmem_some (by decide) hstart).2.1
  have hlen : "\">".toList.length = 2 := rfl
  simp only [List.length_drop, List.length_append] at hfit hlong
  have hdrop : (text ++ y).drop stop = text.drop stop ++ y := List.drop_append_of_le_length (by omega)
  have hstop' : memmem text ['"'] = some stop :=
    memmem_of_append (by decide) hstop (by rw [List.length_singleton]; omega)
  rw [hdrop] at hstart
  have hstart' : memmem (text.drop stop) "\">".toList = some start :=
    memmem_of_append (by decide) hstart (by rw [List.length_drop]; omega)
  refine ⟨(text.drop stop).drop (start + 2), ?_, ?_⟩
  · rw [attrValue, hstop']
    simp only [Option.bind_eq_bind, Option.bind_some, hstart']
    rw [List.take_append_of_le_length (by omega)]
  · rw [hdrop, List.drop_append_of_le_length (by rw [List.length_drop]; omega)]

private theorem attrValue_closes (h : attrValue text = some (s, c)) : ∃ j, ['>'] <+: text.drop j := by
  obtain ⟨stop, -, h⟩ := Option.bind_eq_some_iff.1 h
  obtain ⟨start, hstart, -⟩ := Option.bind_eq_some_iff.1 h
  obtain ⟨rest, hrest⟩ := (memmem_some (by decide) hstart).1
  refine ⟨stop + (start + 1), ?_⟩
  have hdrop : ((text.drop stop).drop start).drop 1 = '>' :: rest := by rw [← hrest]; rfl
  rw [List.drop_drop, List.drop_drop] at hdrop
  rw [hdrop]
  exact List.prefix_append ['>'] rest

/-- A tag that ends in a text ends there when the text goes on. -/
theorem parameterTag_append (h : parameterTag ('"' :: a) = some (s, c)) (y : List Char) :
    parameterTag ('"' :: (a ++ y)) = some (s, c ++ y) := by
  cases hattr : attrAt a with
  | none =>
    rw [parameterTag_plain hattr] at h
    obtain ⟨stop, hstop, h⟩ := Option.map_eq_some_iff.1 h
    obtain ⟨rfl, rfl⟩ := Prod.mk.inj h
    have hfit := (memmem_some (by decide) hstop).2.1
    rw [List.length_singleton] at hfit
    rw [parameterTag_plain (by rw [attrAt_append hstop, hattr]), memmem_append (by decide) hstop y, Option.map_some,
      List.drop_append_of_le_length hfit]
  | some i =>
    rw [parameterTag_attr hattr] at h
    have hfit := attrAt_le hattr
    obtain ⟨stop, hstop, -⟩ := Option.bind_eq_some_iff.1 hattr
    rw [parameterTag_attr (by rw [attrAt_append hstop, hattr]), List.drop_append_of_le_length hfit]
    exact attrValue_append h y

/-- A tag whose content begins before `y` ends in what stands before `y`. -/
theorem parameterTag_of_append (h : parameterTag ('"' :: (a ++ y)) = some (s, c)) (hlong : y.length ≤ c.length) :
    ∃ c', parameterTag ('"' :: a) = some (s, c') ∧ c = c' ++ y := by
  cases hattr : attrAt (a ++ y) with
  | none =>
    rw [parameterTag_plain hattr] at h
    obtain ⟨stop, hstop, h⟩ := Option.map_eq_some_iff.1 h
    obtain ⟨rfl, rfl⟩ := Prod.mk.inj h
    have hfit := (memmem_some (by decide) hstop).2.1
    rw [List.length_singleton] at hfit
    rw [List.length_drop, List.length_append] at hlong
    rw [List.length_append] at hfit
    have hstop' : memmem a ['>'] = some stop :=
      memmem_of_append (by decide) hstop (by rw [List.length_singleton]; omega)
    refine ⟨a.drop (stop + 1), ?_, List.drop_append_of_le_length (by omega)⟩
    rw [parameterTag_plain (by rw [← attrAt_append hstop', hattr]), hstop']
    rfl
  | some i =>
    rw [parameterTag_attr hattr] at h
    have hfit := attrAt_le hattr
    have hshort : i + 8 ≤ a.length := by
      obtain ⟨stop, -, h'⟩ := Option.bind_eq_some_iff.1 h
      obtain ⟨start, hstart, h'⟩ := Option.bind_eq_some_iff.1 h'
      have hfit' := (memmem_some (by decide) hstart).2.1
      have hlen : "\">".toList.length = 2 := rfl
      rw [← (Prod.mk.inj (Option.some.inj h')).2] at hlong
      simp only [List.length_drop, List.length_append] at hfit' hlong
      omega
    rw [List.drop_append_of_le_length hshort] at h
    obtain ⟨c', hc', hc⟩ := attrValue_of_append h hlong
    obtain ⟨j, hj⟩ := attrValue_closes hc'
    rw [List.drop_drop] at hj
    obtain ⟨stop, -, hstop⟩ := exists_memmem_le (by decide) hj
    exact ⟨c', by rw [parameterTag_attr (by rw [← attrAt_append hstop, hattr]), hc'], hc⟩

/-- Before a tag that is written as it should be, the content begins at that tag's end at the latest. -/
theorem parameterTag_before (u flag v : List Char) : ∃ s c,
    parameterTag ('"' :: (u ++ ("string=\"".toList ++ (flag ++ "\">".toList)) ++ v)) = some (s, c ++ v) ∧
      c <:+ u ++ ("string=\"".toList ++ (flag ++ "\">".toList)) := by
  have hname : "string=\"".toList.length = 8 := rfl
  have hend : "\">".toList.length = 2 := rfl
  obtain ⟨w, hw⟩ : ∃ w, w = u ++ ("string=\"".toList ++ (flag ++ "\">".toList)) := ⟨_, rfl⟩
  have hlen : w.length = u.length + (8 + (flag.length + 2)) := by
    rw [hw, List.length_append, List.length_append, List.length_append, hname, hend]
  have hquote : "\">".toList <+: (w ++ v).drop (u.length + (8 + flag.length)) := by
    have hdrop : w.drop (u.length + (8 + flag.length)) = "\">".toList := by
      rw [hw, ← List.drop_drop, List.drop_left, ← List.drop_drop, ← hname, List.drop_left, List.drop_left]
    rw [List.drop_append_of_le_length (by omega), hdrop]
    exact List.prefix_append _ _
  rw [← hw]
  cases hattr : attrAt (w ++ v) with
  | none =>
    have hat : ['>'] <+: (w ++ v).drop (u.length + (8 + flag.length) + 1) := by
      obtain ⟨rest, hrest⟩ := hquote
      rw [← List.drop_drop, ← hrest]
      exact List.prefix_append ['>'] rest
    obtain ⟨stop, hle, hstop⟩ := exists_memmem_le (by decide) hat
    refine ⟨true, w.drop (stop + 1), ?_, List.drop_suffix _ _⟩
    rw [parameterTag_plain hattr, hstop, Option.map_some, List.drop_append_of_le_length (by omega)]
  | some i =>
    have hi : i ≤ u.length := by
      obtain ⟨stop, hstop, hfound⟩ := Option.bind_eq_some_iff.1 hattr
      obtain ⟨-, hfit, hfirst⟩ := memmem_some (by decide) hfound
      rw [List.length_take, hname] at hfit
      by_contra hlt
      refine hfirst u.length (by omega) ?_
      have hdrop : (w ++ v).drop u.length = "string=\"".toList ++ (flag ++ "\">".toList) ++ v := by
        rw [hw, List.append_assoc, List.drop_left]
      rw [List.drop_take, hdrop, List.append_assoc]
      refine List.prefix_take_iff.2 ⟨List.prefix_append _ _, by omega⟩
    rw [parameterTag_attr hattr]
    have hquote' : "\">".toList <+: ((w ++ v).drop (i + 8)).drop (u.length + flag.length - i) := by
      rw [List.drop_drop]
      have heq : i + 8 + (u.length + flag.length - i) = u.length + (8 + flag.length) := by omega
      rw [heq]
      exact hquote
    have hat : ['"'] <+: ((w ++ v).drop (i + 8)).drop (u.length + flag.length - i) :=
      (List.prefix_append ['"'] ['>']).trans hquote'
    obtain ⟨stop, hstop, hfound⟩ := exists_memmem_le (by decide) hat
    have hquote'' : "\">".toList <+:
        (((w ++ v).drop (i + 8)).drop stop).drop (u.length + flag.length - i - stop) := by
      rw [List.drop_drop, Nat.add_sub_cancel' hstop]
      exact hquote'
    obtain ⟨start, hstart, hfound'⟩ := exists_memmem_le (by decide) hquote''
    refine ⟨decide (((w ++ v).drop (i + 8)).take stop = "true".toList), w.drop (i + 8 + (stop + (start + 2))), ?_,
      List.drop_suffix _ _⟩
    rw [attrValue, hfound]
    simp only [Option.bind_eq_bind, Option.bind_some, hfound']
    have hrest : (((w ++ v).drop (i + 8)).drop stop).drop (start + 2) = w.drop (i + 8 + (stop + (start + 2))) ++ v := by
      rw [List.drop_drop, List.drop_drop, List.drop_append_of_le_length (by omega)]
    rw [hrest]

end Tag

section Parse
variable {fromStr : List Char → Option Value} {b n r y after : List Char} {v : Value} {p : WellFormed}

theorem WellFormed.tag_eq (p : WellFormed) (u : List Char) : u ++ p.tag =
    u ++ "\" ".toList ++ ("string=\"".toList ++ (stringAttr p.isString ++ "\">".toList)) := by
  have htag : p.tag = "\" ".toList ++ ("string=\"".toList ++ (stringAttr p.isString ++ "\">".toList)) := by
    unfold tag
    cases p.isString <;> rfl
  rw [htag, List.append_assoc]

/-- No closing marker begins in a text without one when a marker follows. -/
private theorem passes_close {a : List Char} (h : ¬ parameterClose <:+: a) (b : List Char) :
    Passes parameterClose a ('<' :: b) := by
  refine passes_free List.infix_rfl h ?_ b
  intro j hj hpos hat
  have honly : ∀ j < parameterClose.length, 0 < j → parameterClose[j]? ≠ some '<' := by decide
  exact absurd hat (honly j hj hpos)

/-- A well-formed parameter is read as it is written. -/
theorem parseParameter_wellFormed (p : WellFormed) (after : List Char) :
    parseParameter fromStr (p.text ++ after) = some (p.name, p.value fromStr, after) := by
  have hname : memmem (p.name ++ (['"'] ++ (p.tag.drop 1 ++ (p.raw ++ (parameterClose ++ after))))) ['"'] =
      some p.name.length := memmem_passes (by decide) (passes_head p.name_quoted _)
  have hclose : memmem (p.raw ++ (parameterClose ++ after)) parameterClose = some p.raw.length :=
    memmem_passes (by decide) (passes_close p.raw_free _)
  have hshape : p.text ++ after = p.name ++ (['"'] ++ (p.tag.drop 1 ++ (p.raw ++ (parameterClose ++ after)))) := by
    rw [WellFormed.text, List.append_assoc, List.append_assoc, List.append_assoc]
    rfl
  have htag : parameterTag (['"'] ++ (p.tag.drop 1 ++ (p.raw ++ (parameterClose ++ after)))) =
      some (p.isString, p.raw ++ (parameterClose ++ after)) := by
    rw [← parameterTag_rendered]
    rfl
  rw [hshape, parseParameter, hname]
  simp only [Option.bind_eq_bind, Option.bind_some, List.drop_left, List.take_left, htag, hclose]
  rw [← List.drop_drop, List.drop_left, List.drop_left]
  rfl

/-- What is read within a text is read when the text goes on. -/
theorem parseParameter_append (h : parseParameter fromStr b = some (n, v, r)) (y : List Char) :
    parseParameter fromStr (b ++ y) = some (n, v, r ++ y) := by
  obtain ⟨nameEnd, hname, h⟩ := Option.bind_eq_some_iff.1 h
  obtain ⟨⟨s, content⟩, htag, h⟩ := Option.bind_eq_some_iff.1 h
  obtain ⟨contentEnd, hclose, h⟩ := Option.bind_eq_some_iff.1 h
  simp only [Option.some.injEq, Prod.mk.injEq] at h
  obtain ⟨rfl, rfl, rfl⟩ := h
  obtain ⟨⟨rest, hrest⟩, hfit, -⟩ := memmem_some (by decide) hname
  have hfit' := (memmem_some (by decide) hclose).2.1
  rw [List.length_singleton] at hfit
  have htag' : parameterTag ((b ++ y).drop nameEnd) = some (s, content ++ y) := by
    rw [List.drop_append_of_le_length (by omega), ← hrest]
    rw [← hrest] at htag
    exact parameterTag_append htag y
  rw [parseParameter, memmem_append (by decide) hname y]
  simp only [Option.bind_eq_bind, Option.bind_some, htag', memmem_append (by decide) hclose y]
  rw [List.take_append_of_le_length (by omega), List.take_append_of_le_length (by omega),
    List.drop_append_of_le_length hfit']

theorem endsWithin_iff : endsWithin b = true ↔ ∃ n v r, parseParameter fromStr b = some (n, v, r) := by
  unfold endsWithin parseParameter
  cases hname : memmem b ['"'] with
  | none => simp
  | some nameEnd =>
    cases htag : parameterTag (b.drop nameEnd) with
    | none => simp [htag]
    | some tag => 
      obtain ⟨s, content⟩ := tag
      cases hclose : memmem content parameterClose <;> simp [htag, hclose]

theorem not_infix_of_memmem {a k : List Char} (h : memmem a k = none) : ¬ k <:+: a := by
  intro hin
  obtain ⟨i, hi⟩ := infix_iff_drop.1 hin
  exact memmem_none h i hi

/-- No closing marker begins in an opening tag. -/
private theorem passes_opening (p : WellFormed) (after : List Char) :
    Passes parameterClose (parameterOpenPrefix ++ (p.name ++ p.tag)) (p.raw ++ (parameterClose ++ after)) := by
  have hskips : Skips parameterClose
      [parameterOpenPrefix, "\" string=\"".toList, "true".toList, "false".toList, "\">".toList] := by decide
  have htag : Passes parameterClose p.tag (p.raw ++ (parameterClose ++ after)) := by
    have hflag : ∀ x, Passes parameterClose (stringAttr p.isString) x := by
      intro x
      cases p.isString <;> exact hskips.passes_literal (by decide) x
    exact .append (.append (hskips.passes_literal (by decide) _) (hflag _)) (hskips.passes_literal (by decide) _)
  have hname : Passes parameterClose p.name (p.tag ++ (p.raw ++ (parameterClose ++ after))) := by
    have hnone : ∀ j < parameterClose.length, 0 < j → parameterClose[j]? = some '"' →
        parameterClose <:+: parameterClose.take j := by decide
    exact passes_free List.infix_rfl p.name_free hnone _
  exact .append (hskips.passes_literal (by decide) _) (.append hname htag)

/-- What does not end within `b` takes the next parameter with it. -/
theorem parseParameter_swallows (fromStr : List Char → Option Value) (h : endsWithin b = false) (p : WellFormed)
    (after : List Char) :
    ∃ v, parseParameter fromStr (b ++ (parameterOpenPrefix ++ (p.text ++ after))) = some (readName b, v, after) := by
  have hquoted : ['"'] <+: (b ++ parameterOpenPrefix).drop (b.length + 22) := by
    rw [← List.drop_drop, List.drop_left]
    decide
  obtain ⟨nameEnd, -, hname⟩ := exists_memmem_le (by decide) hquoted
  obtain ⟨⟨a, ha⟩, hfit, -⟩ := memmem_some (by decide) hname
  rw [List.length_singleton] at hfit
  have hread : readName b = (b ++ parameterOpenPrefix).take nameEnd := by rw [readName, hname]; rfl
  have hdrop : (b ++ (parameterOpenPrefix ++ (p.text ++ after))).drop nameEnd = '"' :: (a ++ (p.text ++ after)) := by
    rw [← List.append_assoc, List.drop_append_of_le_length (by omega), ← ha]
    rfl
  -- the tag ends where the well-formed one does, or before
  obtain ⟨s, c, htag, hsuffix⟩ := parameterTag_before (a ++ p.name ++ "\" ".toList) (stringAttr p.isString)
    (p.raw ++ (parameterClose ++ after))
  have htext : a ++ p.name ++ p.tag ++ (p.raw ++ (parameterClose ++ after)) = a ++ (p.text ++ after) := by
    rw [WellFormed.text]
    simp only [List.append_assoc]
  rw [← p.tag_eq, htext] at htag
  rw [← p.tag_eq, List.append_assoc] at hsuffix
  have hopening := passes_opening p after
  have hpasses : Passes parameterClose c (p.raw ++ (parameterClose ++ after)) := by
    have hwhole : c <:+ b ++ (parameterOpenPrefix ++ (p.name ++ p.tag)) := by
      have hend : a <:+ b ++ parameterOpenPrefix :=
        (List.suffix_append ['"'] a).trans (ha ▸ List.drop_suffix nameEnd _)
      obtain ⟨front, hfront⟩ := hend
      refine hsuffix.trans ⟨front ++ [], ?_⟩
      rw [List.append_nil, ← List.append_assoc, hfront, List.append_assoc]
    rcases Nat.lt_or_ge (parameterOpenPrefix ++ (p.name ++ p.tag)).length c.length with hlong | hshort
    · -- the content begins in `b`: there the tag is read to its end, and no closing marker follows
      obtain ⟨c₀, hc₀⟩ := List.suffix_of_suffix_length_le (List.suffix_append b _) hwhole hlong.le
      subst hc₀
      have hafter : nameEnd + 1 + c₀.length ≤ b.length := by
        have hle := hsuffix.length_le
        have halen := congrArg List.length ha
        simp only [List.length_append, List.length_drop, List.length_singleton] at hle halen hlong
        omega
      have hname₀ : memmem b ['"'] = some nameEnd :=
        memmem_of_append (by decide) hname (by rw [List.length_singleton]; omega)
      obtain ⟨⟨a₀, ha₀⟩, -⟩ := memmem_some (by decide) hname₀
      have ha₀' : a = a₀ ++ parameterOpenPrefix := by
        rw [List.drop_append_of_le_length (by omega), ← ha₀] at ha
        exact List.append_cancel_left (ha.trans (List.append_assoc _ _ _))
      rw [ha₀', List.append_assoc] at htag
      have hsplit : c₀ ++ (parameterOpenPrefix ++ (p.name ++ p.tag)) ++ (p.raw ++ (parameterClose ++ after)) =
          c₀ ++ (parameterOpenPrefix ++ (p.text ++ after)) := by
        rw [WellFormed.text]
        simp only [List.append_assoc]
      rw [hsplit] at htag
      obtain ⟨c', hc', hsame⟩ := parameterTag_of_append htag (List.suffix_append c₀ _).length_le
      obtain rfl := List.append_cancel_right hsame
      have hfree : ¬ parameterClose <:+: c₀ := by
        apply not_infix_of_memmem
        have hdrop₀ : b.drop nameEnd = '"' :: a₀ := ha₀.symm
        unfold endsWithin at h
        rw [hname₀, Option.bind_some, hdrop₀, hc', Option.bind_some] at h
        exact Option.isSome_eq_false_iff.1 h |> Option.isNone_iff_eq_none.1
      exact (passes_close hfree _).append hopening
    · obtain ⟨front, hfront⟩ := List.suffix_of_suffix_length_le hwhole (List.suffix_append b _) hshort
      rw [← hfront] at hopening
      exact hopening.suffix
  have hclose : memmem (c ++ (p.raw ++ (parameterClose ++ after))) parameterClose = some (c ++ p.raw).length := by
    rw [← List.append_assoc]
    exact memmem_passes (by decide) (hpasses.append (passes_close p.raw_free _))
  refine ⟨if s then .string ((c ++ p.raw)) else (fromStr (trim (c ++ p.raw))).getD (.string (c ++ p.raw)), ?_⟩
  have hname' := memmem_append (by decide) hname (p.text ++ after)
  rw [List.append_assoc] at hname'
  rw [parseParameter, hname', hread]
  simp only [Option.bind_eq_bind, Option.bind_some, hdrop, htag, hclose]
  have htake : (b ++ (parameterOpenPrefix ++ (p.text ++ after))).take nameEnd = (b ++ parameterOpenPrefix).take nameEnd := by
    rw [← List.append_assoc, List.take_append_of_le_length (by omega)]
  rw [htake, ← List.append_assoc, List.take_left, ← List.drop_drop, List.drop_left, List.drop_left]

end Parse

section Collect
variable {fromStr : List Char → Option Value} {text rest b n r g y after : List Char} {v : Value} {p : WellFormed}
  {found : Option (List Char × Value)} {name : List Char}

theorem parameterTag_suffix {q c : List Char} {s : Bool} (h : parameterTag q = some (s, c)) : c <:+ q := by
  unfold parameterTag at h
  dsimp only at h
  split at h
  · obtain ⟨stop, -, h⟩ := Option.bind_eq_some_iff.1 h
    obtain ⟨start, -, h⟩ := Option.bind_eq_some_iff.1 h
    rw [← (Prod.mk.inj (Option.some.inj h)).2]
    exact ((List.drop_suffix _ _).trans (List.drop_suffix _ _)).trans
      ((List.drop_suffix _ _).trans (List.drop_suffix _ _))
  · obtain ⟨start, -, h⟩ := Option.bind_eq_some_iff.1 h
    rw [← (Prod.mk.inj (Option.some.inj h)).2]
    exact List.drop_suffix _ _

/-- The name stands before a quote, and what is left is an end of the text. -/
theorem parseParameter_suffix (h : parseParameter fromStr b = some (n, v, r)) : n ++ ['"'] <+: b ∧ r <:+ b := by
  obtain ⟨nameEnd, hname, h⟩ := Option.bind_eq_some_iff.1 h
  obtain ⟨⟨s, content⟩, htag, h⟩ := Option.bind_eq_some_iff.1 h
  obtain ⟨contentEnd, -, h⟩ := Option.bind_eq_some_iff.1 h
  simp only [Option.some.injEq, Prod.mk.injEq] at h
  obtain ⟨rfl, -, rfl⟩ := h
  obtain ⟨⟨rest, hrest⟩, -⟩ := memmem_some (by decide) hname
  refine ⟨⟨rest, ?_⟩, (List.drop_suffix _ _).trans ((parameterTag_suffix htag).trans (List.drop_suffix _ _))⟩
  rw [List.append_assoc, hrest, List.take_append_drop]

/-- The next find, and what is left of the text behind it. -/
theorem nextParameter_cases (h : nextParameter fromStr text = some (found, rest)) :
    rest.length < text.length ∧ rest <:+ text ∧
      ∀ n v, found = some (n, v) → parameterOpenPrefix ++ (n ++ ['"']) <:+: text := by
  obtain ⟨start, hstart, h⟩ := Option.bind_eq_some_iff.1 h
  obtain ⟨⟨tail, htail⟩, hfit, -⟩ := memmem_some (by decide) hstart
  have hdrop : text.drop (start + parameterOpenPrefix.length) = tail := by
    rw [← List.drop_drop, ← htail, List.drop_left]
  have htext : text = text.take start ++ (parameterOpenPrefix ++ tail) := by
    rw [htail, List.take_append_drop]
  have hsuffix : tail <:+ text := hdrop ▸ List.drop_suffix _ _
  have hshorter : tail.length < text.length := by
    have hpos : 0 < parameterOpenPrefix.length := by decide
    rw [htext, List.length_append, List.length_append]
    omega
  simp only [hdrop] at h
  cases hparse : parseParameter fromStr tail with
  | none =>
    rw [hparse] at h
    obtain ⟨rfl, rfl⟩ := Prod.mk.inj (Option.some.inj h)
    exact ⟨hshorter, hsuffix, fun n v hnone => by cases hnone⟩
  | some out =>
    obtain ⟨n', v', after⟩ := out
    rw [hparse] at h
    obtain ⟨rfl, rfl⟩ := Prod.mk.inj (Option.some.inj h)
    obtain ⟨⟨rest', hrest'⟩, hafter⟩ := parseParameter_suffix hparse
    refine ⟨hafter.length_le.trans_lt hshorter, hafter.trans hsuffix, fun n v hsome => ?_⟩
    obtain ⟨rfl, rfl⟩ := Prod.mk.inj (Option.some.inj hsome)
    refine ⟨text.take start, rest', ?_⟩
    rw [List.append_assoc, List.append_assoc, hrest']
    exact htext.symm

/-- More rounds than the text has characters change nothing. -/
theorem scan_parameters_rounds {m k : ℕ} (hm : text.length < m) (hk : text.length < k) :
    scan (nextParameter fromStr) m text = scan (nextParameter fromStr) k text := by
  induction m generalizing k text with
  | zero => omega
  | succ m ih =>
    obtain ⟨k, rfl⟩ := Nat.exists_eq_succ_of_ne_zero (by omega : k ≠ 0)
    rw [scan, scan]
    cases hnext : nextParameter fromStr text with
    | none => rfl
    | some out =>
      obtain ⟨found, rest⟩ := out
      have hshorter := (nextParameter_cases hnext).1
      dsimp only
      rw [ih (k := k) (by omega) (by omega)]

theorem collected_none (h : nextParameter fromStr text = none) : collected fromStr text = [] := by
  rw [collected, scan, h]

theorem collected_some (h : nextParameter fromStr text = some (found, rest)) :
    collected fromStr text = found.toList ++ collected fromStr rest := by
  have hshorter := (nextParameter_cases h).1
  rw [collected, scan, h, collected]
  dsimp only
  rw [scan_parameters_rounds hshorter (Nat.lt_succ_self _)]

theorem mem_collected (h : (n, v) ∈ collected fromStr text) : parameterOpenPrefix ++ (n ++ ['"']) <:+: text := by
  induction hlen : text.length using Nat.strong_induction_on generalizing text with
  | _ length ih =>
    cases hnext : nextParameter fromStr text with
    | none =>
      rw [collected_none hnext] at h
      cases h
    | some out =>
      obtain ⟨found, rest⟩ := out
      obtain ⟨hshorter, hsuffix, hfound⟩ := nextParameter_cases hnext
      rw [collected_some hnext, List.mem_append, Option.mem_toList] at h
      obtain h | h := h
      · exact hfound n v h
      · exact (ih _ (hlen ▸ hshorter) h rfl).trans hsuffix.isInfix

/-- Text without an opening is passed over. -/
theorem collected_opening (hg : ¬ parameterOpenPrefix <:+: g) (h : parseParameter fromStr rest = some (n, v, after)) :
    collected fromStr (g ++ (parameterOpenPrefix ++ rest)) = (n, v) :: collected fromStr after := by
  have hnone : ∀ j < parameterOpenPrefix.length, 0 < j → parameterOpenPrefix[j]? = some '<' →
      parameterOpenPrefix <:+: parameterOpenPrefix.take j := by decide
  have hfind : memmem (g ++ (parameterOpenPrefix ++ rest)) parameterOpenPrefix = some g.length :=
    memmem_passes (by decide) (passes_free List.infix_rfl hg hnone _)
  have hnext : nextParameter fromStr (g ++ (parameterOpenPrefix ++ rest)) = some (some (n, v), after) := by
    rw [nextParameter, hfind]
    simp only [Option.bind_eq_bind, Option.bind_some]
    rw [← List.drop_drop, List.drop_left, List.drop_left, h]
  rw [collected_some hnext]
  rfl

/-- Well-formed parameters are collected one after the other. -/
theorem collected_behind (fromStr : List Char → Option Value) {parameters : List (WellFormed × List Char)}
    (hg : ¬ parameterOpenPrefix <:+: g)
    (hgaps : ∀ m ∈ parameters, ¬ parameterOpenPrefix <:+: m.2) : ∃ g', ¬ parameterOpenPrefix <:+: g' ∧
      ∀ y, collected fromStr (g ++ (behind parameters ++ y)) =
        namedValues fromStr parameters ++ collected fromStr (g' ++ y) := by
  induction parameters generalizing g with
  | nil => exact ⟨g, hg, fun y => rfl⟩
  | cons m parameters ih =>
    obtain ⟨g', hg', hrest⟩ := ih (hgaps m List.mem_cons_self) fun m' hm' => hgaps m' (List.mem_cons_of_mem m hm')
    refine ⟨g', hg', fun y => ?_⟩
    have htext : g ++ (behind (m :: parameters) ++ y) =
        g ++ (parameterOpenPrefix ++ (m.1.text ++ (m.2 ++ (behind parameters ++ y)))) := by
      rw [behind, List.flatMap_cons]
      simp only [List.append_assoc]
      rfl
    rw [htext, collected_opening hg (parseParameter_wellFormed m.1 _), hrest]
    rfl

end Collect

section Values
variable {fromStr : List Char → Option Value} {name : List Char} {v : Value}

theorem lastValue_append (found found' : List (List Char × Value)) :
    lastValue name (found ++ found') = (lastValue name found').or (lastValue name found) := by
  induction found with
  | nil => rw [List.nil_append, lastValue, Option.or_none]
  | cons m found ih => rw [List.cons_append, lastValue, lastValue, ih, Option.or_assoc]

theorem lastValue_none {found : List (List Char × Value)} (h : ∀ m ∈ found, m.1 ≠ name) :
    lastValue name found = none := by
  induction found with
  | nil => rfl
  | cons m found ih =>
    rw [lastValue, ih fun m' hm' => h m' (List.mem_cons_of_mem m hm'), if_neg (h m List.mem_cons_self)]
    rfl

private theorem member_mapInsert (map : List (List Char × Value)) (key : List Char) (v : Value) :
    (Value.object (mapInsert map key v)).member name =
      if key = name then some v else (Value.object map).member name := by
  simp only [Value.member, mapInsert]
  by_cases hany : (map.any fun m => decide (m.1 = key)) = true
  · rw [if_pos hany, List.find?_map]
    have hsame : ((fun m : List Char × Value => decide (m.1 = name)) ∘ fun m => if m.1 = key then (key, v) else m) =
        fun m => decide (m.1 = name) := by
      funext m
      by_cases hm : m.1 = key
      · simp [hm]
      · simp [hm]
    rw [hsame, Option.map_map]
    cases hfind : map.find? fun m => decide (m.1 = name) with
    | none =>
      rw [if_neg]
      · rfl
      · rintro rfl
        obtain ⟨m, hm, hkey⟩ := List.any_eq_true.1 hany
        exact List.find?_eq_none.1 hfind m hm hkey
    | some m =>
      have hname : m.1 = name := by simpa using List.find?_some hfind
      rw [Option.map_some, Function.comp_apply, hname]
      by_cases hkey : name = key
      · rw [if_pos hkey, if_pos hkey.symm]
      · rw [if_neg hkey, if_neg (Ne.symm hkey)]
        rfl
  · rw [if_neg hany, List.find?_append, Option.map_or]
    by_cases hkey : key = name
    · subst hkey
      have hnone : map.find? (fun m => decide (m.1 = key)) = none := by
        rw [List.find?_eq_none]
        intro m hm hmkey
        exact hany (List.any_eq_true.2 ⟨m, hm, hmkey⟩)
      rw [hnone, if_pos rfl]
      simp
    · rw [if_neg hkey]
      simp [hkey]

private theorem member_foldl (found map : List (List Char × Value)) :
    (Value.object (found.foldl (fun map m => mapInsert map m.1 m.2) map)).member name =
      (lastValue name found).or ((Value.object map).member name) := by
  induction found generalizing map with
  | nil => rfl
  | cons m found ih =>
    rw [List.foldl_cons, ih, member_mapInsert, lastValue, Option.or_assoc]
    split_ifs <;> rfl

theorem member_parseParameters (body : List Char) :
    (parseParameters fromStr body).member name = lastValue name (collected fromStr body) := by
  rw [parseParameters, member_foldl]
  exact Option.or_none

theorem keeps_iff_lastValue {body : List Char} {p : WellFormed} :
    Keeps fromStr body p ↔ lastValue p.name (collected fromStr body) = some (p.value fromStr) := by
  rw [Keeps, member_parseParameters]
  exact and_iff_right fun rounds hrounds => scan_parameters_rounds hrounds (Nat.lt_succ_self _)

end Values

/-- A well-formed parameter survives a broken one before it exactly when the broken one ends before the next opening,
when yet another parameter stands between them, or when it was already there with the same value. -/
theorem keeps_iff (fromStr : List Char → Option Value) (gap b after : List Char)
    (front between : List (WellFormed × List Char)) (p : WellFormed)
    (hgap : ¬ parameterOpenPrefix <:+: gap) (hfront : ∀ m ∈ front, ¬ parameterOpenPrefix <:+: m.2)
    (hb : ¬ parameterOpenPrefix <:+: b) (hbetween : ∀ m ∈ between, ¬ parameterOpenPrefix <:+: m.2)
    (hother : readName b ≠ p.name) (hafter : ¬ parameterOpenPrefix ++ (p.name ++ ['"']) <:+: after) :
    Keeps fromStr (gap ++ (behind front ++ (parameterOpenPrefix ++ (b ++ (behind between ++
        (parameterOpenPrefix ++ (p.text ++ after))))))) p ↔
      between ≠ [] ∨ endsWithin b = true ∨
        lastValue p.name (namedValues fromStr front) = some (p.value fromStr) := by
  have hlast : lastValue p.name (collected fromStr after) = none := by
    apply lastValue_none
    rintro ⟨n, v⟩ hm rfl
    exact hafter (mem_collected hm)
  have hfound : ∀ (g : List Char) (parameters : List (WellFormed × List Char)), ¬ parameterOpenPrefix <:+: g →
      (∀ m ∈ parameters, ¬ parameterOpenPrefix <:+: m.2) →
      lastValue p.name (collected fromStr (g ++ (behind parameters ++ (parameterOpenPrefix ++ (p.text ++ after))))) =
        some (p.value fromStr) := by
    intro g parameters hg hparameters
    obtain ⟨g', hg', hrest⟩ := collected_behind fromStr hg hparameters
    rw [hrest, lastValue_append, collected_opening hg' (parseParameter_wellFormed p after), lastValue, hlast,
      if_pos rfl]
    rfl
  obtain ⟨g, hg, hstart⟩ := collected_behind fromStr hgap hfront
  rw [keeps_iff_lastValue, hstart, lastValue_append]
  cases hends : endsWithin b with
  | true =>
    obtain ⟨n, v, r, hparse⟩ := endsWithin_iff.1 hends
    have hr : ¬ parameterOpenPrefix <:+: r := fun hin => hb (hin.trans (parseParameter_suffix hparse).2.isInfix)
    rw [collected_opening hg (parseParameter_append hparse _), lastValue, hfound r between hr hbetween]
    exact iff_of_true rfl (.inr (.inl rfl))
  | false =>
    cases between with
    | nil =>
      obtain ⟨v, hparse⟩ := parseParameter_swallows fromStr hends p after
      have hnothing : behind [] ++ (parameterOpenPrefix ++ (p.text ++ after)) =
          parameterOpenPrefix ++ (p.text ++ after) := rfl
      rw [hnothing, collected_opening hg hparse, lastValue, hlast, if_neg hother, Option.none_or, Option.none_or]
      simp
    | cons m between =>
      have htext : behind (m :: between) ++ (parameterOpenPrefix ++ (p.text ++ after)) = parameterOpenPrefix ++
          (m.1.text ++ (m.2 ++ (behind between ++ (parameterOpenPrefix ++ (p.text ++ after))))) := by
        rw [behind, List.flatMap_cons]
        simp only [List.append_assoc]
        rfl
      obtain ⟨v, hparse⟩ := parseParameter_swallows fromStr hends m.1
        (m.2 ++ (behind between ++ (parameterOpenPrefix ++ (p.text ++ after))))
      rw [htext, collected_opening hg hparse, lastValue,
        hfound m.2 between (hbetween m List.mem_cons_self) fun m' hm' => hbetween m' (List.mem_cons_of_mem m hm')]
      exact iff_of_true rfl (.inl (List.cons_ne_nil _ _))

private def loneParser (_ : List Char) : Option Value := none

private def pathParameter : WellFormed := ⟨"path".toList, true, "/tmp/x".toList, by decide, by decide, by decide⟩

/-- Without its string attribute, but closed, a broken parameter leaves the next one alone. -/
theorem keeps_after_closed : Keeps loneParser (parameterOpenPrefix ++ ("edits\">[]".toList ++ parameterClose ++
    (parameterOpenPrefix ++ (pathParameter.text ++ ['\n'])))) pathParameter :=
  (keeps_iff loneParser [] ("edits\">[]".toList ++ parameterClose) ['\n'] [] [] pathParameter (by decide) (by simp)
    (by decide) (by simp) (by decide) (by decide)).2 (.inr (.inl (by decide)))

/-- Without its closing marker a broken parameter takes the next one as its value. -/
theorem unclosed_swallows : ¬ Keeps loneParser (parameterOpenPrefix ++ ("edits\" string=\"true\">[]".toList ++
    (parameterOpenPrefix ++ pathParameter.text))) pathParameter := by
  intro h
  have hlost : ((parseParameters loneParser (parameterOpenPrefix ++ ("edits\" string=\"true\">[]".toList ++
      (parameterOpenPrefix ++ pathParameter.text)))).member pathParameter.name).isSome = false := by decide +kernel
  rw [h.2] at hlost
  cases hlost

end Hipscope.Dsml
