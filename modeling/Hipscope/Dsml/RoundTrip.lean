import Mathlib.Data.List.Nodup
import Hipscope.Dsml.Call
import Hipscope.Dsml.StreamChunks
import Hipscope.Text.Search

/-! Rendering calls and parsing them back: names and keys come back escaped, values as they were. -/
namespace Hipscope.Dsml
open Text

/-- What every structural marker contains. -/
def marker : List Char := ['｜', 'D', 'S', 'M', 'L', '｜']

/-- A text in which the marker does not occur. -/
def MarkerFree (s : List Char) : Prop := ¬ marker <:+: s

instance (s : List Char) : Decidable (MarkerFree s) := inferInstanceAs (Decidable (¬ marker <:+: s))

private theorem marker_ne_nil : marker ≠ [] := by decide

theorem MarkerFree.xmlAttrEscape {s : List Char} (h : MarkerFree s) : MarkerFree (xmlAttrEscape s) := by
  intro hin
  refine h (infix_of_flatMap (fun c => ?_) hin)
  simp only [xmlEscape]
  split_ifs
  all_goals first | exact .inl rfl | exact .inr (by decide)

private theorem hexDigit_not_mem (n : ℕ) : hexDigit n ∉ marker := by
  rw [hexDigit, List.getD_eq_getElem?_getD]
  cases hget : "0123456789abcdef".toList[n]? with
  | none => decide
  | some c =>
    have hall : ∀ c ∈ "0123456789abcdef".toList, c ∉ marker := by decide
    exact hall c (List.mem_of_getElem? hget)

private theorem jsonEscape_cases (c : Char) :
    jsonEscape c = [c] ∨ (jsonEscape c ≠ [] ∧ ∀ x ∈ jsonEscape c, x ∉ marker) := by
  have hcode : ∀ x ∈ "\\u00".toList ++ [hexDigit (c.toNat / 16), hexDigit (c.toNat % 16)], x ∉ marker := by
    intro x hx
    have hfront : ∀ x ∈ "\\u00".toList, x ∉ marker := by decide
    rcases List.mem_append.1 hx with hx | hx
    · exact hfront x hx
    · rcases List.mem_cons.1 hx with rfl | hx
      · exact hexDigit_not_mem _
      · rw [List.mem_singleton.1 hx]
        exact hexDigit_not_mem _
  rw [jsonEscape]
  split_ifs
  all_goals first | exact .inl rfl | exact .inr (by decide) | exact .inr ⟨by simp, hcode⟩

theorem MarkerFree.jsonString {s : List Char} (h : MarkerFree s) : MarkerFree (jsonString s) := by
  have hbody : MarkerFree (s.flatMap jsonEscape) := fun hin => h (infix_of_flatMap jsonEscape_cases hin)
  have hquote : '"' ∉ marker := by decide
  have hnil : MarkerFree [] := by decide
  have hopened : MarkerFree ([] ++ '"' :: s.flatMap jsonEscape) := free_append_cons hquote hnil hbody
  exact free_append_cons hquote hopened hnil

/-- Literal text between two pieces keeps them apart. -/
private theorem MarkerFree.append {a b : List Char} {sep : List Char} (hsep : ∀ c ∈ sep, c ∉ marker) (hne : sep ≠ [])
    (ha : MarkerFree a) (hb : MarkerFree b) : MarkerFree (a ++ sep ++ b) := by
  induction sep generalizing a with
  | nil => exact absurd rfl hne
  | cons c sep ih =>
    have hc := hsep c (by simp)
    cases sep with
    | nil =>
      rw [List.append_assoc]
      exact free_append_cons hc ha hb
    | cons d sep =>
      have hnil : MarkerFree [] := by decide
      have hrest := ih (fun x hx => hsep x (List.mem_cons_of_mem c hx)) (by simp) hnil
      rw [List.append_assoc]
      exact free_append_cons hc ha hrest

mutual

/-- The keys and string values of a value, at every depth. -/
def Value.texts : Value → List (List Char)
  | .null => []
  | .bool _ => []
  | .number _ => []
  | .string s => [s]
  | .array items => itemTexts items
  | .object members => memberTexts members

def itemTexts : List Value → List (List Char)
  | [] => []
  | v :: rest => v.texts ++ itemTexts rest

def memberTexts : List (List Char × Value) → List (List Char)
  | [] => []
  | (k, v) :: rest => k :: v.texts ++ memberTexts rest

end

private theorem free_literal {s : List Char} (h : ∀ c ∈ s, c ∉ marker) : MarkerFree s :=
  free_of_disjoint marker_ne_nil h

private theorem free_closed {s : List Char} {l r : Char} (hl : l ∉ marker) (hr : r ∉ marker) (h : MarkerFree s) :
    MarkerFree (l :: s ++ [r]) := by
  have hnil : MarkerFree [] := by decide
  have hopened : MarkerFree ([] ++ l :: s) := free_append_cons hl hnil h
  exact free_append_cons hr hopened hnil

mutual

theorem pyCompactJson_free : (v : Value) → (∀ t ∈ v.texts, MarkerFree t) → MarkerFree (pyCompactJson v)
  | .null, _ => by decide
  | .bool b, _ => by cases b <;> decide
  | .number n, _ => by
    have hall : ∀ c ∈ "0123456789+-.eE".toList, c ∉ marker := by decide
    exact free_literal fun c hc => hall c (n.plain c hc)
  | .string s, h => MarkerFree.jsonString (h s (by simp [Value.texts]))
  | .array items, h => free_closed (by decide) (by decide) (pyItems_free items h)
  | .object members, h => free_closed (by decide) (by decide) (pyMembers_free members h)

theorem pyItems_free : (items : List Value) → (∀ t ∈ itemTexts items, MarkerFree t) → MarkerFree (pyItems items)
  | [], _ => by decide
  | [v], h => pyCompactJson_free v fun t ht => h t (by simp [itemTexts, ht])
  | v :: w :: rest, h => by
    have hv := pyCompactJson_free v fun t ht => h t (by simp [itemTexts, ht])
    have hrest := pyItems_free (w :: rest) fun t ht => h t (by rw [itemTexts]; exact List.mem_append_right _ ht)
    exact MarkerFree.append (by decide) (by decide) hv hrest

theorem pyMembers_free : (members : List (List Char × Value)) → (∀ t ∈ memberTexts members, MarkerFree t) →
    MarkerFree (pyMembers members)
  | [], _ => by decide
  | [(k, v)], h => by
    have hk := MarkerFree.jsonString (h k (by simp [memberTexts]))
    have hv := pyCompactJson_free v fun t ht => h t (by simp [memberTexts, ht])
    exact MarkerFree.append (by decide) (by decide) hk hv
  | (k, v) :: w :: rest, h => by
    have hk := MarkerFree.jsonString (h k (by simp [memberTexts]))
    have hv := pyCompactJson_free v fun t ht => h t (by simp [memberTexts, ht])
    have hrest := pyMembers_free (w :: rest) fun t ht =>
      h t (by rw [memberTexts]; exact List.mem_append_right _ ht)
    exact MarkerFree.append (by decide) (by decide) (MarkerFree.append (by decide) (by decide) hk hv) hrest

end

private theorem quote_not_mem_escape (s : List Char) : '"' ∉ xmlAttrEscape s := by
  rw [xmlAttrEscape, List.mem_flatMap]
  rintro ⟨c, -, hc⟩
  rw [xmlEscape] at hc
  split_ifs at hc with h₁ h₂ h₃ h₄
  · exact absurd hc (by decide)
  · exact absurd hc (by decide)
  · exact absurd hc (by decide)
  · exact absurd hc (by decide)
  · exact h₁ (List.mem_singleton.1 hc).symm

/-- A text that begins and ends outside white space. -/
theorem trim_eq {s : List Char} (hhead : ∀ c ∈ s.head?, isWhitespace c = false)
    (hlast : ∀ c ∈ s.getLast?, isWhitespace c = false) : trim s = s := by
  have hdrop : ∀ t : List Char, (∀ c ∈ t.head?, isWhitespace c = false) → t.dropWhile isWhitespace = t := by
    intro t ht
    cases t with
    | nil => rfl
    | cons c t => rw [List.dropWhile_cons, ht c rfl, if_neg (by simp)]
  rw [trim, hdrop s hhead, hdrop s.reverse (by simpa using hlast), List.reverse_reverse]

private theorem trim_closed {l r : Char} (hl : isWhitespace l = false) (hr : isWhitespace r = false) (s : List Char) :
    trim (l :: s ++ [r]) = l :: s ++ [r] := by
  refine trim_eq (fun c hc => ?_) fun c hc => ?_
  · rw [List.cons_append, List.head?_cons, Option.mem_some_iff] at hc
    rw [← hc, hl]
  · rw [List.getLast?_concat, Option.mem_some_iff] at hc
    rw [← hc, hr]

theorem trim_pyCompactJson (v : Value) : trim (pyCompactJson v) = pyCompactJson v := by
  cases v with
  | null => rfl
  | bool b => cases b <;> rfl
  | number n =>
    have hall : ∀ c ∈ "0123456789+-.eE".toList, isWhitespace c = false := by decide
    exact trim_eq (fun c hc => hall c (n.plain c (List.mem_of_mem_head? hc)))
      fun c hc => hall c (n.plain c (List.mem_of_getLast? hc))
  | string s => exact trim_closed (by decide) (by decide) _
  | array items => exact trim_closed (by decide) (by decide) _
  | object members => exact trim_closed (by decide) (by decide) _

def Value.isString : Value → Bool
  | .string _ => true
  | _ => false

/-- The attribute that tells a raw string from JSON. -/
def stringAttr (isString : Bool) : List Char := if isString then "true".toList else "false".toList

theorem parameterTag_rendered (isString : Bool) (content : List Char) :
    parameterTag ("\" string=\"".toList ++ stringAttr isString ++ "\">".toList ++ content) =
      some (isString, content) := by
  have hopen : memmem (" string=\"".toList ++ stringAttr isString ++ ['"'] ++ (['>'] ++ content)) ['>'] =
      some (" string=\"".toList ++ stringAttr isString ++ ['"']).length :=
    memmem_passes (by decide) (passes_head (by cases isString <;> decide) _)
  have hclose : memmem (stringAttr isString ++ (['"'] ++ (['>'] ++ content))) ['"'] =
      some (stringAttr isString).length :=
    memmem_passes (by decide) (passes_head (by cases isString <;> decide) _)
  have hstart : memmem ([] ++ ("\">".toList ++ content)) "\">".toList = some 0 :=
    memmem_passes (by decide) Passes.nil
  have hattr : memmem (" string=\"".toList ++ stringAttr isString ++ ['"']) "string=\"".toList = some 1 := by
    cases isString <;> decide
  rw [parameterTag]
  have hquoted : ("\" string=\"".toList ++ stringAttr isString ++ "\">".toList ++ content).drop 1 =
      " string=\"".toList ++ stringAttr isString ++ ['"'] ++ (['>'] ++ content) := by
    cases isString <;> rfl
  have htag : (" string=\"".toList ++ stringAttr isString ++ ['"'] ++ (['>'] ++ content)).take
      (" string=\"".toList ++ stringAttr isString ++ ['"']).length =
        " string=\"".toList ++ stringAttr isString ++ ['"'] := List.take_left
  have hvalue : (" string=\"".toList ++ stringAttr isString ++ ['"'] ++ (['>'] ++ content)).drop
      (1 + "string=\"".toList.length) = stringAttr isString ++ (['"'] ++ (['>'] ++ content)) := by
    cases isString <;> rfl
  have htrue : decide (stringAttr isString = "true".toList) = isString := by
    cases isString <;> rfl
  simp only [hquoted, hopen, Option.bind_some, htag, hattr, hvalue, hclose, Option.bind_eq_bind,
    List.take_left, List.drop_left]
  rw [show ['"'] ++ (['>'] ++ content) = [] ++ ("\">".toList ++ content) from rfl, hstart, Option.bind_some, htrue]
  rfl

/-- A closing marker with what keeps it out of rendered parameters: it contains the key, no
literal piece agrees with it, and neither `"` nor `<` continues it. -/
structure Skips (n : List Char) (literals : List (List Char)) : Prop where
  keyed : marker <:+: n
  literal : ∀ l ∈ literals, ∀ i < l.length, ¬ n <+: l.drop i ∧ ¬ l.drop i <+: n
  follows : ∀ c ∈ ['"', '<'], ∀ j < n.length, 0 < j → n[j]? = some c → marker <:+: n.take j

instance (n : List Char) (literals : List (List Char)) : Decidable (Skips n literals) :=
  decidable_of_iff (marker <:+: n ∧ (∀ l ∈ literals, ∀ i < l.length, ¬ n <+: l.drop i ∧ ¬ l.drop i <+: n) ∧
      ∀ c ∈ ['"', '<'], ∀ j < n.length, 0 < j → n[j]? = some c → marker <:+: n.take j)
    ⟨fun ⟨h₁, h₂, h₃⟩ => ⟨h₁, h₂, h₃⟩, fun ⟨h₁, h₂, h₃⟩ => ⟨h₁, h₂, h₃⟩⟩

/-- The literal pieces of a rendered parameter. -/
def parameterLiterals : List (List Char) :=
  [parameterOpenPrefix, "\" string=\"".toList, "true".toList, "false".toList, "\">".toList, parameterClose, ['\n']]

section Rendered
variable {n : List Char} {literals : List (List Char)} {key : List Char} {value : Value}

theorem Skips.passes_literal (h : Skips n literals) {l : List Char} (hl : l ∈ literals) (b : List Char) :
    Passes n l b :=
  Text.passes_literal (h.literal l hl) b

theorem Skips.passes_free (h : Skips n literals) {a : List Char} (ha : MarkerFree a) {c : Char} (hc : c ∈ ['"', '<'])
    (b : List Char) : Passes n a (c :: b) :=
  Text.passes_free h.keyed ha (h.follows c hc) b

/-- The value's text as it is rendered. -/
theorem payload_free (hvalue : ∀ t ∈ value.texts, MarkerFree t) : MarkerFree (payload value).2 := by
  cases value with
  | string s => exact hvalue s (by simp [Value.texts])
  | null => exact pyCompactJson_free _ hvalue
  | bool b => exact pyCompactJson_free _ hvalue
  | number n => exact pyCompactJson_free _ hvalue
  | array items => exact pyCompactJson_free _ hvalue
  | object members => exact pyCompactJson_free _ hvalue

theorem payload_attr (value : Value) : (payload value).1 = stringAttr value.isString := by
  cases value <;> rfl

theorem Skips.passes_parameter (h : Skips n literals) (hsub : ∀ l ∈ parameterLiterals, l ∈ literals)
    (hkey : MarkerFree key) (hvalue : ∀ t ∈ value.texts, MarkerFree t) (b : List Char) :
    Passes n (renderParameter key value) b := by
  have hlit : ∀ {l : List Char}, l ∈ parameterLiterals → ∀ b, Passes n l b := fun hl b =>
    h.passes_literal (hsub _ hl) b
  have hattr : ∀ b, Passes n (payload value).1 b := by
    intro b
    rw [payload_attr]
    cases value.isString <;> exact hlit (by decide) b
  rw [renderParameter]
  refine .append (.append (.append (.append (.append (.append (.append (hlit (by decide) _) ?_) (hlit (by decide) _))
    (hattr _)) (hlit (by decide) _)) ?_) (hlit (by decide) _)) (hlit (by decide) _)
  · exact h.passes_free hkey.xmlAttrEscape (by decide) _
  · exact h.passes_free (payload_free hvalue) (by decide) _

end Rendered

section Parse
variable {fromStr : List Char → Option Value}

/-- The parser reads back what a value prints as. -/
def ReadsBack (fromStr : List Char → Option Value) (value : Value) : Prop :=
  value.isString = false → fromStr (pyCompactJson value) = some value

private theorem read_payload {value : Value} (hread : ReadsBack fromStr value) :
    (if value.isString then .string (payload value).2
      else (fromStr (trim (payload value).2)).getD (.string (payload value).2)) = value := by
  cases value with
  | string s => rfl
  | null => simp [Value.isString, payload, trim_pyCompactJson, hread rfl]
  | bool b => simp [Value.isString, payload, trim_pyCompactJson, hread rfl]
  | number n => simp [Value.isString, payload, trim_pyCompactJson, hread rfl]
  | array items => simp [Value.isString, payload, trim_pyCompactJson, hread rfl]
  | object members => simp [Value.isString, payload, trim_pyCompactJson, hread rfl]

theorem parseParameter_rendered (key : List Char) {value : Value} (hvalue : ∀ t ∈ value.texts, MarkerFree t)
    (hread : ReadsBack fromStr value) (after : List Char) :
    parseParameter fromStr (xmlAttrEscape key ++ ("\" string=\"".toList ++ stringAttr value.isString ++ "\">".toList ++
      ((payload value).2 ++ (parameterClose ++ after)))) = some (xmlAttrEscape key, value, after) := by
  have hname : ∀ rest, memmem (xmlAttrEscape key ++ (['"'] ++ rest)) ['"'] = some (xmlAttrEscape key).length :=
    fun rest => memmem_passes (by decide) (passes_head (quote_not_mem_escape key) _)
  have hcontent : memmem ((payload value).2 ++ (parameterClose ++ after)) parameterClose =
      some (payload value).2.length := by
    have hskips : Skips parameterClose [] := by decide
    exact memmem_passes (by decide) (hskips.passes_free (payload_free hvalue) (by decide) _)
  have hquote := hname ((" string=\"".toList ++ stringAttr value.isString ++ "\">".toList ++
    ((payload value).2 ++ (parameterClose ++ after))))
  have hopen : "\" string=\"".toList ++ stringAttr value.isString ++ "\">".toList ++
      ((payload value).2 ++ (parameterClose ++ after)) = ['"'] ++ (" string=\"".toList ++ stringAttr value.isString ++
        "\">".toList ++ ((payload value).2 ++ (parameterClose ++ after))) := rfl
  have hread' := read_payload hread
  rw [← hopen] at hquote
  rw [parseParameter]
  simp only [hquote, Option.bind_eq_bind, Option.bind_some, List.drop_left, List.take_left, parameterTag_rendered,
    hcontent]
  rw [hread', List.drop_append, List.drop_eq_nil_of_le (Nat.le_add_right _ _), List.nil_append,
    Nat.add_sub_cancel_left, List.drop_left]

/-- The members with their keys escaped. -/
def escapedMembers (members : List (List Char × Value)) : List (List Char × Value) :=
  members.map fun m => (xmlAttrEscape m.1, m.2)

/-- Keys, string values and numbers of the members survive printing and parsing. -/
structure Printable (fromStr : List Char → Option Value) (members : List (List Char × Value)) : Prop where
  distinct : (members.map Prod.fst).Nodup
  keys : ∀ m ∈ members, MarkerFree m.1
  values : ∀ m ∈ members, ∀ t ∈ m.2.texts, MarkerFree t
  reads : ∀ m ∈ members, ReadsBack fromStr m.2

private theorem mapInsert_new {map : List (List Char × Value)} {key : List Char} (h : key ∉ map.map Prod.fst)
    (value : Value) : mapInsert map key value = map ++ [(key, value)] := by
  rw [mapInsert, if_neg]
  intro hany
  obtain ⟨m, hm, hkey⟩ := List.any_eq_true.1 hany
  exact h (List.mem_map.2 ⟨m, hm, of_decide_eq_true hkey⟩)

private theorem xmlEscape_append_inj {c d : Char} {s t : List Char} (h : xmlEscape c ++ s = xmlEscape d ++ t) :
    c = d ∧ s = t := by
  have hquot : "&quot;".toList = ['&', 'q', 'u', 'o', 't', ';'] := rfl
  have hamp : "&amp;".toList = ['&', 'a', 'm', 'p', ';'] := rfl
  have hlt : "&lt;".toList = ['&', 'l', 't', ';'] := rfl
  have hgt : "&gt;".toList = ['&', 'g', 't', ';'] := rfl
  simp only [xmlEscape, hquot, hamp, hlt, hgt] at h
  split_ifs at h <;> simp_all
  all_goals exact absurd h.1.symm (by assumption)

private theorem xmlEscape_ne_nil (c : Char) : xmlEscape c ≠ [] := by
  rw [xmlEscape]
  split_ifs <;> simp

theorem xmlAttrEscape_injective : Function.Injective xmlAttrEscape := by
  intro s
  induction s with
  | nil =>
    intro t h
    cases t with
    | nil => rfl
    | cons d t => simp [xmlAttrEscape, xmlEscape_ne_nil] at h
  | cons c s ih =>
    intro t h
    cases t with
    | nil => simp [xmlAttrEscape, xmlEscape_ne_nil] at h
    | cons d t =>
      rw [xmlAttrEscape, xmlAttrEscape, List.flatMap_cons, List.flatMap_cons] at h
      obtain ⟨rfl, hrest⟩ := xmlEscape_append_inj h
      rw [ih hrest]

theorem nextParameter_rendered {key : List Char} {value : Value} (hvalue : ∀ t ∈ value.texts, MarkerFree t)
    (hread : ReadsBack fromStr value) (after : List Char) :
    nextParameter fromStr ('\n' :: (renderParameter key value ++ after)) =
      some (some (xmlAttrEscape key, value), '\n' :: after) := by
  have hfind : ∀ rest, memmem (['\n'] ++ (parameterOpenPrefix ++ rest)) parameterOpenPrefix = some 1 := fun rest =>
    memmem_passes (by decide) (passes_literal (by decide) _)
  have hrest : ∀ rest, (['\n'] ++ (parameterOpenPrefix ++ rest)).drop (1 + parameterOpenPrefix.length) = rest :=
    fun rest => by rw [Nat.add_comm, List.singleton_append, List.drop_succ_cons, List.drop_left]
  have hparse := parseParameter_rendered key hvalue hread ('\n' :: after)
  have hshape : '\n' :: (renderParameter key value ++ after) =
      ['\n'] ++ (parameterOpenPrefix ++ (xmlAttrEscape key ++ ("\" string=\"".toList ++ stringAttr value.isString ++
        "\">".toList ++ ((payload value).2 ++ (parameterClose ++ ('\n' :: after)))))) := by
    rw [renderParameter, payload_attr]
    simp
  rw [hshape, nextParameter, hfind]
  simp only [Option.bind_eq_bind, Option.bind_some, hrest, hparse]

private theorem nextParameter_end : nextParameter fromStr ['\n'] = none := by
  have hnone : memmem ['\n'] parameterOpenPrefix = none := by decide
  rw [nextParameter, hnone]
  rfl

private theorem scan_parameters (members : List (List Char × Value)) :
    ∀ {rounds : ℕ}, members.length < rounds → (∀ m ∈ members, ∀ t ∈ m.2.texts, MarkerFree t) →
      (∀ m ∈ members, ReadsBack fromStr m.2) →
      scan (nextParameter fromStr) rounds ('\n' :: members.flatMap fun m => renderParameter m.1 m.2) =
        escapedMembers members := by
  induction members with
  | nil =>
    intro rounds hrounds _ _
    obtain ⟨rounds, rfl⟩ := Nat.exists_eq_succ_of_ne_zero (by omega : rounds ≠ 0)
    rw [List.flatMap_nil, scan, nextParameter_end]
    rfl
  | cons m members ih =>
    intro rounds hrounds hvalues hreads
    obtain ⟨rounds, rfl⟩ := Nat.exists_eq_succ_of_ne_zero (by omega : rounds ≠ 0)
    rw [List.flatMap_cons, scan, nextParameter_rendered (hvalues m (by simp)) (hreads m (by simp))]
    dsimp only
    rw [ih (by simpa using hrounds) (fun m' hm' => hvalues m' (List.mem_cons_of_mem m hm'))
      fun m' hm' => hreads m' (List.mem_cons_of_mem m hm')]
    rfl

/-- Distinct keys are inserted one after the other. -/
private theorem foldl_insert (members : List (List Char × Value)) :
    ∀ {map : List (List Char × Value)}, ((map ++ members).map Prod.fst).Nodup →
      members.foldl (fun map m => mapInsert map m.1 m.2) map = map ++ members := by
  induction members with
  | nil => intro map _; simp
  | cons m members ih =>
    intro map hdistinct
    have hfresh : m.1 ∉ map.map Prod.fst := by
      intro hmem
      rw [List.map_append, List.nodup_append] at hdistinct
      exact hdistinct.2.2 _ hmem _ (by simp) rfl
    rw [List.foldl_cons, mapInsert_new hfresh, ih (by simpa using hdistinct)]
    simp

theorem length_le_flatMap {α : Type} {f : α → List Char} (hf : ∀ a, f a ≠ []) (items : List α) :
    items.length ≤ (items.flatMap f).length := by
  induction items with
  | nil => exact Nat.le_refl _
  | cons a items ih =>
    have := List.length_pos_iff.2 (hf a)
    rw [List.flatMap_cons, List.length_append, List.length_cons]
    omega

theorem parseParameters_rendered {members : List (List Char × Value)} (h : Printable fromStr members) :
    parseParameters fromStr ('\n' :: members.flatMap fun m => renderParameter m.1 m.2) =
      .object (escapedMembers members) := by
  have hlength := length_le_flatMap (f := fun m => renderParameter m.1 m.2) (by simp [renderParameter]) members
  have hdistinct : ((escapedMembers members).map Prod.fst).Nodup := by
    have := List.Nodup.map xmlAttrEscape_injective h.distinct
    rw [List.map_map] at this
    rwa [escapedMembers, List.map_map]
  rw [parseParameters, scan_parameters members (by rw [List.length_cons]; omega) h.values h.reads,
    foldl_insert _ (by simpa using hdistinct)]
  rfl

/-- A call whose arguments are an object with printable members. -/
structure ToolCall.Printable (fromStr : List Char → Option Value) (call : ToolCall)
    (members : List (List Char × Value)) : Prop where
  arguments : call.arguments = .object members
  name : MarkerFree call.name
  members : Dsml.Printable fromStr members

/-- The call as the parser reads it back. -/
def ToolCall.escaped (call : ToolCall) : ToolCall :=
  { name := xmlAttrEscape call.name
    arguments := match call.arguments with
      | .object members => .object (escapedMembers members)
      | other => other }

theorem passes_parameters {n : List Char} {literals : List (List Char)} (hskips : Skips n literals)
    (hsub : ∀ l ∈ parameterLiterals, l ∈ literals) {members : List (List Char × Value)}
    (h : Printable fromStr members) (b : List Char) :
    Passes n (members.flatMap fun m => renderParameter m.1 m.2) b := by
  obtain ⟨-, hkeys, hvalues, -⟩ := h
  induction members with
  | nil => exact Passes.nil
  | cons m members ih =>
    rw [List.flatMap_cons]
    exact (hskips.passes_parameter hsub (hkeys m (by simp)) (hvalues m (by simp)) _).append
      (ih (fun m' hm' => hkeys m' (List.mem_cons_of_mem m hm')) fun m' hm' => hvalues m' (List.mem_cons_of_mem m hm'))

theorem firstHit_left {α : Type} {a : ℕ × α} {hit : Option (ℕ × α)} (h : ∀ b, hit = some b → a.1 ≤ b.1) :
    firstHit (some a) hit = some a := by
  cases hit with
  | none => rfl
  | some b => rw [firstHit, if_pos (h b rfl)]

theorem nextCall_rendered {call : ToolCall} {members : List (List Char × Value)} (h : call.Printable fromStr members)
    (after : List Char) :
    nextCall fromStr ('\n' :: (call.toDsml ++ after)) = some (some call.escaped, after) := by
  have hinvoke : ∀ rest, memmem (['\n'] ++ (invokeOpenPrefix ++ rest)) invokeOpenPrefix = some 1 := fun rest =>
    memmem_passes (by decide) (passes_literal (by decide) _)
  have htool : ∀ rest, ∀ hit, memmem (['\n'] ++ (invokeOpenPrefix ++ rest)) toolOpenPrefixAlt = some hit → 1 ≤ hit :=
    fun rest hit => le_of_memmem (by decide) (passes_literal (by decide) _)
  have hrest : ∀ rest, (['\n'] ++ (invokeOpenPrefix ++ rest)).drop (1 + invokeOpenPrefix.length) = rest :=
    fun rest => by rw [Nat.add_comm, List.singleton_append, List.drop_succ_cons, List.drop_left]
  have hname : ∀ rest, memmem (xmlAttrEscape call.name ++ (['"', '>'] ++ rest)) ['"', '>'] =
      some (xmlAttrEscape call.name).length :=
    fun rest => memmem_passes (by decide) (passes_head (quote_not_mem_escape _) _)
  have hparameters : ∀ {n : List Char}, Skips n parameterLiterals → ∀ b,
      Passes n (['\n'] ++ members.flatMap fun m => renderParameter m.1 m.2) b := fun hskips b =>
    (hskips.passes_literal (by decide) _).append (passes_parameters hskips (fun _ hl => hl) h.members b)
  set parameters := ['\n'] ++ members.flatMap fun m => renderParameter m.1 m.2 with hdef
  have hclose : memmem (parameters ++ (invokeClose ++ after)) invokeClose = some parameters.length :=
    memmem_passes (by decide) (hparameters (by decide) _)
  have hgeneric : ∀ hit, memmem (parameters ++ (invokeClose ++ after)) genericClose = some hit →
      parameters.length ≤ hit := fun hit => le_of_memmem (by decide) (hparameters (by decide) _)
  have hshape : '\n' :: (call.toDsml ++ after) = ['\n'] ++ (invokeOpenPrefix ++ (xmlAttrEscape call.name ++
      (['"', '>'] ++ (parameters ++ (invokeClose ++ after))))) := by
    rw [ToolCall.toDsml, h.arguments, hdef]
    simp
  have hfirst : firstHit ((some 1).map fun i => (i, invokeOpenPrefix.length, invokeClose))
      ((memmem (['\n'] ++ (invokeOpenPrefix ++ (xmlAttrEscape call.name ++ (['"', '>'] ++
        (parameters ++ (invokeClose ++ after)))))) toolOpenPrefixAlt).map fun i =>
          (i, toolOpenPrefixAlt.length, toolCloseAlt)) = some (1, invokeOpenPrefix.length, invokeClose) :=
    firstHit_left fun hit hhit => by
      obtain ⟨i, hi, rfl⟩ := Option.map_eq_some_iff.1 hhit
      exact htool _ i hi
  have hstop : firstHit ((some parameters.length).map fun i => (i, invokeClose.length))
      ((memmem (parameters ++ (invokeClose ++ after)) genericClose).map fun i => (i, genericClose.length)) =
        some (parameters.length, invokeClose.length) :=
    firstHit_left fun hit hhit => by
      obtain ⟨i, hi, rfl⟩ := Option.map_eq_some_iff.1 hhit
      exact hgeneric i hi
  have hinner : ∀ rest : List Char, (xmlAttrEscape call.name ++ (['"', '>'] ++ rest)).drop
      ((xmlAttrEscape call.name).length + 2) = rest := by
    intro rest
    rw [← List.drop_drop, List.drop_left]
    rfl
  rw [hshape, nextCall, hinvoke]
  simp only [hfirst, Option.bind_eq_bind, Option.bind_some, hrest, hname, hinner, hclose, hstop, List.take_left]
  rw [← List.drop_drop, List.drop_left, List.drop_left, ToolCall.escaped, h.arguments, hdef,
    List.singleton_append, parseParameters_rendered h.members]

private theorem nextCall_end : nextCall fromStr ['\n'] = none := by
  have hinvoke : memmem ['\n'] invokeOpenPrefix = none := by decide
  have htool : memmem ['\n'] toolOpenPrefixAlt = none := by decide
  rw [nextCall, hinvoke, htool]
  rfl

/-- Calls as an assistant turn may hold them. -/
def PrintableCalls (fromStr : List Char → Option Value) (calls : List ToolCall) : Prop :=
  ∀ call ∈ calls, ∃ members, call.Printable fromStr members

/-- The body of a rendered block. -/
def renderBody (calls : List ToolCall) : List Char := '\n' :: calls.flatMap fun c => c.toDsml ++ ['\n']

private theorem scan_calls (calls : List ToolCall) :
    ∀ {rounds : ℕ}, calls.length < rounds → PrintableCalls fromStr calls →
      scan (nextCall fromStr) rounds (renderBody calls) = calls.map ToolCall.escaped := by
  induction calls with
  | nil =>
    intro rounds hrounds _
    obtain ⟨rounds, rfl⟩ := Nat.exists_eq_succ_of_ne_zero (by omega : rounds ≠ 0)
    rw [renderBody, List.flatMap_nil, scan, nextCall_end]
    rfl
  | cons call calls ih =>
    intro rounds hrounds hprintable
    obtain ⟨rounds, rfl⟩ := Nat.exists_eq_succ_of_ne_zero (by omega : rounds ≠ 0)
    obtain ⟨members, hcall⟩ := hprintable call (by simp)
    rw [renderBody, List.flatMap_cons, List.append_assoc, scan, nextCall_rendered hcall]
    dsimp only
    rw [List.singleton_append, ← renderBody,
      ih (by simpa using hrounds) fun c hc => hprintable c (List.mem_cons_of_mem call hc)]
    rfl

theorem parseToolCallsBody_rendered {calls : List ToolCall} (h : PrintableCalls fromStr calls) :
    parseToolCallsBody fromStr (renderBody calls) = calls.map ToolCall.escaped := by
  have hlength := length_le_flatMap (f := fun c : ToolCall => c.toDsml ++ ['\n']) (by simp) calls
  exact scan_calls calls (by rw [renderBody, List.length_cons]; omega) h

/-- The literal pieces of a rendered block. -/
def blockLiterals : List (List Char) := [invokeOpenPrefix, ['"', '>', '\n'], invokeClose] ++ parameterLiterals

theorem passes_body {calls : List ToolCall} (h : PrintableCalls fromStr calls) (b : List Char) :
    Passes toolCallsClose (renderBody calls) b := by
  have hskips : Skips toolCallsClose blockLiterals := by decide
  have hlit : ∀ {l : List Char}, l ∈ blockLiterals → ∀ b, Passes toolCallsClose l b := fun hl b =>
    hskips.passes_literal hl b
  have hcalls : Passes toolCallsClose (calls.flatMap fun c => c.toDsml ++ ['\n']) b := by
    induction calls with
    | nil => exact Passes.nil
    | cons call calls ih =>
      obtain ⟨members, hcall⟩ := h call (by simp)
      rw [List.flatMap_cons]
      refine .append (.append ?_ (hlit (by decide) _)) (ih fun c hc => h c (List.mem_cons_of_mem call hc))
      rw [ToolCall.toDsml, hcall.arguments]
      refine .append (.append (.append (.append (hlit (by decide) _) ?_) (hlit (by decide) _)) ?_) (hlit (by decide) _)
      · exact hskips.passes_free hcall.name.xmlAttrEscape (by decide) _
      · exact passes_parameters hskips (fun l hl => List.mem_append_right _ hl) hcall.members _
  exact (hlit (l := ['\n']) (by decide) _).append hcalls

end Parse

section Stream
open StreamEvent StreamParser
variable {fromStr : List Char → Option Value} {calls : List ToolCall}

/-- The reference split of a rendered block is one event. -/
theorem split_rendered (h : PrintableCalls fromStr calls) :
    dsmlSplit (parseToolCallsBody fromStr) .normal [] 0 (renderAssistantToolCalls calls) =
      [.toolCalls (calls.map ToolCall.escaped)] := by
  have hopen : (toolCallsOpen, StreamState.inToolCalls) ∈ StreamState.markers .normal := by decide
  have hclose : (toolCallsClose, StreamState.normal) ∈ StreamState.markers .inToolCalls := by decide
  have hshape : renderAssistantToolCalls calls = toolCallsOpen ++ (renderBody calls ++ toolCallsClose) := by
    simp [renderAssistantToolCalls, renderBody]
  have hclear : Clear .inToolCalls (renderBody calls).length (renderBody calls ++ toolCallsClose) := by
    intro i hi m hm
    obtain rfl := List.mem_singleton.1 hm
    exact passes_body h _ i hi
  rw [hshape, split_marker _ _ hopen (List.prefix_append _ _), List.drop_left,
    split_text _ _ (by simp) hclear, List.take_left, List.drop_left, split_marker _ _ hclose (List.prefix_refl _)]
  have hnone : (renderBody calls).flatMap (ofChar .inToolCalls) = ([] : List (StreamEvent ToolCall)) := by
    simp [List.flatMap_eq_nil_iff, ofChar]
  rw [hnone]
  simp [completed, dsmlSplit, parseToolCallsBody_rendered h]

/-- Merging joins no call. -/
private theorem of_merge_eq {Call : Type} {events : List (StreamEvent Call)} {result : List Call}
    (h : merge events = [.toolCalls result]) : events = [.toolCalls result] := by
  cases events with
  | nil => cases h
  | cons e rest =>
    rw [merge, List.foldr_cons, ← merge] at h
    cases hrest : merge rest with
    | nil =>
      rw [merge_eq_nil.1 hrest]
      rw [hrest] at h
      cases e with
      | toolCalls calls => simpa [glue] using h
      | token text => simp [glue] at h
      | reasoning text => simp [glue] at h
      | malformed detail => simp [glue] at h
    | cons x xs =>
      rw [hrest] at h
      cases e <;> cases x <;> simp [glue] at h

/-- Rendered calls come back, in one event, with names and keys escaped. -/
theorem run_rendered (h : PrintableCalls fromStr calls) {chunks : List (List Char)}
    (hchunks : chunks.flatten = renderAssistantToolCalls calls) :
    new.run (parseToolCallsBody fromStr) chunks = [.toolCalls (calls.map ToolCall.escaped)] := by
  have hrun := run_start (parseToolCallsBody fromStr) false chunks
  rw [hchunks] at hrun
  refine of_merge_eq (hrun.trans ?_)
  change merge (dsmlSplit _ .normal [] 0 _) = _
  rw [split_rendered h]
  rfl

/-- None of the four characters an attribute escapes. -/
def Plain (s : List Char) : Prop := ∀ c ∈ s, c ∉ ['"', '&', '<', '>']

instance (s : List Char) : Decidable (Plain s) := inferInstanceAs (Decidable (∀ c ∈ s, c ∉ ['"', '&', '<', '>']))

/-- Neither the name nor a top-level key holds a character that is escaped. -/
def ToolCall.PlainNames (call : ToolCall) : Prop :=
  Plain call.name ∧ ∀ members, call.arguments = .object members → ∀ m ∈ members, Plain m.1

private theorem xmlEscape_plain {c : Char} (h : c ∉ ['"', '&', '<', '>']) : xmlEscape c = [c] := by
  simp only [List.mem_cons, List.not_mem_nil, or_false, not_or] at h
  obtain ⟨hquot, hamp, hlt, hgt⟩ := h
  rw [xmlEscape, if_neg hquot, if_neg hamp, if_neg hlt, if_neg hgt]

private theorem xmlEscape_long {c : Char} (h : c ∈ ['"', '&', '<', '>']) : 1 < (xmlEscape c).length := by
  have hall : ∀ c ∈ ['"', '&', '<', '>'], 1 < (xmlEscape c).length := by decide
  exact hall c h

theorem xmlAttrEscape_eq_iff (s : List Char) : xmlAttrEscape s = s ↔ Plain s := by
  induction s with
  | nil => simp [xmlAttrEscape, Plain]
  | cons c s ih =>
    have hsplit : xmlAttrEscape (c :: s) = xmlEscape c ++ xmlAttrEscape s := List.flatMap_cons
    rw [hsplit]
    by_cases hc : c ∈ ['"', '&', '<', '>']
    · refine iff_of_false (fun h => ?_) fun h => h c (by simp) hc
      have hlong := xmlEscape_long hc
      have hrest := length_le_flatMap xmlEscape_ne_nil s
      have hlen := congrArg List.length h
      rw [List.length_append, List.length_cons, xmlAttrEscape] at hlen
      omega
    · rw [xmlEscape_plain hc, List.singleton_append, List.cons.injEq, ih]
      simp only [true_and, Plain, List.forall_mem_cons, hc, not_false_eq_true]

theorem escaped_eq_iff {call : ToolCall} {members : List (List Char × Value)} (h : call.Printable fromStr members) :
    call.escaped = call ↔ call.PlainNames := by
  obtain ⟨name, arguments⟩ := call
  obtain rfl : arguments = .object members := h.arguments
  have hmembers : escapedMembers members = members ↔ ∀ m ∈ members, Plain m.1 := by
    rw [escapedMembers]
    constructor
    · intro hall m hm
      have := List.map_eq_map_iff.1 (hall.trans (List.map_id members).symm) m hm
      exact (xmlAttrEscape_eq_iff m.1).1 (congrArg Prod.fst this)
    · intro hall
      refine (List.map_congr_left fun m hm => ?_).trans (List.map_id members)
      rw [(xmlAttrEscape_eq_iff m.1).2 (hall m hm)]
      rfl
  simp only [ToolCall.escaped, ToolCall.mk.injEq, Value.object.injEq, ToolCall.PlainNames, xmlAttrEscape_eq_iff, hmembers]
  constructor
  · rintro ⟨hname, hkeys⟩
    exact ⟨hname, fun _ heq => heq ▸ hkeys⟩
  · rintro ⟨hname, hkeys⟩
    exact ⟨hname, hkeys members rfl⟩

/-- However the rendered text is cut, the calls come back as they were exactly when no name and
no top-level key holds a character that rendering escapes. -/
theorem round_trip_iff (h : PrintableCalls fromStr calls) {chunks : List (List Char)}
    (hchunks : chunks.flatten = renderAssistantToolCalls calls) :
    new.run (parseToolCallsBody fromStr) chunks = [.toolCalls calls] ↔ ∀ call ∈ calls, call.PlainNames := by
  rw [run_rendered h hchunks]
  simp only [List.cons.injEq, StreamEvent.toolCalls.injEq, and_true]
  constructor
  · intro hall call hcall
    obtain ⟨members, hprintable⟩ := h call hcall
    exact (escaped_eq_iff hprintable).1 (List.map_eq_map_iff.1 (hall.trans (List.map_id calls).symm) call hcall)
  · intro hall
    refine (List.map_congr_left fun call hcall => ?_).trans (List.map_id calls)
    obtain ⟨members, hprintable⟩ := h call hcall
    exact (escaped_eq_iff hprintable).2 (hall call hcall)

/-- A parser of the texts `true` and `7`. -/
private def smallParser (s : List Char) : Option Value :=
  if s = "true".toList then some (.bool true)
  else if s = "7".toList then some (.number ⟨"7".toList, by decide, by decide⟩)
  else none

private def smallCall (name : List Char) : ToolCall :=
  ⟨name, .object [("path".toList, .string "a<b".toList), ("n".toList, .number ⟨"7".toList, by decide, by decide⟩)]⟩

private theorem smallCall_printable (name : List Char) (hname : MarkerFree name) :
    PrintableCalls smallParser [smallCall name] := by
  intro call hcall
  obtain rfl := List.mem_singleton.1 hcall
  refine ⟨_, rfl, hname, by decide, by decide, by decide, ?_⟩
  intro m hm hstring
  simp only [List.mem_cons, List.not_mem_nil, or_false] at hm
  rcases hm with rfl | rfl
  · cases hstring
  · rfl

theorem round_trip_iff_small :
    new.run (parseToolCallsBody smallParser)
        [(renderAssistantToolCalls [smallCall "read".toList]).take 40,
          (renderAssistantToolCalls [smallCall "read".toList]).drop 40] = [.toolCalls [smallCall "read".toList]] := by
  refine (round_trip_iff (smallCall_printable _ (by decide)) (by simp)).2 fun call hcall => ?_
  obtain rfl := List.mem_singleton.1 hcall
  refine ⟨by decide, fun members heq => ?_⟩
  cases heq
  decide

/-- A name with an ampersand comes back as its escape. -/
theorem escaped_name_kept :
    PrintableCalls smallParser [smallCall "a&b".toList] ∧
      ¬ new.run (parseToolCallsBody smallParser) [renderAssistantToolCalls [smallCall "a&b".toList]] =
        [.toolCalls [smallCall "a&b".toList]] := by
  have hprintable := smallCall_printable "a&b".toList (by decide)
  refine ⟨hprintable, fun h => ?_⟩
  rw [run_rendered hprintable (by simp)] at h
  have hnames := congrArg (List.map fun e : StreamEvent ToolCall => match e with
    | .toolCalls calls => calls.map ToolCall.name
    | _ => []) h
  revert hnames
  decide

end Stream

end Hipscope.Dsml
