import Hipscope.Dsml.RoundTrip
import Hipscope.Dsml.GrammarPath

/-! Blocks of calls as the mask lets them be written, and what the parser reads from them. -/
namespace Hipscope.Dsml
open Text Grammar

structure WrittenParam where
  before : List Char
  key : List Char
  isString : Bool
  value : List Char

def stringTag (isString : Bool) : List Char := "\" string=\"".toList ++ stringAttr isString ++ "\">".toList

def WrittenParam.text (p : WrittenParam) : List Char :=
  p.before ++ (parameterOpenPrefix ++ (p.key ++ (stringTag p.isString ++ (p.value ++ parameterClose))))

/-- A call, opened and closed by the `invoke` tags or by their variant. -/
structure WrittenCall where
  before : List Char
  variant : Bool
  name : List Char
  params : List WrittenParam
  after : List Char

def callOpen (variant : Bool) : List Char := if variant then toolOpenPrefixAlt else invokeOpenPrefix
def callClose (variant : Bool) : List Char := if variant then toolCloseAlt else invokeClose

def WrittenCall.text (call : WrittenCall) : List Char :=
  call.before ++ (callOpen call.variant ++ (call.name ++ (nameEnd ++
    (call.params.flatMap WrittenParam.text ++ (call.after ++ callClose call.variant)))))

/-- The closing markers the parser looks for around a parameter's name. -/
def outerCloses : List (List Char) := [invokeClose, toolCloseAlt, genericClose, toolCallsClose]

/-- Space between markers. -/
def Blank (s : List Char) : Prop := ∀ c ∈ s, Matcher.isWs c = true

instance (s : List Char) : Decidable (Blank s) := inferInstanceAs (Decidable (∀ c ∈ s, _))

/-- A parameter's name that neither ends its attribute nor holds a closing marker. -/
def ClearKey (key : List Char) : Prop := '"' ∉ key ∧ ∀ close ∈ outerCloses, ¬ close <:+: key

/-- A tool's name that neither ends its attribute nor closes the block. -/
def ClearName (name : List Char) : Prop := ¬ ['"', '>'] <:+: name ∧ ¬ toolCallsClose <:+: name

structure WrittenParam.Clear (p : WrittenParam) : Prop where
  before : Blank p.before
  key : ClearKey p.key
  value : ¬ ['<', '/'] <:+: p.value

structure WrittenCall.Clear (call : WrittenCall) : Prop where
  before : Blank call.before
  name : ClearName call.name
  params : ∀ p ∈ call.params, p.Clear
  after : Blank call.after

section Pass
variable {n s b : List Char}

theorem blank_nil : Blank [] := fun _ h => absurd h List.not_mem_nil

theorem Blank.noAngle (h : Blank s) : '<' ∉ s := fun hin => absurd (h _ hin) (by decide)

theorem Blank.append {t : List Char} (hs : Blank s) (ht : Blank t) : Blank (s ++ t) := fun c hc =>
  (List.mem_append.1 hc).elim (hs c) (ht c)

theorem passes_blank (hn : ∃ rest, n = '<' :: rest) (hs : Blank s) (b : List Char) : Passes n s b := by
  obtain ⟨rest, rfl⟩ := hn
  exact passes_head hs.noAngle b

/-- A closing marker does not begin inside a value that another one follows. -/
theorem passes_value (hn : ['<', '/'] <+: n) (hs : ¬ ['<', '/'] <:+: s) (b : List Char) : Passes n s ('<' :: b) :=
  fun _ hi hocc => not_close_before hs hi (hn.trans hocc)

/-- A marker without quotes does not begin inside a name before a quote, unless the name holds it. -/
theorem passes_name (hn : '"' ∉ n) (hs : ¬ n <:+: s) (b : List Char) : Passes n s ('"' :: b) := by
  refine passes_free (List.infix_refl n) hs (fun j hj _ hat => ?_) b
  exact absurd (List.mem_of_getElem? hat) hn

/-- A closing marker with what keeps it out of written parameters. -/
structure PassesParams (n : List Char) : Prop where
  begins : ['<', '/'] <+: n
  noQuote : '"' ∉ n
  literal : ∀ l ∈ [parameterOpenPrefix, stringTag true, stringTag false, parameterClose], ∀ i < l.length,
    ¬ n <+: l.drop i ∧ ¬ l.drop i <+: n

instance (n : List Char) : Decidable (PassesParams n) :=
  decidable_of_iff (['<', '/'] <+: n ∧ '"' ∉ n ∧
      ∀ l ∈ [parameterOpenPrefix, stringTag true, stringTag false, parameterClose], ∀ i < l.length,
        ¬ n <+: l.drop i ∧ ¬ l.drop i <+: n)
    ⟨fun ⟨h₁, h₂, h₃⟩ => ⟨h₁, h₂, h₃⟩, fun ⟨h₁, h₂, h₃⟩ => ⟨h₁, h₂, h₃⟩⟩

theorem stringTag_cons (isString : Bool) : ∃ t, stringTag isString = '"' :: t := ⟨_, rfl⟩

theorem outerCloses_passParams : ∀ n ∈ outerCloses, PassesParams n := by decide

theorem WrittenParam.passes {p : WrittenParam} (hn : n ∈ outerCloses) (h : p.Clear) (b : List Char) :
    Passes n p.text b := by
  have hpass := outerCloses_passParams n hn
  obtain ⟨rest, hrest⟩ := hpass.begins
  have hlit : ∀ {l : List Char}, l ∈ [parameterOpenPrefix, stringTag true, stringTag false, parameterClose] → ∀ b,
      Passes n l b := fun hl b => passes_literal (hpass.literal _ hl) b
  obtain ⟨t, ht⟩ : ∃ t, parameterClose = '<' :: t := ⟨_, rfl⟩
  obtain ⟨u, hu⟩ := stringTag_cons p.isString
  rw [WrittenParam.text]
  refine (passes_blank ⟨_, hrest.symm⟩ h.before _).append (.append (hlit (by simp) _) (.append ?_ (.append ?_ (.append ?_ ?_))))
  · rw [hu, List.cons_append]
    exact passes_name hpass.noQuote (h.key.2 n hn) _
  · cases p.isString
    · exact hlit (by simp) _
    · exact hlit (by simp) _
  · rw [ht, List.cons_append]
    exact passes_value hpass.begins h.value _
  · exact hlit (by simp) _

theorem passes_params {params : List WrittenParam} (hn : n ∈ outerCloses) (h : ∀ p ∈ params, p.Clear) (b : List Char) :
    Passes n (params.flatMap WrittenParam.text) b := by
  induction params with
  | nil => exact Passes.nil
  | cons p params ih =>
    rw [List.flatMap_cons]
    exact (WrittenParam.passes hn (h p (List.mem_cons_self ..)) _).append (ih fun q hq => h q (List.mem_cons_of_mem p hq))

end Pass
section Read
variable (fromStr : List Char → Option Value)

/-- What the parser reads from a written parameter. -/
def WrittenParam.read (p : WrittenParam) : List Char × Value :=
  (p.key, if p.isString then .string p.value else (fromStr (trim p.value)).getD (.string p.value))

def WrittenCall.read (call : WrittenCall) : ToolCall :=
  ⟨call.name, .object ((call.params.map (·.read fromStr)).foldl (fun map m => mapInsert map m.1 m.2) [])⟩

variable {fromStr} {w after : List Char}

theorem parseParameter_written {p : WrittenParam} (h : p.Clear) (rest : List Char) :
    parseParameter fromStr (p.key ++ (stringTag p.isString ++ (p.value ++ (parameterClose ++ rest)))) =
      some ((p.read fromStr).1, (p.read fromStr).2, rest) := by
  have hquote : ∀ b, memmem (p.key ++ (stringTag p.isString ++ b)) ['"'] = some p.key.length := fun b => by
    obtain ⟨t, ht⟩ := stringTag_cons p.isString
    rw [ht]
    exact memmem_passes (b := t ++ b) (by decide) (passes_head h.key.1 _)
  have htag : parameterTag (stringTag p.isString ++ (p.value ++ (parameterClose ++ rest))) =
      some (p.isString, p.value ++ (parameterClose ++ rest)) := parameterTag_rendered _ _
  have hcontent : memmem (p.value ++ (parameterClose ++ rest)) parameterClose = some p.value.length :=
    memmem_closeParam h.value rest
  rw [parseParameter]
  simp only [hquote, Option.bind_eq_bind, Option.bind_some, List.drop_left, List.take_left]
  simp only [htag, Option.bind_some, hcontent, List.take_left, ← List.drop_drop, List.drop_left]
  rfl

/-- A parameter is read behind any space. -/
theorem nextParameter_written {p : WrittenParam} (hw : Blank w) (h : p.Clear) (rest : List Char) :
    nextParameter fromStr (w ++ (p.text ++ rest)) = some (some (p.read fromStr), rest) := by
  have hfind : ∀ rest, memmem (w ++ p.before ++ (parameterOpenPrefix ++ rest)) parameterOpenPrefix =
      some (w ++ p.before).length :=
    fun rest => memmem_passes (by decide) (passes_blank ⟨_, rfl⟩ (hw.append h.before) _)
  have hshape : w ++ (p.text ++ rest) = w ++ p.before ++ (parameterOpenPrefix ++
      (p.key ++ (stringTag p.isString ++ (p.value ++ (parameterClose ++ rest))))) := by
    simp [WrittenParam.text]
  rw [hshape, nextParameter, hfind]
  simp only [Option.bind_eq_bind, Option.bind_some, ← List.drop_drop, List.drop_left, parseParameter_written h]

theorem nextParameter_blank (hw : Blank w) : nextParameter fromStr w = none := by
  have hnone : memmem w parameterOpenPrefix = none :=
    memmem_passes_none (by decide) (passes_blank ⟨_, rfl⟩ hw [])
  rw [nextParameter, hnone]
  rfl

private theorem scan_params {params : List WrittenParam} (h : ∀ p ∈ params, p.Clear) (hafter : Blank after) :
    ∀ {rounds : ℕ} {w : List Char}, params.length < rounds → Blank w →
      scan (nextParameter fromStr) rounds (w ++ (params.flatMap WrittenParam.text ++ after)) =
        params.map (·.read fromStr) := by
  induction params with
  | nil =>
    intro rounds w hrounds hw
    obtain ⟨rounds, rfl⟩ := Nat.exists_eq_succ_of_ne_zero (by omega : rounds ≠ 0)
    rw [List.flatMap_nil, List.nil_append, scan, nextParameter_blank (hw.append hafter)]
    rfl
  | cons p params ih =>
    intro rounds w hrounds hw
    obtain ⟨rounds, rfl⟩ := Nat.exists_eq_succ_of_ne_zero (by omega : rounds ≠ 0)
    have hshorter : params.length < rounds := by
      rw [List.length_cons] at hrounds
      omega
    have hrest := ih (fun q hq => h q (List.mem_cons_of_mem p hq)) hshorter blank_nil
    rw [List.flatMap_cons, List.append_assoc, scan, nextParameter_written hw (h p (List.mem_cons_self ..))]
    dsimp only
    rw [List.nil_append] at hrest
    rw [hrest]
    rfl

theorem WrittenParam.text_ne_nil (p : WrittenParam) : p.text ≠ [] := by
  simp [WrittenParam.text, parameterOpenPrefix]

theorem parseParameters_written {params : List WrittenParam} (hw : Blank w) (h : ∀ p ∈ params, p.Clear)
    (hafter : Blank after) :
    parseParameters fromStr (w ++ (params.flatMap WrittenParam.text ++ after)) =
      .object ((params.map (·.read fromStr)).foldl (fun map m => mapInsert map m.1 m.2) []) := by
  have hlength := length_le_flatMap WrittenParam.text_ne_nil params
  rw [parseParameters, scan_params h hafter _ hw]
  simp only [List.length_append]
  omega

private theorem callClose_mem (variant : Bool) : callClose variant ∈ outerCloses := by
  cases variant <;> decide

/-- The opener found is the one written. -/
private theorem firstHit_open {before : List Char} (hbefore : Blank before) (variant : Bool) (b : List Char) :
    firstHit ((memmem (before ++ (callOpen variant ++ b)) invokeOpenPrefix).map fun i => (i, invokeOpenPrefix.length, invokeClose))
      ((memmem (before ++ (callOpen variant ++ b)) toolOpenPrefixAlt).map fun i => (i, toolOpenPrefixAlt.length, toolCloseAlt)) =
        some (before.length, (callOpen variant).length, callClose variant) := by
  have hpass : ∀ {n}, (∃ rest, n = '<' :: rest) → ∀ b, Passes n before b := fun hn b => passes_blank hn hbefore b
  cases variant with
  | false =>
    have hinvoke : memmem (before ++ (callOpen false ++ b)) invokeOpenPrefix = some before.length :=
      memmem_passes (by decide) (hpass ⟨_, rfl⟩ _)
    rw [hinvoke, Option.map_some, firstHit_left]
    · rfl
    · intro hit hhit
      obtain ⟨i, hi, rfl⟩ := Option.map_eq_some_iff.1 hhit
      exact le_of_memmem (by decide) (hpass ⟨_, rfl⟩ _) hi
  | true =>
    have htool : memmem (before ++ (callOpen true ++ b)) toolOpenPrefixAlt = some before.length :=
      memmem_passes (by decide) (hpass ⟨_, rfl⟩ _)
    rw [htool, Option.map_some]
    cases hinvoke : memmem (before ++ (callOpen true ++ b)) invokeOpenPrefix with
    | none => rfl
    | some i =>
      have hle : before.length ≤ i := le_of_memmem (by decide) (hpass ⟨_, rfl⟩ _) hinvoke
      have hne : i ≠ before.length := by
        rintro rfl
        obtain ⟨hat, -, -⟩ := memmem_some (by decide) hinvoke
        rw [List.drop_left] at hat
        rcases List.prefix_or_prefix_of_prefix hat (List.prefix_append _ _) with h | h
        · exact absurd h (by decide)
        · exact absurd h (by decide)
      rw [Option.map_some, firstHit, if_neg (by omega)]
      rfl

/-- A call is read, and the text behind it is left. -/
theorem nextCall_written {call : WrittenCall} (h : call.Clear) (rest : List Char) :
    nextCall fromStr (call.text ++ rest) = some (some (call.read fromStr), rest) := by
  set params := call.params.flatMap WrittenParam.text with hparams
  set inner := ['\n'] ++ (params ++ call.after) with hinner
  have hshape : call.text ++ rest = call.before ++ (callOpen call.variant ++ (call.name ++ (['"', '>'] ++
      (inner ++ (callClose call.variant ++ rest))))) := by
    simp [WrittenCall.text, hinner, hparams, nameEnd]
  have hname : ∀ b, memmem (call.name ++ (['"', '>'] ++ b)) ['"', '>'] = some call.name.length := fun b =>
    memmem_passes (by decide) (passes_free (List.infix_refl _) h.name.1 (by decide) _)
  have hpass : ∀ {n}, n ∈ outerCloses → ∀ b, Passes n inner b := by
    intro n hn b
    obtain ⟨t, ht⟩ := (outerCloses_passParams n hn).begins
    refine (passes_blank ⟨_, ht.symm⟩ (by decide) _).append (.append (passes_params hn h.params _) ?_)
    exact passes_blank ⟨_, ht.symm⟩ h.after _
  have hne : callClose call.variant ≠ [] := by cases call.variant <;> decide
  have hclose : memmem (inner ++ (callClose call.variant ++ rest)) (callClose call.variant) = some inner.length :=
    memmem_passes hne (hpass (callClose_mem call.variant) _)
  have hgeneric : ∀ hit, memmem (inner ++ (callClose call.variant ++ rest)) genericClose = some hit → inner.length ≤ hit :=
    fun hit => le_of_memmem (by decide) (hpass (by decide) _)
  have hstop : firstHit ((some inner.length).map fun i => (i, (callClose call.variant).length))
      ((memmem (inner ++ (callClose call.variant ++ rest)) genericClose).map fun i => (i, genericClose.length)) =
        some (inner.length, (callClose call.variant).length) :=
    firstHit_left fun hit hhit => by
      obtain ⟨i, hi, rfl⟩ := Option.map_eq_some_iff.1 hhit
      exact hgeneric i hi
  rw [hshape, nextCall]
  simp only [firstHit_open h.before, Option.bind_eq_bind, Option.bind_some, ← List.drop_drop, List.drop_left, hname]
  have hdrop : ∀ s, (['"', '>'] ++ s).drop 2 = s := fun _ => rfl
  simp only [hdrop, hclose, hstop, List.take_left, List.drop_left]
  rw [hinner, parseParameters_written (by decide) h.params h.after]
  rfl

theorem nextCall_blank (hw : Blank w) : nextCall fromStr w = none := by
  have hinvoke : memmem w invokeOpenPrefix = none := memmem_passes_none (by decide) (passes_blank ⟨_, rfl⟩ hw [])
  have htool : memmem w toolOpenPrefixAlt = none := memmem_passes_none (by decide) (passes_blank ⟨_, rfl⟩ hw [])
  rw [nextCall, hinvoke, htool]
  rfl

private theorem scan_written {calls : List WrittenCall} (h : ∀ call ∈ calls, call.Clear) (hafter : Blank after) :
    ∀ {rounds : ℕ}, calls.length < rounds →
      scan (nextCall fromStr) rounds (calls.flatMap WrittenCall.text ++ after) = calls.map (·.read fromStr) := by
  induction calls with
  | nil =>
    intro rounds hrounds
    obtain ⟨rounds, rfl⟩ := Nat.exists_eq_succ_of_ne_zero (by omega : rounds ≠ 0)
    rw [List.flatMap_nil, List.nil_append, scan, nextCall_blank hafter]
    rfl
  | cons call calls ih =>
    intro rounds hrounds
    obtain ⟨rounds, rfl⟩ := Nat.exists_eq_succ_of_ne_zero (by omega : rounds ≠ 0)
    rw [List.flatMap_cons, List.append_assoc, scan, nextCall_written (h call (List.mem_cons_self ..))]
    dsimp only
    rw [ih (fun c hc => h c (List.mem_cons_of_mem call hc)) (by rw [List.length_cons] at hrounds; omega)]
    rfl

/-- The parser reads the calls that are written. -/
theorem parseToolCallsBody_written {calls : List WrittenCall} (h : ∀ call ∈ calls, call.Clear) (hafter : Blank after) :
    parseToolCallsBody fromStr (calls.flatMap WrittenCall.text ++ after) = calls.map (·.read fromStr) := by
  have hne : ∀ call : WrittenCall, call.text ≠ [] := fun call => by simp [WrittenCall.text, nameEnd]
  have hlength := length_le_flatMap hne calls
  rw [parseToolCallsBody, scan_written h hafter]
  rw [List.length_append]
  omega

/-- Written calls do not close the block. -/
theorem passes_calls {calls : List WrittenCall} (h : ∀ call ∈ calls, call.Clear) (b : List Char) :
    Passes toolCallsClose (calls.flatMap WrittenCall.text) b := by
  have hlit : ∀ {l : List Char}, l ∈ [invokeOpenPrefix, toolOpenPrefixAlt, nameEnd, invokeClose, toolCloseAlt] → ∀ b,
      Passes toolCallsClose l b := by
    have hall : ∀ l ∈ [invokeOpenPrefix, toolOpenPrefixAlt, nameEnd, invokeClose, toolCloseAlt], ∀ i < l.length,
        ¬ toolCallsClose <+: l.drop i ∧ ¬ l.drop i <+: toolCallsClose := by decide
    exact fun {l} hl b => passes_literal (hall l hl) b
  induction calls with
  | nil => exact Passes.nil
  | cons call calls ih =>
    have hcall := h call (List.mem_cons_self ..)
    rw [List.flatMap_cons]
    refine .append ?_ (ih fun c hc => h c (List.mem_cons_of_mem call hc))
    rw [WrittenCall.text]
    refine (passes_blank ⟨_, rfl⟩ hcall.before _).append (.append ?_ (.append (passes_name (by decide) hcall.name.2 _)
      (.append (hlit (by simp) _) (.append (passes_params (by decide) hcall.params _)
        (.append (passes_blank ⟨_, rfl⟩ hcall.after _) ?_)))))
    · cases call.variant
      · exact hlit (by simp [callOpen]) _
      · exact hlit (by simp [callOpen]) _
    · cases call.variant
      · exact hlit (by simp [callClose]) _
      · exact hlit (by simp [callClose]) _

end Read

/-- A call of the tool: its parameters, none twice, and all that are required. -/
def Grammar.ToolSchema.Admits (tool : ToolSchema) (call : ToolCall) : Prop :=
  tool.name = call.name ∧ ∃ members, call.arguments = .object members ∧ (members.map Prod.fst).Nodup ∧
    (∀ m ∈ members, m.1 ∈ tool.params) ∧ ∀ name ∈ tool.required, name ∈ members.map Prod.fst

/-- The written call is one of a tool of the schema. -/
structure WrittenCall.Conforms (tools : List ToolSchema) (call : WrittenCall) : Prop where
  tool : ∃ tool ∈ tools, tool.name = call.name ∧ (∀ p ∈ call.params, p.key ∈ tool.params) ∧
    ∀ name ∈ tool.required, name ∈ call.params.map WrittenParam.key

section Keys

theorem mapInsert_keys (map : List (List Char × Value)) (key : List Char) (value : Value) :
    (mapInsert map key value).map Prod.fst = if key ∈ map.map Prod.fst then map.map Prod.fst else map.map Prod.fst ++ [key] := by
  rw [mapInsert]
  by_cases hin : key ∈ map.map Prod.fst
  · have hany : map.any (·.1 = key) = true := by
      obtain ⟨m, hm, rfl⟩ := List.mem_map.1 hin
      exact List.any_eq_true.2 ⟨m, hm, by simp⟩
    rw [if_pos hany, if_pos hin, List.map_map]
    refine List.map_congr_left fun m _ => ?_
    by_cases hm : m.1 = key
    · simp [hm]
    · simp [hm]
  · have hnone : ¬ map.any (·.1 = key) = true := by
      intro hany
      obtain ⟨m, hm, heq⟩ := List.any_eq_true.1 hany
      exact hin (List.mem_map.2 ⟨m, hm, of_decide_eq_true heq⟩)
    rw [if_neg hnone, if_neg hin, List.map_append]
    rfl

/-- The keys inserted into a map: each once, and no other. -/
theorem foldl_mapInsert_keys (members map : List (List Char × Value)) (hmap : (map.map Prod.fst).Nodup) :
    ((members.foldl (fun map m => mapInsert map m.1 m.2) map).map Prod.fst).Nodup ∧
      ∀ k, k ∈ (members.foldl (fun map m => mapInsert map m.1 m.2) map).map Prod.fst ↔
        k ∈ map.map Prod.fst ∨ k ∈ members.map Prod.fst := by
  induction members generalizing map with
  | nil => exact ⟨hmap, fun k => by simp⟩
  | cons m members ih =>
    have hkeys := mapInsert_keys map m.1 m.2
    have hnodup : ((mapInsert map m.1 m.2).map Prod.fst).Nodup := by
      rw [hkeys]
      split
      · exact hmap
      · rename_i hnew
        exact List.nodup_append.2 ⟨hmap, List.nodup_singleton _, fun a ha b hb heq =>
          hnew (List.mem_singleton.1 hb ▸ heq ▸ ha)⟩
    obtain ⟨hdistinct, hmem⟩ := ih _ hnodup
    refine ⟨hdistinct, fun k => ?_⟩
    rw [List.foldl_cons, hmem, hkeys, List.map_cons, List.mem_cons]
    split
    · rename_i hold
      constructor
      · rintro (h | h)
        · exact .inl h
        · exact .inr (.inr h)
      · rintro (h | rfl | h)
        · exact .inl h
        · exact .inl hold
        · exact .inr h
    · rw [List.mem_append, List.mem_singleton, or_assoc]

theorem WrittenCall.Conforms.admits {tools : List ToolSchema} {call : WrittenCall} (h : call.Conforms tools)
    (fromStr : List Char → Option Value) : ∃ tool ∈ tools, tool.Admits (call.read fromStr) := by
  obtain ⟨tool, htool, hname, hparams, hrequired⟩ := h.tool
  obtain ⟨hnodup, hkeys⟩ := foldl_mapInsert_keys (call.params.map (·.read fromStr)) [] List.nodup_nil
  have hread : (call.params.map (·.read fromStr)).map Prod.fst = call.params.map WrittenParam.key := by
    rw [List.map_map]
    rfl
  simp only [List.map_nil, List.not_mem_nil, false_or, hread] at hkeys
  refine ⟨tool, htool, hname, _, rfl, hnodup, fun m hm => ?_, fun name hreq => (hkeys name).2 (hrequired name hreq)⟩
  obtain ⟨p, hp, heq⟩ := List.mem_map.1 ((hkeys m.1).1 (List.mem_map_of_mem hm))
  rw [← heq]
  exact hparams p hp

end Keys
end Hipscope.Dsml
