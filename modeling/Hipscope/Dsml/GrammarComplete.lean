import Hipscope.Dsml.GrammarRuns

/-! Which cuttings of a rendered block the mask lets through. -/
namespace Hipscope.Dsml
open Text Grammar

/-- The parameters of a call. -/
def ToolCall.members (call : ToolCall) : List (List Char × Value) :=
  match call.arguments with
  | .object members => members
  | _ => []

namespace Grammar

/-- The call of a tool: parameters of the tool, none twice, all that are required, and no `</`
inside a value. -/
structure ToolSchema.Takes (tool : ToolSchema) (call : ToolCall) : Prop where
  named : tool.name = call.name
  nodup : (call.members.map Prod.fst).Nodup
  params : ∀ m ∈ call.members, m.1 ∈ tool.params
  required : ∀ name ∈ tool.required, name ∈ tool.params → name ∈ call.members.map Prod.fst
  noClose : ∀ m ∈ call.members, ¬ ['<', '/'] <:+: (payload m.2).2

/-- A name the rendering writes as it is. -/
def plainName (name : List Char) : Prop := xmlAttrEscape name = name

/-- The first tool of the call's name takes it, the names are written as they are, and none
goes on in another name of the schema. -/
structure Writable (tools : List ToolSchema) (call : ToolCall) : Prop where
  takes : ∃ tool, tools.find? (fun tool => tool.name = call.name) = some tool ∧ tool.Takes call ∧
    ∀ m ∈ call.members, ∀ param ∈ tool.params, ¬ m.1 ++ paramNameEnd <+: param
  plainTool : plainName call.name
  plainParams : ∀ m ∈ call.members, plainName m.1
  apart : ∀ tool ∈ tools, ¬ call.name ++ nameEnd <+: tool.name

def markedParameter (key : List Char) (value : Value) : List Marked :=
  structural (parameterOpenPrefix ++ xmlAttrEscape key ++ "\" string=\"".toList ++ (payload value).1 ++ "\">".toList) ++
    valueText (payload value).2 ++ structural (parameterClose ++ ['\n'])

def markedCall (call : ToolCall) : List Marked :=
  structural (invokeOpenPrefix ++ xmlAttrEscape call.name ++ "\">\n".toList) ++
    call.members.flatMap (fun m => markedParameter m.1 m.2) ++ structural invokeClose

/-- The rendered block, with the parameters' values marked. -/
def markedToolCalls (calls : List ToolCall) : List Marked :=
  structural (toolCallsOpen ++ ['\n']) ++ calls.flatMap (fun c => markedCall c ++ structural ['\n']) ++
    structural toolCallsClose

theorem plain_flatMap {α : Type} (xs : List α) (f : α → List Marked) :
    plain (xs.flatMap f) = xs.flatMap fun x => plain (f x) := by
  rw [plain, List.map_flatMap]
  rfl

theorem plain_markedCall (call : ToolCall) : plain (markedCall call) = call.toDsml := by
  have hparameter : ∀ m : List Char × Value, plain (markedParameter m.1 m.2) = renderParameter m.1 m.2 := fun m => by
    simp [markedParameter, renderParameter]
  obtain ⟨name, arguments⟩ := call
  cases arguments <;>
    simp only [markedCall, ToolCall.toDsml, ToolCall.members, plain_append, plain_structural, plain_flatMap, hparameter,
      List.flatMap_nil, plain_nil]

theorem plain_markedToolCalls (calls : List ToolCall) : plain (markedToolCalls calls) = renderAssistantToolCalls calls := by
  simp only [markedToolCalls, renderAssistantToolCalls, plain_append, plain_structural, plain_flatMap, plain_markedCall]

section Names
variable {name other rest tail : List Char}

theorem plainName_noQuote (h : plainName name) : '"' ∉ name := by
  intro hin
  have hmem : '"' ∈ xmlAttrEscape name := h.symm ▸ hin
  obtain ⟨c, -, hc⟩ := List.mem_flatMap.1 hmem
  rw [xmlEscape] at hc
  split at hc
  · exact absurd hc (by decide)
  split at hc
  · exact absurd hc (by decide)
  split at hc
  · exact absurd hc (by decide)
  split at hc
  · exact absurd hc (by decide)
  · exact absurd (List.mem_singleton.1 hc).symm (by assumption)

/-- Of the names closed by a quote only the written one begins the text. -/
theorem name_unique (hname : '"' ∉ name) (htail : '"' ∉ tail) (hapart : ¬ name ++ '"' :: tail <+: other)
    (h : other ++ '"' :: tail <+: name ++ '"' :: tail ++ rest) : other = name := by
  have hquote : (name ++ '"' :: tail ++ rest)[other.length]? = some '"' := by
    obtain ⟨t, ht⟩ := h
    rw [← ht, List.append_assoc, List.getElem?_append_right le_rfl, Nat.sub_self]
    rfl
  have hother : other <+: name ++ '"' :: tail ++ rest := (List.prefix_append _ _).trans h
  rw [List.append_assoc] at hquote hother
  rcases Nat.lt_trichotomy other.length name.length with hlt | heq | hgt
  · rw [List.getElem?_append_left hlt] at hquote
    exact absurd (List.mem_of_getElem? hquote) hname
  · exact (List.prefix_of_prefix_length_le hother (List.prefix_append _ _) heq.le).eq_of_length heq
  · rcases Nat.lt_or_ge (other.length - name.length - 1) tail.length with hin | hout
    · obtain ⟨k, hk⟩ := Nat.exists_eq_add_of_lt hgt
      rw [List.getElem?_append_right hgt.le, List.getElem?_append_left (by rw [List.length_cons]; omega),
        show other.length - name.length = k + 1 by omega, List.getElem?_cons_succ] at hquote
      exact absurd (List.mem_of_getElem? hquote) htail
    · refine absurd (List.prefix_of_prefix_length_le (List.prefix_append (name ++ '"' :: tail) rest) ?_ ?_) hapart
      · rwa [List.append_assoc]
      · rw [List.length_append, List.length_cons]
        omega

end Names

section Call
variable {tools : List ToolSchema} {tool : ToolSchema} {i : ℕ} {emitted : List ℕ} {M : List Marked}

/-- A state that waits for fixed markers only finds the one that is there. -/
private theorem Ahead.of_fixed {σ σ' : State} {marker text : List Char} (hbody : σ.isBody = false)
    (hfirst : (alternatives tools σ).find? (fun a => a.1 = marker) = some (marker, σ'))
    (hfixed : ∀ a ∈ alternatives tools σ, a.1 ∈ fixedMarkers)
    (hspace : Matcher.stateAllowsLeadingWs σ = true → ∀ c ∈ marker.head?, Matcher.isWs c = false) :
    Ahead tools σ marker σ' (marker ++ text) := by
  have hmarker : marker ∈ fixedMarkers := hfixed _ (List.mem_of_find?_eq_some hfirst)
  refine ⟨hbody, hfirst, fun a ha hin => ?_, fixedMarkers_nonempty marker hmarker, hspace, List.prefix_append _ _⟩
  rcases List.prefix_or_prefix_of_prefix hin (List.prefix_append marker text) with h | h
  · exact fixedMarkers_apart _ (hfixed a ha) _ hmarker h
  · exact (fixedMarkers_apart _ hmarker _ (hfixed a ha) h).symm

private theorem angle_head {marker : List Char} (h : marker.head? = some '<') :
    ∀ c ∈ marker.head?, Matcher.isWs c = false := by
  intro c hc
  rw [h, Option.mem_some_iff] at hc
  exact hc ▸ rfl

theorem legal_open (h : Legal tools .inToolCalls M) : Legal tools .out (structural openToolCalls ++ M) := by
  refine .tag (.of_fixed rfl rfl ?_ (fun h => by cases h)) h
  intro a ha
  rw [List.mem_singleton.1 ha]
  decide

theorem legal_close (h : Legal tools .out M) : Legal tools .inToolCalls (structural closeToolCalls ++ M) :=
  .tag (.of_fixed rfl rfl toolCalls_fixed fun _ => angle_head rfl) h

theorem legal_openInvoke (h : Legal tools (.inInvokeName none) M) : Legal tools .inToolCalls (structural openInvoke ++ M) :=
  .tag (.of_fixed rfl rfl toolCalls_fixed fun _ => angle_head rfl) h

theorem legal_openParam (h : Legal tools (.inParamName i none emitted) M) :
    Legal tools (.inInvokeBody i emitted) (structural openParam ++ M) :=
  .tag (.of_fixed rfl rfl invokeBody_fixed fun _ => angle_head rfl) h

theorem legal_closeInvoke (hreq : (toolAt tools i).requiredSatisfied emitted = true) (h : Legal tools .inToolCalls M) :
    Legal tools (.inInvokeBody i emitted) (structural closeInvoke ++ M) := by
  refine .tag (.of_fixed rfl ?_ invokeBody_fixed fun _ => angle_head rfl) h
  rw [alternatives, Matcher.invokeBodyAlternatives, if_pos hreq]
  rfl

theorem legal_attr {k : ℕ} {value : Value} (h : Legal tools (.inParamBody i k emitted) M) :
    Legal tools (.inParamAttr i k emitted)
      (structural (" string=\"".toList ++ (payload value).1 ++ "\">".toList) ++ M) := by
  have hfixed : ∀ a ∈ alternatives tools (.inParamAttr i k emitted), a.1 ∈ fixedMarkers := by
    intro a ha
    rcases List.mem_pair.1 ha with rfl | rfl
    · exact (by decide : attrStringTrue ∈ fixedMarkers)
    · exact (by decide : attrStringFalse ∈ fixedMarkers)
  have htag : " string=\"".toList ++ (payload value).1 ++ "\">".toList = attrStringTrue ∨
      " string=\"".toList ++ (payload value).1 ++ "\">".toList = attrStringFalse := by
    cases value with
    | string s => exact .inl rfl
    | null => exact .inr rfl
    | bool b => exact .inr rfl
    | number n => exact .inr rfl
    | array items => exact .inr rfl
    | object members => exact .inr rfl
  rcases htag with htag | htag
  · rw [htag]
    exact .tag (.of_fixed rfl rfl hfixed fun h => by cases h) h
  · rw [htag]
    exact .tag (.of_fixed rfl rfl hfixed fun h => by cases h) h

/-- The name of a tool no other name begins with. -/
theorem legal_toolName {name : List Char} (hi : tools[i]? = some tool) (hname : tool.name = name)
    (hfirst : ∀ j < i, (toolAt tools j).name ≠ name) (hquote : '"' ∉ name)
    (hapart : ∀ tool ∈ tools, ¬ name ++ nameEnd <+: tool.name) (h : Legal tools (.inInvokeBody i []) M) :
    Legal tools (.inInvokeName none) (structural (name ++ nameEnd) ++ M) := by
  have hlt := (List.getElem?_eq_some_iff.1 hi).1
  have hat : (toolAt tools i).name = name := by rw [toolAt_eq hi, hname]
  refine .tag ⟨rfl, ?_, fun a ha hin => ?_, by simp [nameEnd], nofun, List.prefix_append _ _⟩ h
  · have hfind : (List.range tools.length).find? (fun j => (toolAt tools j).name ++ nameEnd = name ++ nameEnd) = some i := by
      rw [List.find?_range_eq_some]
      refine ⟨by simp [hat], List.mem_range.2 hlt, fun j hj => ?_⟩
      simpa using hfirst j hj
    rw [alternatives, toolCandidates, List.map_map, List.find?_map]
    refine (congrArg (Option.map _) hfind).trans ?_
    simp [hat]
  · rw [alternatives, toolCandidates, List.map_map] at ha
    obtain ⟨j, hj, rfl⟩ := List.mem_map.1 ha
    have hmem : toolAt tools j ∈ tools := by
      rw [toolAt_eq (List.getElem?_eq_getElem (List.mem_range.1 hj))]
      exact List.getElem_mem _
    exact congrArg (· ++ nameEnd) (name_unique hquote (by decide) (hapart _ hmem) hin)

/-- The name of a parameter not yet written. -/
theorem legal_paramName {key : List Char} (htool : toolAt tools i = tool) (hkey : key ∈ tool.params)
    (hfresh : tool.params.idxOf key ∉ emitted) (hquote : '"' ∉ key)
    (hapart : ∀ param ∈ tool.params, ¬ key ++ paramNameEnd <+: param)
    (h : Legal tools (.inParamAttr i (tool.params.idxOf key) emitted) M) :
    Legal tools (.inParamName i none emitted) (structural (key ++ paramNameEnd) ++ M) := by
  have hlt := List.idxOf_lt_length_of_mem hkey
  have hat : ∀ {j} (hj : j < tool.params.length), tool.paramAt j = tool.params[j] := fun hj => by
    rw [ToolSchema.paramAt, List.getElem?_eq_getElem hj, Option.getD_some]
  refine .tag ⟨rfl, ?_, fun a ha hin => ?_, by simp [paramNameEnd], nofun, List.prefix_append _ _⟩ h
  · have hfind : (List.range tool.params.length).find? (fun j =>
        (!emitted.contains j) = true ∧ decide (tool.paramAt j ++ paramNameEnd = key ++ paramNameEnd) = true) =
          some (tool.params.idxOf key) := by
      rw [List.find?_range_eq_some]
      refine ⟨?_, List.mem_range.2 hlt, fun j hj => ?_⟩
      · rw [hat hlt, List.getElem_idxOf]
        simpa using hfresh
      · have hne := List.not_of_lt_findIdx hj
        rw [hat (hj.trans hlt)]
        simp [beq_eq_false_iff_ne.1 hne]
    rw [alternatives, paramCandidates, htool, List.map_map, List.find?_map, List.find?_filter]
    refine (congrArg (Option.map _) hfind).trans ?_
    rw [Option.map_some, Function.comp_apply, hat hlt, List.getElem_idxOf]
  · rw [alternatives, paramCandidates, htool, List.map_map] at ha
    obtain ⟨j, hj, rfl⟩ := List.mem_map.1 ha
    have hjlt := List.mem_range.1 (List.mem_filter.1 hj).1
    have hmem : tool.paramAt j ∈ tool.params := by
      rw [hat hjlt]
      exact List.getElem_mem _
    exact congrArg (· ++ paramNameEnd) (name_unique hquote (by decide) (hapart _ hmem) hin)

theorem markedParameter_append {key : List Char} {value : Value} (hkey : plainName key) :
    markedParameter key value ++ M = structural openParam ++ (structural (key ++ paramNameEnd) ++
      (structural (" string=\"".toList ++ (payload value).1 ++ "\">".toList) ++
        (valueText (payload value).2 ++ (structural closeParam ++ (('\n', false) :: M))))) := by
  have hquote : "\" string=\"".toList = paramNameEnd ++ " string=\"".toList := by decide
  rw [markedParameter, hkey, hquote]
  simp [openParam, closeParam, structural_cons]

/-- The parameters of a call, behind those already written. -/
theorem legal_members {members : List (List Char × Value)} {keys : List (List Char)} (htool : toolAt tools i = tool)
    (hmembers : ∀ m ∈ members, m.1 ∈ tool.params ∧ plainName m.1 ∧
      (∀ param ∈ tool.params, ¬ m.1 ++ paramNameEnd <+: param) ∧ ¬ ['<', '/'] <:+: (payload m.2).2)
    (hkeys : ∀ k ∈ keys, k ∈ tool.params) (hnodup : (keys ++ members.map Prod.fst).Nodup)
    (h : Legal tools (.inInvokeBody i ((keys ++ members.map Prod.fst).map tool.params.idxOf)) M) :
    Legal tools (.inInvokeBody i (keys.map tool.params.idxOf))
      (members.flatMap (fun m => markedParameter m.1 m.2) ++ M) := by
  induction members generalizing keys with
  | nil =>
    rw [List.map_nil, List.append_nil] at h
    exact h
  | cons m members ih =>
    obtain ⟨hin, hplain, hapart, hvalue⟩ := hmembers m (List.mem_cons_self ..)
    have hfresh : tool.params.idxOf m.1 ∉ keys.map tool.params.idxOf := by
      intro hmem
      obtain ⟨k, hk, heq⟩ := List.mem_map.1 hmem
      rw [List.idxOf_inj (hkeys k hk)] at heq
      rw [List.map_cons] at hnodup
      exact (List.nodup_append.1 hnodup).2.2 k hk m.1 (List.mem_cons_self ..) heq
    have hemitted : Matcher.addEmitted (keys.map tool.params.idxOf) (tool.params.idxOf m.1) =
        (keys ++ [m.1]).map tool.params.idxOf := by
      rw [Matcher.addEmitted, if_neg (by simpa using hfresh), List.map_append]
      rfl
    rw [List.flatMap_cons, List.append_assoc, markedParameter_append hplain]
    refine legal_openParam (legal_paramName htool hin hfresh (plainName_noQuote hplain) hapart (legal_attr ?_))
    refine .value hvalue (.space rfl rfl ?_)
    rw [hemitted]
    refine ih (fun m hm => hmembers m (List.mem_cons_of_mem _ hm)) ?_ ?_ ?_
    · intro k hk
      rcases List.mem_append.1 hk with hk | hk
      · exact hkeys k hk
      · exact List.mem_singleton.1 hk ▸ hin
    · rwa [List.append_assoc]
    · rwa [List.append_assoc]

theorem legal_call {call : ToolCall} (hcall : Writable tools call) (h : Legal tools .inToolCalls M) :
    Legal tools .inToolCalls (markedCall call ++ structural ['\n'] ++ M) := by
  obtain ⟨tool, hfind, htakes, hapart⟩ := hcall.takes
  obtain ⟨-, i, hi, rfl, hbefore⟩ := List.find?_eq_some_iff_getElem.1 hfind
  have hat : ∀ {j} (hj : j < tools.length), toolAt tools j = tools[j] := fun hj => toolAt_eq (List.getElem?_eq_getElem hj)
  have hfirst : ∀ j < i, (toolAt tools j).name ≠ call.name := fun j hj => by
    rw [hat (hj.trans hi)]
    simpa using hbefore j hj
  have hreq : (toolAt tools i).requiredSatisfied (call.members.map Prod.fst |>.map tools[i].params.idxOf) = true := by
    rw [hat hi, ToolSchema.requiredSatisfied, List.all_eq_true]
    intro name hname
    by_cases hin : name ∈ tools[i].params
    · have := List.mem_map_of_mem (f := tools[i].params.idxOf) (htakes.required name hname hin)
      simp only [Bool.or_eq_true, List.contains_iff_mem]
      exact .inr this
    · simp [hin]
  have hmembers := legal_members (M := structural closeInvoke ++ (('\n', false) :: M)) (hat hi)
    (fun m hm => ⟨htakes.params m hm, hcall.plainParams m hm, hapart m hm, htakes.noClose m hm⟩)
    (nofun : ∀ k ∈ ([] : List (List Char)), k ∈ tools[i].params) htakes.nodup
    (legal_closeInvoke hreq (.space rfl rfl h))
  have hquote := plainName_noQuote hcall.plainTool
  have hname := legal_toolName (List.getElem?_eq_getElem hi) htakes.named hfirst hquote hcall.apart hmembers
  have hend : "\">\n".toList = nameEnd := by decide
  have htext : markedCall call ++ structural ['\n'] ++ M = structural openInvoke ++ (structural (call.name ++ nameEnd) ++
      (call.members.flatMap (fun m => markedParameter m.1 m.2) ++ (structural closeInvoke ++ (('\n', false) :: M)))) := by
    rw [markedCall, hcall.plainTool, hend]
    simp [openInvoke, closeInvoke, structural_cons]
  rw [htext]
  exact legal_openInvoke hname

theorem legal_calls {calls : List ToolCall} (h : ∀ call ∈ calls, Writable tools call) :
    Legal tools .out (markedToolCalls calls) := by
  have hcalls : Legal tools .inToolCalls
      (calls.flatMap (fun c => markedCall c ++ structural ['\n']) ++ structural toolCallsClose) := by
    induction calls with
    | nil => exact List.append_nil (structural closeToolCalls) ▸ legal_close .done
    | cons call calls ih =>
      rw [List.flatMap_cons, List.append_assoc]
      exact legal_call (h call (List.mem_cons_self ..)) (ih fun c hc => h c (List.mem_cons_of_mem _ hc))
  rw [markedToolCalls, structural_append, List.append_assoc, List.append_assoc]
  exact legal_open (.space rfl rfl hcalls)

end Call

section Cut

/-- The tokens of a text, with the marks of the text. -/
def cutAlong : List (List Char) → List Marked → List (List Marked)
  | [], _ => []
  | t :: ts, M => M.take t.length :: cutAlong ts (M.drop t.length)

theorem cutAlong_tokens {tokens : List (List Char)} {M : List Marked} (h : tokens.flatten = plain M) :
    (cutAlong tokens M).map plain = tokens ∧ (cutAlong tokens M).flatten = M := by
  induction tokens generalizing M with
  | nil =>
    have hM : M = [] := by simpa [plain] using h.symm
    exact ⟨rfl, hM.symm⟩
  | cons t ts ih =>
    rw [List.flatten_cons] at h
    have htake : plain (M.take t.length) = t := by rw [plain, List.map_take, ← plain, ← h, List.take_left]
    have hdrop : ts.flatten = plain (M.drop t.length) := by rw [plain, List.map_drop, ← plain, ← h, List.drop_left]
    obtain ⟨hmap, hflat⟩ := ih hdrop
    rw [cutAlong, List.map_cons, List.flatten_cons, htake, hmap, hflat, List.take_append_drop]
    exact ⟨rfl, rfl⟩

end Cut

variable {tools : List ToolSchema} {calls : List ToolCall} {tokens : List (List Char)}

/-- However the rendered calls are cut into tokens, the mask allows each and the matcher ends
outside the block, unless a token ends right behind a `<` of a value. -/
theorem accepts_rendered_iff (hcalls : ∀ call ∈ calls, Writable tools call)
    (htokens : tokens.flatten = renderAssistantToolCalls calls) :
    (Matcher.new tools).accepts tokens = true ↔ ∀ t ∈ cutAlong tokens (markedToolCalls calls), ¬ endsOpen t := by
  rw [← plain_markedToolCalls] at htokens
  obtain ⟨hmap, hflat⟩ := cutAlong_tokens htokens
  have hlegal := legal_calls hcalls
  rw [← hflat] at hlegal
  have hrun := hlegal.waiting.accepts (by decide)
  rwa [hmap] at hrun

def pathTool : ToolSchema := ⟨"t".toList, ["p".toList], ["p".toList]⟩

def angleCall : ToolCall := ⟨"t".toList, .object [("p".toList, .string "a<b".toList)]⟩

private theorem angleCall_taken : pathTool.Takes angleCall := by
  refine ⟨rfl, by decide, ?_, ?_, ?_⟩
  · intro m hm
    rw [List.mem_singleton.1 hm]
    decide
  · decide
  · intro m hm
    rw [List.mem_singleton.1 hm]
    decide

/-- The text in two tokens, cut behind the `<`. -/
def angleTokens : List (List Char) :=
  [(renderAssistantToolCalls [angleCall]).take 85, (renderAssistantToolCalls [angleCall]).drop 85]

/-- The text in three tokens, one cut inside a marker and one right before the `<`. -/
def angleThirds : List (List Char) :=
  [(renderAssistantToolCalls [angleCall]).take 10, ((renderAssistantToolCalls [angleCall]).drop 10).take 74,
    (renderAssistantToolCalls [angleCall]).drop 84]

theorem accepts_rendered_iff_angle :
    (Matcher.new [pathTool]).accepts angleThirds = true ↔
      ∀ t ∈ cutAlong angleThirds (markedToolCalls [angleCall]), ¬ endsOpen t := by
  refine accepts_rendered_iff (fun call hcall => ?_) (by decide)
  rw [List.mem_singleton.1 hcall]
  refine ⟨⟨pathTool, rfl, angleCall_taken, ?_⟩, rfl, ?_, ?_⟩
  · intro m hm
    rw [List.mem_singleton.1 hm]
    decide
  · intro m hm
    rw [List.mem_singleton.1 hm]
    rfl
  · decide

/-- A value with `<` in it, its text cut behind that character, is not let through. -/
theorem cut_behind_lt_blocked :
    ∃ (tools : List ToolSchema) (calls : List ToolCall) (tokens : List (List Char)),
      (∀ call ∈ calls, ∃ tool ∈ tools, tool.Takes call) ∧ tokens.flatten = renderAssistantToolCalls calls ∧
        (Matcher.new tools).accepts tokens = false := by
  refine ⟨[pathTool], [angleCall], angleTokens, ?_, ?_, ?_⟩
  · intro call hcall
    rw [List.mem_singleton.1 hcall]
    exact ⟨pathTool, List.mem_singleton_self _, angleCall_taken⟩
  · simp [angleTokens]
  · decide +kernel

end Grammar
end Hipscope.Dsml
