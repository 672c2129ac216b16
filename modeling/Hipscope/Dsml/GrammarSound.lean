import Hipscope.Dsml.GrammarLetters
import Hipscope.Dsml.Written

/-! What a text followed letter by letter has written, and that the parser reads conforming
calls from it. -/
namespace Hipscope.Dsml.Grammar
open Text

/-- Names the parser finds again, and required names that are parameters. -/
structure ClearSchema (tools : List ToolSchema) : Prop where
  name : ∀ tool ∈ tools, ClearName tool.name
  params : ∀ tool ∈ tools, ∀ param ∈ tool.params, ClearKey param
  required : ∀ tool ∈ tools, ∀ name ∈ tool.required, name ∈ tool.params

/-- A block as the parser sees it, behind text without an opener. -/
structure WrittenBlock where
  before : List Char
  calls : List WrittenCall
  after : List Char

def WrittenBlock.text (block : WrittenBlock) : List Char :=
  block.before ++ (toolCallsOpen ++ (block.calls.flatMap WrittenCall.text ++ (block.after ++ toolCallsClose)))

/-- No opener begins in the text, also when one follows it. -/
def Unopened (s : List Char) : Prop := Passes toolCallsOpen s toolCallsOpen

/-- A call of the schema as the parser can read it. -/
def WrittenCall.Fits (tools : List ToolSchema) (call : WrittenCall) : Prop := call.Clear ∧ call.Conforms tools

structure WrittenBlock.Fits (tools : List ToolSchema) (block : WrittenBlock) : Prop where
  before : Unopened block.before
  calls : ∀ call ∈ block.calls, WrittenCall.Fits tools call
  after : Blank block.after

/-- Whole blocks. -/
def Outside (tools : List ToolSchema) (s : List Char) : Prop :=
  ∃ blocks : List WrittenBlock, (∀ block ∈ blocks, block.Fits tools) ∧ s = blocks.flatMap WrittenBlock.text

/-- Whole blocks, and a block up to the end of a call. -/
def InBlock (tools : List ToolSchema) (s : List Char) : Prop :=
  ∃ (front before : List Char) (calls : List WrittenCall), Outside tools front ∧ Unopened before ∧
    (∀ call ∈ calls, WrittenCall.Fits tools call) ∧
    s = front ++ (before ++ (toolCallsOpen ++ calls.flatMap WrittenCall.text))

/-- A call of tool `i` up to the end of a parameter; `emitted` are the parameters written. -/
def InCall (tools : List ToolSchema) (variant : Bool) (i : ℕ) (emitted : List ℕ) (s : List Char) : Prop :=
  ∃ (front before : List Char) (tool : ToolSchema) (params : List WrittenParam), InBlock tools front ∧ Blank before ∧
    tools[i]? = some tool ∧
    (∀ p ∈ params, p.Clear ∧ p.key ∈ tool.params) ∧ (∀ k ∈ emitted, tool.paramAt k ∈ params.map WrittenParam.key) ∧
      s = front ++ (before ++ (callOpen variant ++ (tool.name ++ (nameEnd ++ params.flatMap WrittenParam.text))))

/-- Parameter `k` up to the end of its name. -/
def InParam (tools : List ToolSchema) (variant : Bool) (i k : ℕ) (emitted : List ℕ) (s : List Char) : Prop :=
  ∃ front before tool, InCall tools variant i emitted front ∧ Blank before ∧ tools[i]? = some tool ∧
    k < tool.params.length ∧ s = front ++ (before ++ (openParam ++ (tool.paramAt k ++ paramNameEnd)))

section Context
variable {tools : List ToolSchema} {tool : ToolSchema} {variant : Bool} {i k : ℕ} {emitted : List ℕ} {s w v : List Char}

theorem Outside.open (h : Outside tools s) (hv : Unopened v) : InBlock tools (s ++ (v ++ openToolCalls)) :=
  ⟨s, v, [], h, hv, nofun, by simp [openToolCalls]⟩

theorem InBlock.close (h : InBlock tools s) (hw : Blank w) : Outside tools (s ++ (w ++ closeToolCalls)) := by
  obtain ⟨_, before, calls, ⟨blocks, hblocks, rfl⟩, hbefore, hcalls, rfl⟩ := h
  refine ⟨blocks ++ [⟨before, calls, w⟩], fun block hblock => ?_, by simp [WrittenBlock.text, closeToolCalls]⟩
  rcases List.mem_append.1 hblock with hold | hnew
  · exact hblocks block hold
  · rw [List.mem_singleton.1 hnew]
    exact ⟨hbefore, hcalls, hw⟩

theorem InBlock.name (h : InBlock tools s) (hw : Blank w) (hi : tools[i]? = some tool) (variant : Bool) :
    InCall tools variant i [] (s ++ (w ++ (callOpen variant ++ (tool.name ++ nameEnd)))) :=
  ⟨s, w, tool, [], h, hw, hi, nofun, nofun, by simp⟩

theorem InCall.close (hschema : ClearSchema tools) (h : InCall tools variant i emitted s) (hw : Blank w)
    (hreq : (toolAt tools i).requiredSatisfied emitted = true) :
    InBlock tools (s ++ (w ++ callClose variant)) := by
  obtain ⟨_, before, tool, params, ⟨front, text, calls, hfront, htext, hcalls, rfl⟩, hbefore, hi, hparams, hemitted, rfl⟩ := h
  have htool := List.mem_of_getElem? hi
  have hat : toolAt tools i = tool := by rw [toolAt, hi, Option.getD_some]
  refine ⟨front, text, calls ++ [⟨before, variant, tool.name, params, w⟩], hfront, htext, fun call hcall => ?_,
    by simp [WrittenCall.text]⟩
  rcases List.mem_append.1 hcall with hold | hnew
  · exact hcalls call hold
  · rw [List.mem_singleton.1 hnew]
    refine ⟨⟨hbefore, hschema.name tool htool, fun p hp => (hparams p hp).1, hw⟩,
      ⟨tool, htool, rfl, fun p hp => (hparams p hp).2, fun name hname => ?_⟩⟩
    have hin := hschema.required tool htool name hname
    rw [hat, ToolSchema.requiredSatisfied, List.all_eq_true] at hreq
    have hdone := hreq name hname
    simp only [List.contains_iff_mem.2 hin, Bool.not_true, Bool.false_or, List.contains_iff_mem] at hdone
    have hkey := hemitted _ hdone
    have hlt := List.idxOf_lt_length_of_mem hin
    rwa [ToolSchema.paramAt, List.getElem?_eq_getElem hlt, Option.getD_some, List.getElem_idxOf] at hkey

theorem InCall.param (h : InCall tools variant i emitted s) (hw : Blank w) (hi : tools[i]? = some tool)
    (hk : k < tool.params.length) :
    InParam tools variant i k emitted (s ++ (w ++ (openParam ++ (tool.paramAt k ++ paramNameEnd)))) :=
  ⟨s, w, tool, h, hw, hi, hk, rfl⟩

theorem InParam.close (hschema : ClearSchema tools) (h : InParam tools variant i k emitted s) (isString : Bool)
    (hv : ¬ ['<', '/'] <:+: v) :
    InCall tools variant i (Matcher.addEmitted emitted k) (s ++ ((stringTag isString).tail ++ (v ++ closeParam))) := by
  obtain ⟨_, before, tool, ⟨front, space, tool', params, hfront, hspace, hi', hparams, hemitted, rfl⟩,
    hbefore, hi, hk, rfl⟩ := h
  obtain rfl := Option.some.inj (hi'.symm.trans hi)
  have hkey : tool'.paramAt k ∈ tool'.params := by
    rw [ToolSchema.paramAt, List.getElem?_eq_getElem hk, Option.getD_some]
    exact List.getElem_mem hk
  obtain ⟨t, ht⟩ := stringTag_cons isString
  refine ⟨front, space, tool', params ++ [⟨before, tool'.paramAt k, isString, v⟩], hfront, hspace, hi, fun p hp => ?_,
    fun j hj => ?_, ?_⟩
  · rcases List.mem_append.1 hp with hold | hnew
    · exact hparams p hold
    · rw [List.mem_singleton.1 hnew]
      exact ⟨⟨hbefore, hschema.params tool' (List.mem_of_getElem? hi) _ hkey, hv⟩, hkey⟩
  · rw [List.map_append, List.mem_append]
    rw [Matcher.addEmitted] at hj
    split at hj
    · exact .inl (hemitted j hj)
    · rcases List.mem_append.1 hj with hold | hnew
      · exact .inl (hemitted j hold)
      · rw [List.mem_singleton.1 hnew]
        exact .inr (List.mem_singleton_self _)
  · simp [WrittenParam.text, ht, paramNameEnd, openParam, closeParam]

end Context
/-- A value so far: without `</`, or up to inside its closing marker. -/
def ValueText (u : List Char) : Prop :=
  ¬ ['<', '/'] <:+: u ∨
    ∃ v d, u = v ++ d ∧ ¬ ['<', '/'] <:+: v ∧ d <+: closeParam ∧ d ≠ closeParam ∧ 2 ≤ d.length

/-- What has been written when the matcher is in a state with a buffer; inside a call `variant`
tells how the call was opened. -/
inductive Reading (tools : List ToolSchema) : Bool → List Char → State → List Char → Prop where
  | out {variant : Bool} {s u : List Char} (h : Outside tools s) (hu : memmem u openToolCalls = none) :
      Reading tools variant (s ++ u) .out (Matcher.keepTail openToolCalls u)
  | toolCalls {variant : Bool} {s w b : List Char} (h : InBlock tools s) (hw : Blank w)
      (hb : Pending tools .inToolCalls b) : Reading tools variant (s ++ (w ++ b)) .inToolCalls b
  | name {variant : Bool} {s w b : List Char} {idx : Option ℕ} (h : InBlock tools s) (hw : Blank w)
      (hb : Pending tools (.inInvokeName idx) b) (hidx : ∀ i ∈ idx, i < tools.length) :
      Reading tools variant (s ++ (w ++ (callOpen variant ++ b))) (.inInvokeName idx) b
  | call {variant : Bool} {s w b : List Char} {i : ℕ} {emitted : List ℕ} (h : InCall tools variant i emitted s)
      (hw : Blank w) (hb : Pending tools (.inInvokeBody i emitted) b) :
      Reading tools variant (s ++ (w ++ b)) (.inInvokeBody i emitted) b
  | param {variant : Bool} {s w b : List Char} {i : ℕ} {idx : Option ℕ} {emitted : List ℕ}
      (h : InCall tools variant i emitted s) (hw : Blank w) (hb : Pending tools (.inParamName i idx emitted) b)
      (hidx : ∀ k ∈ idx, k < (toolAt tools i).params.length) :
      Reading tools variant (s ++ (w ++ (openParam ++ b))) (.inParamName i idx emitted) b
  | attr {variant : Bool} {s b : List Char} {i k : ℕ} {emitted : List ℕ} (h : InParam tools variant i k emitted s)
      (hb : Pending tools (.inParamAttr i k emitted) b) : Reading tools variant (s ++ b) (.inParamAttr i k emitted) b
  | body {variant : Bool} {s u : List Char} {i k : ℕ} {emitted : List ℕ} (h : InParam tools variant i k emitted s)
      (isString : Bool) (hu : ValueText u) :
      Reading tools variant (s ++ ((stringTag isString).tail ++ u)) (.inParamBody i k emitted)
        (Matcher.keepTail closeParam u)

/-- The mask allows the character where it stands; outside blocks, and behind a lone `<` of a
value, any character may follow. -/
def Matcher.follows (m : Matcher) (c : Char) : Bool :=
  m.state = .out || (m.state.isBody && m.partialBuf = ['<']) || m.isTokenAllowed [c]

/-- How the call is opened, once the character is there. -/
def Matcher.openedBy (m : Matcher) (variant : Bool) (c : Char) : Bool :=
  match m.state with
  | .inToolCalls =>
    if m.partialBuf ++ [c] = openToolVariant then true
    else if m.partialBuf ++ [c] = openInvoke then false
    else variant
  | _ => variant

/-- A call is not closed by the tag of the other opener. -/
def Matcher.closesOwn (m : Matcher) (variant : Bool) (c : Char) : Bool :=
  match m.state with
  | .inInvokeBody .. => m.partialBuf ++ [c] ≠ callClose (!variant)
  | _ => true

section Letter
variable {tools : List ToolSchema} {variant : Bool} {s w b u : List Char} {σ : State} {c : Char}

theorem Pending.head (h : Pending tools σ b) (hσ : Matcher.stateAllowsLeadingWs σ = true) :
    ∀ x ∈ b.head?, Matcher.isWs x = false := by
  obtain ⟨marker, hmarker, hb, -⟩ := h
  intro x hx
  obtain ⟨rest, rfl⟩ := List.head?_eq_some_iff.1 hx
  have hone : [x] <+: marker := (List.prefix_append [x] rest).trans hb
  have heq := (List.prefix_of_prefix_length_le hone (space_markers hσ marker hmarker) (Nat.le_refl 1)).eq_of_length rfl
  rw [(List.cons.inj heq).1]
  decide

theorem pending_nil (hsome : (σ.watch tools).markers ≠ []) : Pending tools σ [] := by
  obtain ⟨marker, rest, hmarkers⟩ := List.exists_cons_of_ne_nil hsome
  have hmem : marker ∈ (σ.watch tools).markers := hmarkers ▸ List.mem_cons_self ..
  exact ⟨marker, hmem, List.nil_prefix, (markers_nonempty tools σ marker hmem).symm⟩

/-- A state that watches for fixed markers: space, a begun marker, or a complete one. -/
private theorem letter_fixed {alts : List (List Char × State)} (hfree : PrefixFree tools)
    (hwatch : σ.watch tools = .fixed alts) (hσ : σ.isFirm = true) (hb : Pending tools σ b)
    (h : (⟨σ, b, tools⟩ : Matcher).isTokenAllowed [c] = true) :
    (Matcher.stateAllowsLeadingWs σ = true ∧ b = [] ∧ Matcher.isWs c = true ∧
        (⟨σ, b, tools⟩ : Matcher).advance [c] = (⟨σ, [], tools⟩, false)) ∨
      ((⟨σ, b, tools⟩ : Matcher).advance [c] = (⟨σ, b ++ [c], tools⟩, false) ∧ Pending tools σ (b ++ [c])) ∨
        ∃ σ', (b ++ [c], σ') ∈ alts ∧
          ∀ r, Settles ⟨σ', [], tools⟩ r → (⟨σ, b, tools⟩ : Matcher).advance [c] = r := by
  have hsome : (σ.watch tools).markers ≠ [] := by
    obtain ⟨marker, hmarker, -⟩ := hb
    exact List.ne_nil_of_mem hmarker
  rcases (allowed_iff hσ hsome (hb.unpassed hfree) hb.head).1 h with ⟨hws, rfl, hc⟩ | hin
  · exact .inl ⟨hws, rfl, hc, advance_blank hwatch hsome hws hc⟩
  · have hspace : ¬ (⟨σ, b ++ [c], tools⟩ : Matcher).atSpace := by
      rintro ⟨hws, hne⟩
      obtain ⟨marker, hmarker, hpre⟩ := hin
      obtain ⟨x, rest, hx⟩ := List.exists_cons_of_ne_nil (List.append_ne_nil_of_right_ne_nil b (List.cons_ne_nil c []))
      have hone : [x] <+: marker := ((hx ▸ List.prefix_append [x] rest) : [x] <+: b ++ [c]).trans hpre
      have heq := (List.prefix_of_prefix_length_le hone (space_markers hws marker hmarker) (Nat.le_refl 1)).eq_of_length rfl
      rw [hx, (List.cons.inj heq).1] at hne
      exact hne rfl
    rcases settles_fixed hwatch (hfree.within hin) hin hspace with ⟨hstay, hpend, -⟩ | ⟨σ', hmem, hpass⟩
    · exact .inr (.inl ⟨advance_of_settles hstay, hpend⟩)
    · exact .inr (.inr ⟨σ', hmem, fun r hr => advance_of_settles (hpass r hr)⟩)

/-- A state that watches for names: a begun one, perhaps settled on, or a complete one. -/
private theorem letter_name {idx : Option ℕ} {candidates : List (ℕ × List Char)} {settled next : ℕ → State}
    (hfree : PrefixFree tools) (hwatch : σ.watch tools = .name idx candidates settled next) (hb : Pending tools σ b)
    (h : (⟨σ, b, tools⟩ : Matcher).isTokenAllowed [c] = true) :
    (∃ σ', (⟨σ, b, tools⟩ : Matcher).advance [c] = (⟨σ', b ++ [c], tools⟩, false) ∧ Pending tools σ' (b ++ [c]) ∧
        (σ' = σ ∨ (idx = none ∧ ∃ d ∈ candidates, σ' = settled d.1))) ∨
      ∃ d ∈ candidates, d.2 = b ++ [c] ∧
        ∀ r, Settles ⟨next d.1, [], tools⟩ r → (⟨σ, b, tools⟩ : Matcher).advance [c] = r := by
  have hσ : σ.isFirm = true := by cases σ <;> first | rfl | cases hwatch
  have hws : Matcher.stateAllowsLeadingWs σ = false := by cases σ <;> first | rfl | cases hwatch
  have hsome : (σ.watch tools).markers ≠ [] := by
    obtain ⟨marker, hmarker, -⟩ := hb
    exact List.ne_nil_of_mem hmarker
  rcases (allowed_iff hσ hsome (hb.unpassed hfree) hb.head).1 h with ⟨hspace, -⟩ | hin
  · exact absurd (hspace.symm.trans hws) (by decide)
  · rcases settles_name hwatch (hfree.within hin) hin with ⟨σ', hstay, hpend, hσ'⟩ | ⟨d, hd, heq, hpass⟩
    · exact .inl ⟨σ', advance_of_settles hstay, hpend, hσ'⟩
    · exact .inr ⟨d, hd, heq, fun r hr => advance_of_settles (hpass r hr)⟩

private theorem settles_nil_fixed {σ : State} (hsome : (σ.watch tools).markers ≠ [])
    (hname : ∀ candidates settled next, σ.watch tools ≠ .name none candidates settled next) :
    Settles ⟨σ, [], tools⟩ (⟨σ, [], tools⟩, false) := by
  obtain ⟨σ', hstay, rfl | ⟨candidates, settled, next, h, -⟩⟩ := settles_nil hsome
  · exact hstay
  · exact absurd h (hname _ _ _)

private theorem append_ws {s w b : List Char} (hw : Blank w) (hb : b = []) (hc : Matcher.isWs c = true) :
    Blank (w ++ [c]) ∧ s ++ (w ++ b) ++ [c] = s ++ ((w ++ [c]) ++ []) := by
  subst hb
  refine ⟨hw.append fun x hx => ?_, by simp⟩
  rw [List.mem_singleton.1 hx]
  exact hc

/-- One more letter between calls. -/
private theorem letter_toolCalls (hfree : PrefixFree tools) (h : InBlock tools s) (hw : Blank w)
    (hb : Pending tools .inToolCalls b)
    (hallowed : (⟨.inToolCalls, b, tools⟩ : Matcher).isTokenAllowed [c] = true)
    (hleads : (⟨.inToolCalls, b, tools⟩ : Matcher).leadsOn c = true) :
    ∃ σ' b', (⟨.inToolCalls, b, tools⟩ : Matcher).advance [c] = (⟨σ', b', tools⟩, false) ∧
      Reading tools ((⟨.inToolCalls, b, tools⟩ : Matcher).openedBy variant c) (s ++ (w ++ b) ++ [c]) σ' b' := by
  have hwatch : State.inToolCalls.watch tools = .fixed Matcher.toolCallsAlternatives := rfl
  rcases letter_fixed hfree hwatch rfl hb hallowed with ⟨-, hnil, hc, hadv⟩ | ⟨hadv, hpend⟩ | ⟨σ', hmem, hpass⟩
  · obtain ⟨hblank, heq⟩ := append_ws (s := s) hw hnil hc
    exact ⟨_, _, hadv, heq ▸ .toolCalls h hblank (pending_nil (List.cons_ne_nil _ _))⟩
  · refine ⟨_, _, hadv, ?_⟩
    rw [List.append_assoc, List.append_assoc]
    exact .toolCalls h hw hpend
  · have hnames : ∀ variant, b ++ [c] = callOpen variant → σ' = .inInvokeName none → ∃ σ' b',
        (⟨.inToolCalls, b, tools⟩ : Matcher).advance [c] = (⟨σ', b', tools⟩, false) ∧
          Reading tools variant (s ++ (w ++ b) ++ [c]) σ' b' := by
      rintro variant hopen rfl
      have hsome : ((State.inInvokeName none).watch tools).markers ≠ [] := by
        have htools : tools ≠ [] := by
          rintro rfl
          cases variant <;> simp [Matcher.leadsOn, hopen, callOpen, openInvoke, openToolVariant] at hleads
        simpa [State.watch, Watch.markers, toolCandidates] using htools
      have htext : s ++ (w ++ b) ++ [c] = s ++ (w ++ (callOpen variant ++ [])) := by
        rw [← hopen]
        simp
      obtain ⟨σ'', hstay, hσ⟩ := settles_nil hsome
      rw [htext]
      refine ⟨σ'', [], hpass _ hstay, ?_⟩
      rcases hσ with rfl | ⟨candidates, settled, next, hname, d, hd, rfl⟩
      · exact .name h hw (pending_nil hsome) fun _ h => by cases h
      · cases hname
        obtain ⟨i, hi, rfl⟩ := List.mem_map.1 hd
        refine .name h hw (pending_nil (List.cons_ne_nil _ _)) ?_
        intro j hj
        cases hj
        exact List.mem_range.1 hi
    simp only [Matcher.toolCallsAlternatives, List.mem_cons, Prod.mk.injEq, List.not_mem_nil, or_false] at hmem
    rcases hmem with ⟨hopen, rfl⟩ | ⟨hopen, rfl⟩ | ⟨hclose, rfl⟩
    · have hvariant : (⟨.inToolCalls, b, tools⟩ : Matcher).openedBy variant c = false := by
        simp only [Matcher.openedBy, hopen, if_true]
        rw [if_neg (by decide)]
      rw [hvariant]
      exact hnames false hopen rfl
    · have hvariant : (⟨.inToolCalls, b, tools⟩ : Matcher).openedBy variant c = true := by
        simp only [Matcher.openedBy, hopen, if_true]
      rw [hvariant]
      exact hnames true hopen rfl
    · refine ⟨_, _, hpass _ (settles_nil_fixed (List.cons_ne_nil _ _) fun _ _ _ h => by cases h), ?_⟩
      have htext : s ++ (w ++ b) ++ [c] = s ++ (w ++ closeToolCalls) ++ [] := by
        rw [← hclose]
        simp
      rw [htext]
      exact .out (u := []) (h.close hw) (by decide)

/-- One more letter of a tool's name. -/
private theorem letter_toolName {idx : Option ℕ} (hfree : PrefixFree tools)
    (h : InBlock tools s) (hw : Blank w) (hb : Pending tools (.inInvokeName idx) b) (hidx : ∀ i ∈ idx, i < tools.length)
    (hallowed : (⟨.inInvokeName idx, b, tools⟩ : Matcher).isTokenAllowed [c] = true) :
    ∃ σ' b', (⟨.inInvokeName idx, b, tools⟩ : Matcher).advance [c] = (⟨σ', b', tools⟩, false) ∧
      Reading tools variant (s ++ (w ++ (callOpen variant ++ b)) ++ [c]) σ' b' := by
  have hwatch : (State.inInvokeName idx).watch tools =
      .name idx (toolCandidates tools idx) (fun i => .inInvokeName (some i)) (fun i => .inInvokeBody i []) := rfl
  have hcandidates : ∀ d ∈ toolCandidates tools idx, d.1 < tools.length ∧ d.2 = (toolAt tools d.1).name ++ nameEnd := by
    intro d hd
    cases idx with
    | none =>
      obtain ⟨i, hi, rfl⟩ := List.mem_map.1 hd
      exact ⟨List.mem_range.1 hi, rfl⟩
    | some i =>
      rw [List.mem_singleton.1 hd]
      exact ⟨hidx i rfl, rfl⟩
  rcases letter_name hfree hwatch hb hallowed with ⟨σ', hadv, hpend, hσ⟩ | ⟨d, hd, heq, hpass⟩
  · refine ⟨σ', b ++ [c], hadv, ?_⟩
    rw [show s ++ (w ++ (callOpen variant ++ b)) ++ [c] = s ++ (w ++ (callOpen variant ++ (b ++ [c]))) by simp]
    rcases hσ with rfl | ⟨rfl, d, hd, rfl⟩
    · exact .name h hw hpend hidx
    · refine .name h hw hpend fun i hi => ?_
      cases hi
      exact (hcandidates d hd).1
  · obtain ⟨hlt, hname⟩ := hcandidates d hd
    have hi : tools[d.1]? = some (toolAt tools d.1) := by
      rw [toolAt, List.getElem?_eq_getElem hlt, Option.getD_some]
    refine ⟨_, _, hpass _ (settles_nil_fixed (List.cons_ne_nil _ _) fun _ _ _ h => by cases h), ?_⟩
    have htext : s ++ (w ++ (callOpen variant ++ b)) ++ [c] =
        s ++ (w ++ (callOpen variant ++ ((toolAt tools d.1).name ++ nameEnd))) ++ ([] ++ []) := by
      rw [← hname, heq]
      simp
    rw [htext]
    exact .call (h.name hw hi variant) blank_nil (pending_nil (List.cons_ne_nil _ _))

/-- One more letter between parameters. -/
private theorem letter_call {i : ℕ} {emitted : List ℕ} (hschema : ClearSchema tools) (hfree : PrefixFree tools)
    (h : InCall tools variant i emitted s) (hw : Blank w) (hb : Pending tools (.inInvokeBody i emitted) b)
    (hallowed : (⟨.inInvokeBody i emitted, b, tools⟩ : Matcher).isTokenAllowed [c] = true)
    (hleads : (⟨.inInvokeBody i emitted, b, tools⟩ : Matcher).leadsOn c = true)
    (hown : (⟨.inInvokeBody i emitted, b, tools⟩ : Matcher).closesOwn variant c = true) :
    ∃ σ' b', (⟨.inInvokeBody i emitted, b, tools⟩ : Matcher).advance [c] = (⟨σ', b', tools⟩, false) ∧
      Reading tools variant (s ++ (w ++ b) ++ [c]) σ' b' := by
  have hwatch : (State.inInvokeBody i emitted).watch tools = .fixed (Matcher.invokeBodyAlternatives tools i emitted) := rfl
  have htext : s ++ (w ++ b) ++ [c] = s ++ (w ++ (b ++ [c])) := by simp
  rcases letter_fixed hfree hwatch rfl hb hallowed with ⟨-, hnil, hc, hadv⟩ | ⟨hadv, hpend⟩ | ⟨σ', hmem, hpass⟩
  · obtain ⟨hblank, heq⟩ := append_ws (s := s) hw hnil hc
    exact ⟨_, _, hadv, heq ▸ .call h hblank (pending_nil (List.cons_ne_nil _ _))⟩
  · exact ⟨_, _, hadv, htext ▸ .call h hw hpend⟩
  · have hcases : (b ++ [c] = openParam ∧ σ' = .inParamName i none emitted) ∨
        ((toolAt tools i).requiredSatisfied emitted = true ∧ σ' = .inToolCalls ∧
          (b ++ [c] = closeInvoke ∨ b ++ [c] = closeToolVariant)) := by
      rw [Matcher.invokeBodyAlternatives, List.mem_cons, Prod.mk.injEq] at hmem
      rcases hmem with hopen | hmem
      · exact .inl hopen
      · split at hmem
        · rename_i hreq
          rcases List.mem_pair.1 hmem with heq | heq
          · exact .inr ⟨hreq, (Prod.mk.inj heq).2, .inl (Prod.mk.inj heq).1⟩
          · exact .inr ⟨hreq, (Prod.mk.inj heq).2, .inr (Prod.mk.inj heq).1⟩
        · cases hmem
    rcases hcases with ⟨hopen, rfl⟩ | ⟨hreq, rfl, hclose⟩
    · have hsome : ((State.inParamName i none emitted).watch tools).markers ≠ [] := by
        rw [Matcher.leadsOn] at hleads
        simp only [hopen, ne_eq, not_true_eq_false, decide_false, Bool.false_or] at hleads
        obtain ⟨k, hk, hnew⟩ := List.any_eq_true.1 hleads
        refine List.ne_nil_of_mem (List.mem_map_of_mem (List.mem_map_of_mem (List.mem_filter.2 ⟨hk, ?_⟩)))
        simpa using hnew
      obtain ⟨σ'', hstay, hσ⟩ := settles_nil hsome
      refine ⟨σ'', [], hpass _ hstay, ?_⟩
      have hshape : s ++ (w ++ b) ++ [c] = s ++ (w ++ (openParam ++ [])) := by
        rw [← hopen]
        simp
      rw [hshape]
      rcases hσ with rfl | ⟨candidates, settled, next, hname, d, hd, rfl⟩
      · exact .param h hw (pending_nil hsome) fun _ h => by cases h
      · cases hname
        obtain ⟨k, hk, rfl⟩ := List.mem_map.1 hd
        refine .param h hw (pending_nil (List.cons_ne_nil _ _)) ?_
        intro j hj
        cases hj
        exact List.mem_range.1 (List.mem_filter.1 hk).1
    · have hsame : b ++ [c] = callClose variant := by
        rw [Matcher.closesOwn, decide_eq_true_eq] at hown
        cases variant with
        | false => exact hclose.resolve_right hown
        | true => exact hclose.resolve_left hown
      refine ⟨_, _, hpass _ (settles_nil_fixed (List.cons_ne_nil _ _) fun _ _ _ h => by cases h), ?_⟩
      have hshape : s ++ (w ++ b) ++ [c] = s ++ (w ++ callClose variant) ++ ([] ++ []) := by
        rw [← hsame]
        simp
      rw [hshape]
      exact .toolCalls (h.close hschema hw hreq) blank_nil (pending_nil (List.cons_ne_nil _ _))

/-- One more letter of a parameter's name. -/
private theorem letter_param {i : ℕ} {idx : Option ℕ} {emitted : List ℕ} (hfree : PrefixFree tools)
    (h : InCall tools variant i emitted s) (hw : Blank w) (hb : Pending tools (.inParamName i idx emitted) b)
    (hidx : ∀ k ∈ idx, k < (toolAt tools i).params.length)
    (hallowed : (⟨.inParamName i idx emitted, b, tools⟩ : Matcher).isTokenAllowed [c] = true) :
    ∃ σ' b', (⟨.inParamName i idx emitted, b, tools⟩ : Matcher).advance [c] = (⟨σ', b', tools⟩, false) ∧
      Reading tools variant (s ++ (w ++ (openParam ++ b)) ++ [c]) σ' b' := by
  have hwatch : (State.inParamName i idx emitted).watch tools = .name idx (paramCandidates (toolAt tools i) emitted idx)
      (fun k => .inParamName i (some k) emitted) (fun k => .inParamAttr i k emitted) := rfl
  have hcandidates : ∀ d ∈ paramCandidates (toolAt tools i) emitted idx, d.1 < (toolAt tools i).params.length ∧
      d.2 = (toolAt tools i).paramAt d.1 ++ paramNameEnd := by
    intro d hd
    cases idx with
    | none =>
      obtain ⟨k, hk, rfl⟩ := List.mem_map.1 hd
      exact ⟨List.mem_range.1 (List.mem_filter.1 hk).1, rfl⟩
    | some k =>
      rw [List.mem_singleton.1 hd]
      exact ⟨hidx k rfl, rfl⟩
  rcases letter_name hfree hwatch hb hallowed with ⟨σ', hadv, hpend, hσ⟩ | ⟨d, hd, heq, hpass⟩
  · refine ⟨σ', b ++ [c], hadv, ?_⟩
    rw [show s ++ (w ++ (openParam ++ b)) ++ [c] = s ++ (w ++ (openParam ++ (b ++ [c]))) by simp]
    rcases hσ with rfl | ⟨rfl, d, hd, rfl⟩
    · exact .param h hw hpend hidx
    · refine .param h hw hpend fun k hk => ?_
      cases hk
      exact (hcandidates d hd).1
  · obtain ⟨hlt, hname⟩ := hcandidates d hd
    have hi : tools[i]? = some (toolAt tools i) := by
      obtain ⟨_, _, tool, _, _, _, hi, _⟩ := h
      rw [toolAt_eq hi, hi]
    refine ⟨_, _, hpass _ (settles_nil_fixed (List.cons_ne_nil _ _) fun _ _ _ h => by cases h), ?_⟩
    have htext : s ++ (w ++ (openParam ++ b)) ++ [c] =
        s ++ (w ++ (openParam ++ ((toolAt tools i).paramAt d.1 ++ paramNameEnd))) ++ [] := by
      rw [← hname, heq]
      simp
    rw [htext]
    exact .attr (h.param hw hi hlt) (pending_nil (List.cons_ne_nil _ _))

/-- One more letter of a parameter's attribute. -/
private theorem letter_attr {i k : ℕ} {emitted : List ℕ} (hfree : PrefixFree tools)
    (h : InParam tools variant i k emitted s) (hb : Pending tools (.inParamAttr i k emitted) b)
    (hallowed : (⟨.inParamAttr i k emitted, b, tools⟩ : Matcher).isTokenAllowed [c] = true) :
    ∃ σ' b', (⟨.inParamAttr i k emitted, b, tools⟩ : Matcher).advance [c] = (⟨σ', b', tools⟩, false) ∧
      Reading tools variant (s ++ b ++ [c]) σ' b' := by
  have hwatch : (State.inParamAttr i k emitted).watch tools = .fixed (Matcher.attrAlternatives i k emitted) := rfl
  rcases letter_fixed hfree hwatch rfl hb hallowed with ⟨hws, -⟩ | ⟨hadv, hpend⟩ | ⟨σ', hmem, hpass⟩
  · cases hws
  · exact ⟨_, _, hadv, (List.append_assoc s b [c]).symm ▸ .attr h hpend⟩
  · have hbody : ∀ isString, b ++ [c] = (stringTag isString).tail → σ' = .inParamBody i k emitted →
        ∃ σ' b', (⟨.inParamAttr i k emitted, b, tools⟩ : Matcher).advance [c] = (⟨σ', b', tools⟩, false) ∧
          Reading tools variant (s ++ b ++ [c]) σ' b' := by
      rintro isString htag rfl
      refine ⟨_, _, hpass _ (settles_nil_fixed (List.cons_ne_nil _ _) fun _ _ _ h => by cases h), ?_⟩
      have htext : s ++ b ++ [c] = s ++ ((stringTag isString).tail ++ []) := by
        rw [← htag]
        simp
      rw [htext]
      exact .body (u := []) h isString (.inl (by decide))
    rcases List.mem_pair.1 hmem with heq | heq
    · exact hbody true (Prod.mk.inj heq).1 (Prod.mk.inj heq).2
    · exact hbody false (Prod.mk.inj heq).1 (Prod.mk.inj heq).2

/-- One more letter outside blocks. -/
private theorem letter_out (hfree : PrefixFree tools) (h : Outside tools s) (hu : memmem u openToolCalls = none) :
    ∃ σ' b', (⟨.out, Matcher.keepTail openToolCalls u, tools⟩ : Matcher).advance [c] = (⟨σ', b', tools⟩, false) ∧
      Reading tools variant (s ++ u ++ [c]) σ' b' := by
  have hwatch : State.out.watch tools = .free openToolCalls .inToolCalls := rfl
  rcases settles_free hwatch hfree.inOrder hu settles_advance with
    ⟨hnone, hadv⟩ | ⟨v, hsplit, hpass, hend⟩
  · exact ⟨_, _, hadv, (List.append_assoc s u [c]).symm ▸ .out h hnone⟩
  · refine ⟨_, _, hend _ (settles_nil_fixed (List.cons_ne_nil _ _) fun _ _ _ h => by cases h), ?_⟩
    have htext : s ++ u ++ [c] = s ++ (v ++ openToolCalls) ++ ([] ++ []) := by
      rw [← hsplit]
      simp
    rw [htext]
    exact .toolCalls (h.open hpass) blank_nil (pending_nil (List.cons_ne_nil _ _))

/-- A value goes on, or its closing marker does. -/
private theorem valueText_letter (hu : ValueText u)
    (h : Matcher.keepTail closeParam u = [] ∨ Matcher.keepTail closeParam u = ['<'] ∨
      Matcher.keepTail closeParam u ++ [c] <+: closeParam) :
    ValueText (u ++ [c]) ∨ ∃ v, ¬ ['<', '/'] <:+: v ∧ u ++ [c] = v ++ closeParam := by
  rcases hu with hu | ⟨v, d, rfl, hv, hd, hne, hlen⟩
  · by_cases hin : ['<', '/'] <:+: u ++ [c]
    · rcases List.infix_concat_iff.1 hin with ⟨v, hsplit⟩ | hbefore
      · have hu' : u = v ++ ['<'] ∧ [c] = ['/'] := by
          refine List.append_inj' ?_ rfl
          rw [← hsplit, List.append_assoc]
          rfl
        refine .inl (.inr ⟨v, ['<', '/'], hsplit.symm, fun h => hu ?_, by decide, by decide, Nat.le_refl 2⟩)
        rw [hu'.1]
        exact h.trans (List.prefix_append v ['<']).isInfix
      · exact absurd hbefore hu
    · exact .inl (.inl hin)
  · have hkeep : Matcher.keepTail closeParam (v ++ d) = d := keepTail_closing hv hd hne (by rintro rfl; cases hlen)
    rw [hkeep] at h
    rcases h with rfl | rfl | h
    · cases hlen
    · exact absurd hlen (by decide)
    · by_cases hfull : d ++ [c] = closeParam
      · exact .inr ⟨v, hv, by rw [List.append_assoc, hfull]⟩
      · exact .inl (.inr ⟨v, d ++ [c], List.append_assoc v d [c], hv, h, hfull, by rw [List.length_append]; omega⟩)

private theorem valueText_none (hu : ValueText u) : memmem u closeParam = none := by
  rcases hu with hu | ⟨v, d, rfl, hv, hd, hne, -⟩
  · have hnone := memmem_closeParam_none hu List.nil_prefix (by decide)
    rwa [List.append_nil] at hnone
  · exact memmem_closeParam_none hv hd hne

private theorem memmem_closed (v : List Char) : memmem (v ++ closeParam) closeParam ≠ none := by
  intro h
  refine memmem_none h v.length ?_
  rw [List.drop_left]

/-- One more letter of a value. -/
private theorem letter_body {i k : ℕ} {emitted : List ℕ} {isString : Bool} (hschema : ClearSchema tools)
    (hfree : PrefixFree tools) (h : InParam tools variant i k emitted s) (hu : ValueText u)
    (hfollows : (⟨.inParamBody i k emitted, Matcher.keepTail closeParam u, tools⟩ : Matcher).follows c = true) :
    ∃ σ' b', (⟨.inParamBody i k emitted, Matcher.keepTail closeParam u, tools⟩ : Matcher).advance [c] =
      (⟨σ', b', tools⟩, false) ∧
      Reading tools variant (s ++ ((stringTag isString).tail ++ u) ++ [c]) σ' b' := by
  have hwatch : (State.inParamBody i k emitted).watch tools =
      .free closeParam (.inInvokeBody i (Matcher.addEmitted emitted k)) := rfl
  have hallowed : Matcher.keepTail closeParam u = [] ∨ Matcher.keepTail closeParam u = ['<'] ∨
      Matcher.keepTail closeParam u ++ [c] <+: closeParam := by
    have hkept : Matcher.keepTail closeParam u ≠ closeParam := by
      intro heq
      obtain ⟨d, hd⟩ := keepTail_suffix closeParam u
      rw [heq] at hd
      exact memmem_closed d (hd ▸ valueText_none hu)
    have hbegins := keepTail_begins closeParam u
    generalize Matcher.keepTail closeParam u = b at hfollows hkept hbegins
    by_cases hb : b = []
    · exact .inl hb
    by_cases hangle : b = ['<']
    · exact .inr (.inl hangle)
    refine .inr (.inr ?_)
    have hcheck : Matcher.checkAgainstConts (b ++ [c]) [closeParam] = true := by
      simpa [Matcher.follows, State.isBody, Matcher.isTokenAllowed, Matcher.isFree, Matcher.allowedContinuations,
        Matcher.stateAllowsLeadingWs, hb, hangle] using hfollows
    rw [Matcher.checkAgainstConts, List.any_cons, List.any_nil, Bool.or_false, Bool.or_eq_true,
      List.isPrefixOf_iff_prefix, List.isPrefixOf_iff_prefix, List.prefix_concat_iff] at hcheck
    rcases hcheck with hin | heq | hover
    · exact hin
    · exact heq ▸ List.prefix_refl _
    · exact absurd (hbegins.eq_of_length_le hover.length_le) hkept
  have htext : s ++ ((stringTag isString).tail ++ u) ++ [c] = s ++ ((stringTag isString).tail ++ (u ++ [c])) := by simp
  rcases valueText_letter hu hallowed with hvalue | ⟨v, hv, hclosed⟩
  · rcases settles_free hwatch hfree.inOrder (valueText_none hu) settles_advance with ⟨hnone, hadv⟩ | ⟨v, hsplit, -, -⟩
    · exact ⟨_, _, hadv, htext ▸ .body h isString hvalue⟩
    · exact absurd (hsplit ▸ valueText_none hvalue) (memmem_closed v)
  · rcases settles_free hwatch hfree.inOrder (valueText_none hu) settles_advance with ⟨hnone, -⟩ | ⟨v', hsplit, -, hend⟩
    · exact absurd (hclosed ▸ hnone) (memmem_closed v)
    · refine ⟨_, _, hend _ (settles_nil_fixed (List.cons_ne_nil _ _) fun _ _ _ h => by cases h), ?_⟩
      have hshape : s ++ ((stringTag isString).tail ++ u) ++ [c] =
          s ++ ((stringTag isString).tail ++ (v ++ closeParam)) ++ ([] ++ []) := by
        rw [htext, hclosed]
        simp
      rw [hshape]
      exact .call (h.close hschema isString hv) blank_nil (pending_nil (List.cons_ne_nil _ _))

/-- One more letter, whatever the state. -/
theorem Reading.letter (hschema : ClearSchema tools) (hfree : PrefixFree tools) (h : Reading tools variant s σ b)
    (hfollows : (⟨σ, b, tools⟩ : Matcher).follows c = true) (hleads : (⟨σ, b, tools⟩ : Matcher).leadsOn c = true)
    (hown : (⟨σ, b, tools⟩ : Matcher).closesOwn variant c = true) :
    ∃ σ' b', (⟨σ, b, tools⟩ : Matcher).advance [c] = (⟨σ', b', tools⟩, false) ∧
      Reading tools ((⟨σ, b, tools⟩ : Matcher).openedBy variant c) (s ++ [c]) σ' b' := by
  have hallowed : σ.isFirm = true → (⟨σ, b, tools⟩ : Matcher).isTokenAllowed [c] = true := by
    intro hσ
    rw [Matcher.follows, Bool.or_eq_true, Bool.or_eq_true, decide_eq_true_eq, Bool.and_eq_true] at hfollows
    rcases hfollows with (rfl | ⟨hbody, -⟩) | h
    · cases hσ
    · have hbody : σ.isBody = true := hbody
      cases σ <;> first | (cases hσ; done) | cases hbody
    · exact h
  cases h with
  | out h hu => exact letter_out hfree h hu
  | toolCalls h hw hb => exact letter_toolCalls hfree h hw hb (hallowed rfl) hleads
  | name h hw hb hidx => exact letter_toolName hfree h hw hb hidx (hallowed rfl)
  | call h hw hb => exact letter_call hschema hfree h hw hb (hallowed rfl) hleads hown
  | param h hw hb hidx => exact letter_param hfree h hw hb hidx (hallowed rfl)
  | attr h hb => exact letter_attr hfree h hb (hallowed rfl)
  | body h isString hu => exact letter_body hschema hfree h hu hfollows

end Letter

/-- Every letter follows, leads on and closes the call it may close. -/
def Matcher.keepsTo (m : Matcher) (variant : Bool) : List Char → Bool
  | [] => true
  | c :: text =>
    m.follows c && m.leadsOn c && m.closesOwn variant c && (m.advance [c]).1.keepsTo (m.openedBy variant c) text

section Run
variable {tools : List ToolSchema} {variant : Bool} {s b text : List Char} {σ : State}

theorem Reading.run (hschema : ClearSchema tools) (hfree : PrefixFree tools) (h : Reading tools variant s σ b)
    (hkeeps : (⟨σ, b, tools⟩ : Matcher).keepsTo variant text = true) :
    (⟨σ, b, tools⟩ : Matcher).recovers (letters text) = false ∧
      ∃ variant' σ' b', Reading tools variant' (s ++ text) σ' b' := by
  induction text generalizing variant s σ b with
  | nil => exact ⟨rfl, variant, σ, b, by rwa [List.append_nil]⟩
  | cons c text ih =>
    rw [Matcher.keepsTo, Bool.and_eq_true, Bool.and_eq_true, Bool.and_eq_true] at hkeeps
    obtain ⟨⟨⟨hfollows, hleads⟩, hown⟩, hrest⟩ := hkeeps
    obtain ⟨σ', b', hadv, hread⟩ := h.letter hschema hfree hfollows hleads hown
    rw [hadv] at hrest
    obtain ⟨hnone, hlater⟩ := ih hread hrest
    rw [List.append_assoc] at hlater
    refine ⟨?_, hlater⟩
    rw [show letters (c :: text) = [c] :: letters text from rfl, Matcher.recovers, hadv, hnone]
    rfl

theorem reading_start (tools : List ToolSchema) : Reading tools false [] .out [] :=
  .out (s := []) (u := []) ⟨[], nofun, rfl⟩ (by decide)

end Run

section Free
variable {tools : List ToolSchema}

/-- Of two names closed alike, neither holding the close, one begins the other only if they are
the same. -/
private theorem closed_names {n close x y : List Char} (hpass : Passes n y close) (hn : n <+: close)
    (h : x ++ close <+: y ++ close) : x ++ close = y ++ close := by
  refine h.eq_of_length_le ?_
  have hle : y.length ≤ x.length := by
    by_contra hlt
    refine hpass x.length (by omega) (hn.trans ?_)
    have := h.drop x.length
    rwa [List.drop_left] at this
  rw [List.length_append, List.length_append]
  omega

theorem ClearSchema.toolAt (h : ClearSchema tools) (i : ℕ) : ClearName (toolAt tools i).name := by
  cases hi : tools[i]? with
  | none => rw [Grammar.toolAt, hi]; exact ⟨by decide, by decide⟩
  | some tool => rw [toolAt_eq hi]; exact h.name tool (List.mem_of_getElem? hi)

theorem ClearSchema.paramAt (h : ClearSchema tools) (i k : ℕ) : ClearKey ((Grammar.toolAt tools i).paramAt k) := by
  have hnil : ClearKey [] := ⟨by decide, by decide⟩
  cases hi : tools[i]? with
  | none => rw [Grammar.toolAt, hi]; exact hnil
  | some tool =>
    rw [toolAt_eq hi, ToolSchema.paramAt]
    cases hk : tool.params[k]? with
    | none => exact hnil
    | some key => exact h.params tool (List.mem_of_getElem? hi) key (List.mem_of_getElem? hk)

theorem toolName_marker {idx : Option ℕ} {marker : List Char} (h : marker ∈ ((State.inInvokeName idx).watch tools).markers) :
    ∃ i, marker = (Grammar.toolAt tools i).name ++ nameEnd := by
  obtain ⟨d, hd, rfl⟩ := List.mem_map.1 h
  cases idx with
  | none =>
    obtain ⟨i, -, rfl⟩ := List.mem_map.1 hd
    exact ⟨i, rfl⟩
  | some i => exact ⟨i, by rw [List.mem_singleton.1 hd]⟩

theorem paramName_marker {i : ℕ} {idx : Option ℕ} {emitted : List ℕ} {marker : List Char}
    (h : marker ∈ ((State.inParamName i idx emitted).watch tools).markers) :
    ∃ k, marker = (Grammar.toolAt tools i).paramAt k ++ paramNameEnd := by
  obtain ⟨d, hd, rfl⟩ := List.mem_map.1 h
  cases idx with
  | none =>
    obtain ⟨k, -, rfl⟩ := List.mem_map.1 hd
    exact ⟨k, rfl⟩
  | some k => exact ⟨k, by rw [List.mem_singleton.1 hd]⟩

/-- The names of a clear schema do not begin one another. -/
theorem ClearSchema.prefixFree (h : ClearSchema tools) : PrefixFree tools := by
  intro σ a ha b hb hin
  cases σ with
  | out => rw [List.mem_singleton.1 ha, List.mem_singleton.1 hb]
  | inParamBody i k emitted => rw [List.mem_singleton.1 ha, List.mem_singleton.1 hb]
  | inToolCalls =>
    have hfixed : ∀ a ∈ Matcher.toolCallsAlternatives, a.1 ∈ fixedMarkers := by decide
    obtain ⟨x, hx, rfl⟩ := List.mem_map.1 ha
    obtain ⟨y, hy, rfl⟩ := List.mem_map.1 hb
    exact fixedMarkers_apart _ (hfixed x hx) _ (hfixed y hy) hin
  | inInvokeBody i emitted =>
    obtain ⟨x, hx, rfl⟩ := List.mem_map.1 ha
    obtain ⟨y, hy, rfl⟩ := List.mem_map.1 hb
    exact fixedMarkers_apart _ (invokeBody_fixed x hx) _ (invokeBody_fixed y hy) hin
  | inParamAttr i k emitted =>
    have hall : ∀ a ∈ [attrStringTrue, attrStringFalse], ∀ b ∈ [attrStringTrue, attrStringFalse], a <+: b → a = b := by decide
    exact hall a ha b hb hin
  | inInvokeName idx =>
    obtain ⟨i, rfl⟩ := toolName_marker ha
    obtain ⟨j, rfl⟩ := toolName_marker hb
    exact closed_names (passes_free (List.infix_refl ['"', '>']) (h.toolAt j).1 (by decide) _) (by decide) hin
  | inParamName i idx emitted =>
    obtain ⟨k, rfl⟩ := paramName_marker ha
    obtain ⟨j, rfl⟩ := paramName_marker hb
    exact closed_names (n := ['"']) (passes_head (h.paramAt i j).1 _) (by decide) hin

end Free
end Hipscope.Dsml.Grammar
