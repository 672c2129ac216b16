import Hipscope.Client.Control
import Hipscope.Machine.Runs

/-! With one control call in the slot at a time, every line reaches the call it answers; the
epochs accepted by resets increase in any case. -/
namespace Hipscope.Client

/-- No reply is lost or reaches another call than the one that asked. -/
def ControlOutput.Answered : ControlOutput → Prop
  | .delivered waiter reply => reply.asked = waiter
  | .dropped _ => False
  | .accepted _ => True
  | .returned call response _ => ∀ reply, response = some reply → reply.asked = call

namespace ControlPlane
variable {p next : ControlPlane} {c : ℕ} {call : ControlCall} {out : List ControlOutput}

/-- No line stands behind a final one. -/
def endsWithFinal (values : List Value) : Bool := (values.dropWhile fun value => !isLoadFinal value).length ≤ 1

/-- A call enters the slot only when no other call is between its entry and its exit, and no notice about a drafter
follows a `loaded`. -/
def Exclusive (p : ControlPlane) : ControlLabel → Prop
  | .enter _ _ => ∀ c call, p.calls c = some call → call.stage.inProgress = false
  | .answer values => endsWithFinal values = true
  | _ => True

/-- Nothing is on its way. -/
structure Quiet (p : ControlPlane) : Prop where
  stdout : p.stdout = []
  holding : p.holding = none
  stdin : p.ended = false → p.stdin = []

def heldReplies (p : ControlPlane) : List Reply := p.holding.toList.map Prod.snd

/-- The message of a call is unanswered, or what is left of its answer is on its way to it. -/
structure Awaiting (p : ControlPlane) (c : ℕ) (call : ControlCall) : Prop where
  toSelf : ∀ waiter reply, p.holding = some (waiter, reply) → waiter = c
  lines : ∃ values, call.queue ++ p.heldReplies ++ p.stdout = values.map (fun value => Reply.mk c value) ∧
    ((values = [] ∧ (p.ended = false → p.stdin = [(c, call.request)])) ∨
      (call.request.isAnswer values = true ∧ endsWithFinal values = true ∧ (p.ended = false → p.stdin = [])))
  drained : p.ended = true → p.stdout = [] ∧ p.holding = none

/-- The call in the slot. -/
inductive Serving (p : ControlPlane) (c : ℕ) (call : ControlCall) : Prop
  | entered : call.stage = .entered → call.queue = [] → Quiet p → Serving p c call
  | waiting : call.stage = .waiting → Awaiting p c call → Serving p c call
  | leaving (outcome : Except ClientError Reply) : call.stage = .leaving outcome → call.queue = [] → Quiet p →
    (∀ reply, outcome = .ok reply → reply.asked = c) → Serving p c call

/-- At most one call is in the slot, and all traffic is its own. -/
structure Orderly (p : ControlPlane) : Prop where
  validating : ∀ c call, p.calls c = some call → ∀ reply, call.stage = .validating reply → reply.asked = c
  recording : ∀ c call, p.calls c = some call → ∀ reply epoch eligible,
    call.stage = .recording reply epoch eligible → reply.asked = c
  served : (Quiet p ∧ ∀ c call, p.calls c = some call → call.stage.inProgress = false) ∨
    ∃ c call, p.calls c = some call ∧ Serving p c call ∧ (p.ended = false → p.control = some c) ∧
      ∀ c' call', p.calls c' = some call' → call'.stage.inProgress = true → c' = c

theorem orderly_spawn : Orderly spawn where
  validating c call h := by cases h
  recording c call h := by cases h
  served := .inl ⟨⟨rfl, rfl, fun _ => rfl⟩, fun c call h => by cases h⟩

private theorem setCall_calls {new : ControlCall} {c' : ℕ} {call' : ControlCall}
    (h : (p.setCall c new).calls c' = some call') : (c' = c ∧ call' = new) ∨ (c' ≠ c ∧ p.calls c' = some call') := by
  dsimp only [setCall] at h
  rw [Function.update_apply] at h
  split_ifs at h with heq
  · exact .inl ⟨heq, (Option.some.inj h).symm⟩
  · exact .inr ⟨heq, h⟩

private theorem setCall_self {new : ControlCall} : (p.setCall c new).calls c = some new := Function.update_self _ _ _

/-- The call that a label of a call in progress is about is the one in the slot. -/
private theorem Orderly.serving (h : Orderly p) (hcall : p.calls c = some call) (hin : call.stage.inProgress = true) :
    Serving p c call ∧ (p.ended = false → p.control = some c) ∧
      ∀ c' call', p.calls c' = some call' → call'.stage.inProgress = true → c' = c := by
  rcases h.served with ⟨-, hidle⟩ | ⟨c₀, call₀, hcall₀, hserving, hslot, hsole⟩
  · rw [hidle c call hcall] at hin
    cases hin
  · have heq := hsole c call hcall hin
    subst heq
    rw [hcall] at hcall₀
    cases hcall₀
    exact ⟨hserving, hslot, hsole⟩

/-- The call in the slot moves on and stays in it. -/
private theorem Orderly.advance {new : ControlCall} {p' : ControlPlane} (h : Orderly p) (hcall : p.calls c = some call)
    (hin : call.stage.inProgress = true) (hcalls : p'.calls = (p.setCall c new).calls)
    (hcontrol : p'.control = p.control) (hended : p'.ended = p.ended) (hserving : Serving p' c new) : Orderly p' := by
  obtain ⟨-, hslot, hsole⟩ := h.serving hcall hin
  have hnot : (∀ reply, new.stage ≠ .validating reply) ∧
      ∀ reply epoch eligible, new.stage ≠ .recording reply epoch eligible := by
    cases hserving with
    | entered hstage => simp [hstage]
    | waiting hstage => simp [hstage]
    | leaving outcome hstage => simp [hstage]
  refine ⟨fun c' call' hc' reply hstage => ?_, fun c' call' hc' reply epoch eligible hstage => ?_,
    .inr ⟨c, new, ?_, hserving, ?_, ?_⟩⟩
  · rw [hcalls] at hc'
    rcases setCall_calls hc' with ⟨rfl, rfl⟩ | ⟨-, hold⟩
    · exact absurd hstage (hnot.1 reply)
    · exact h.validating c' call' hold reply hstage
  · rw [hcalls] at hc'
    rcases setCall_calls hc' with ⟨rfl, rfl⟩ | ⟨-, hold⟩
    · exact absurd hstage (hnot.2 reply epoch eligible)
    · exact h.recording c' call' hold reply epoch eligible hstage
  · rw [hcalls]
    exact setCall_self
  · rw [hended, hcontrol]
    exact hslot
  · intro c' call' hc' hin'
    rw [hcalls] at hc'
    rcases setCall_calls hc' with ⟨rfl, rfl⟩ | ⟨-, hold⟩
    · rfl
    · exact hsole c' call' hold hin'

private theorem Serving.inProgress (h : Serving p c call) : call.stage.inProgress = true := by
  cases h with
  | entered hstage => rw [hstage]; rfl
  | waiting hstage => rw [hstage]; rfl
  | leaving outcome hstage => rw [hstage]; rfl

/-- A call outside the slot moves on and stays outside. -/
private theorem Orderly.bystander {new : ControlCall} {p' : ControlPlane} (h : Orderly p) (hcall : p.calls c = some call)
    (hout : call.stage.inProgress = false) (hcalls : p'.calls = (p.setCall c new).calls)
    (hcontrol : p'.control = p.control) (hended : p'.ended = p.ended) (hstdin : p'.stdin = p.stdin)
    (hstdout : p'.stdout = p.stdout) (hholding : p'.holding = p.holding) (hnew : new.stage.inProgress = false)
    (hvalidating : ∀ reply, new.stage = .validating reply → reply.asked = c)
    (hrecording : ∀ reply epoch eligible, new.stage = .recording reply epoch eligible → reply.asked = c) :
    Orderly p' := by
  have hquiet : Quiet p → Quiet p' := by
    rintro ⟨ho, hh, hi⟩
    exact ⟨hstdout ▸ ho, hholding ▸ hh, by rw [hended, hstdin]; exact hi⟩
  have hserving : ∀ {c' : ℕ} {call' : ControlCall}, Serving p c' call' → Serving p' c' call' := by
    intro c' call' hs
    cases hs with
    | entered hstage hqueue hq => exact .entered hstage hqueue (hquiet hq)
    | leaving outcome hstage hqueue hq hasked => exact .leaving outcome hstage hqueue (hquiet hq) hasked
    | waiting hstage ha =>
      refine .waiting hstage ⟨?_, ?_, ?_⟩
      · rw [hholding]
        exact ha.toSelf
      · rw [heldReplies, hholding, hstdout, hended, hstdin]
        exact ha.lines
      · rw [hended, hstdout, hholding]
        exact ha.drained
  refine ⟨fun c' call' hc' reply hstage => ?_, fun c' call' hc' reply epoch eligible hstage => ?_, ?_⟩
  · rw [hcalls] at hc'
    rcases setCall_calls hc' with ⟨rfl, rfl⟩ | ⟨-, hold⟩
    · exact hvalidating reply hstage
    · exact h.validating c' call' hold reply hstage
  · rw [hcalls] at hc'
    rcases setCall_calls hc' with ⟨rfl, rfl⟩ | ⟨-, hold⟩
    · exact hrecording reply epoch eligible hstage
    · exact h.recording c' call' hold reply epoch eligible hstage
  · rcases h.served with ⟨hq, hidle⟩ | ⟨c₀, call₀, hcall₀, hs, hslot, hsole⟩
    · refine .inl ⟨hquiet hq, fun c' call' hc' => ?_⟩
      rw [hcalls] at hc'
      rcases setCall_calls hc' with ⟨rfl, rfl⟩ | ⟨-, hold⟩
      · exact hnew
      · exact hidle c' call' hold
    · have hne : c₀ ≠ c := by
        rintro rfl
        rw [hcall] at hcall₀
        cases hcall₀
        rw [hs.inProgress] at hout
        cases hout
      refine .inr ⟨c₀, call₀, ?_, hserving hs, by rw [hended, hcontrol]; exact hslot, fun c' call' hc' hin => ?_⟩
      · rw [hcalls]
        exact (Function.update_of_ne hne _ _).trans hcall₀
      · rw [hcalls] at hc'
        rcases setCall_calls hc' with ⟨rfl, rfl⟩ | ⟨-, hold⟩
        · rw [hnew] at hin
          cases hin
        · exact hsole c' call' hold hin

private theorem Orderly.enter {request : Request} (h : Orderly p) (hguard : Exclusive p (.enter c request))
    (hstep : p.enter c request = some (next, out)) : Orderly next ∧ ∀ o ∈ out, o.Answered := by
  have hquiet : Quiet p := by
    rcases h.served with ⟨hq, -⟩ | ⟨c₀, call₀, hcall₀, hs, -⟩
    · exact hq
    · have := hguard c₀ call₀ hcall₀
      rw [hs.inProgress] at this
      cases this
  rw [ControlPlane.enter] at hstep
  split at hstep
  · cases hstep
  · next hfresh =>
    cases hstep
    refine ⟨⟨fun c' call' hc' reply hstage => ?_, fun c' call' hc' reply epoch eligible hstage => ?_, ?_⟩, by simp⟩
    · rcases setCall_calls hc' with ⟨rfl, rfl⟩ | ⟨-, hold⟩
      · cases hstage
      · exact h.validating c' call' hold reply hstage
    · rcases setCall_calls hc' with ⟨rfl, rfl⟩ | ⟨-, hold⟩
      · cases hstage
      · exact h.recording c' call' hold reply epoch eligible hstage
    · refine .inr ⟨c, _, setCall_self, .entered rfl rfl ⟨hquiet.stdout, hquiet.holding, hquiet.stdin⟩, fun _ => rfl,
        fun c' call' hc' hin => ?_⟩
      rcases setCall_calls hc' with ⟨rfl, rfl⟩ | ⟨-, hold⟩
      · rfl
      · rw [hguard c' call' hold] at hin
        cases hin

private theorem Orderly.send {result : Except ClientError Unit} (h : Orderly p) (hcall : p.calls c = some call)
    (hstep : p.send c call result = some (next, out)) : Orderly next ∧ ∀ o ∈ out, o.Answered := by
  have hentered : call.stage = .entered := by
    rw [ControlPlane.send.eq_def] at hstep
    split at hstep <;> first | assumption | cases hstep
  have hin : call.stage.inProgress = true := by rw [hentered]; rfl
  obtain ⟨hserving, -, -⟩ := h.serving hcall hin
  have hquiet : call.queue = [] ∧ Quiet p := by
    cases hserving with
    | entered _ hqueue hq => exact ⟨hqueue, hq⟩
    | waiting hstage => rw [hentered] at hstage; cases hstage
    | leaving outcome hstage => rw [hentered] at hstage; cases hstage
  obtain ⟨hqueue, hq⟩ := hquiet
  rw [ControlPlane.send.eq_def, hentered] at hstep
  rcases result with err | ⟨⟩
  · cases hstep
    refine ⟨h.advance hcall hin rfl rfl rfl (.leaving _ rfl hqueue ⟨hq.stdout, hq.holding, hq.stdin⟩ ?_), by simp⟩
    intro reply heq
    cases heq
  · cases hstep
    refine ⟨h.advance hcall hin rfl rfl rfl (.waiting rfl ⟨?_, ⟨[], ?_, .inl ⟨rfl, ?_⟩⟩, ?_⟩), by simp⟩
    · intro waiter reply hheld
      have hheld' : p.holding = some (waiter, reply) := hheld
      rw [hq.holding] at hheld'
      cases hheld'
    · change call.queue ++ p.heldReplies ++ p.stdout = []
      rw [hqueue, heldReplies, hq.holding, hq.stdout]
      rfl
    · intro hended
      change p.stdin ++ [(c, call.request)] = [(c, call.request)]
      rw [hq.stdin hended]
      rfl
    · exact fun _ => ⟨hq.stdout, hq.holding⟩

/-- A waiting call is the one in the slot. -/
private theorem Orderly.awaiting (h : Orderly p) (hcall : p.calls c = some call) (hstage : call.stage = .waiting) :
    call.stage.inProgress = true ∧ Awaiting p c call ∧ (p.ended = false → p.control = some c) := by
  have hin : call.stage.inProgress = true := by rw [hstage]; rfl
  obtain ⟨hserving, hslot, -⟩ := h.serving hcall hin
  cases hserving with
  | waiting _ ha => exact ⟨hin, ha, hslot⟩
  | entered hother => rw [hstage] at hother; cases hother
  | leaving outcome hother => rw [hstage] at hother; cases hother

/-- What follows a line of an answer: more of it after a load's progress, else nothing. -/
private theorem isAnswer_cons {request : Request} {value : Value} {values : List Value}
    (h : request.isAnswer (value :: values) = true) (hends : endsWithFinal (value :: values) = true) :
    if request = .load ∧ isLoadFinal value = false then request.isAnswer values = true ∧ endsWithFinal values = true
    else values = [] := by
  rw [endsWithFinal, decide_eq_true_iff, List.dropWhile_cons] at hends
  rw [Request.isAnswer.eq_def, Bool.and_eq_true, List.all_cons, Bool.and_eq_true] at h
  obtain ⟨⟨-, hall⟩, hshape⟩ := h
  cases request with
  | load =>
    rw [isLoadAnswer] at hshape
    split_ifs at hshape with hfinal
    · rw [if_neg (by simp [hfinal])]
      rw [hfinal, Bool.not_true, if_neg (by decide), List.length_cons] at hends
      exact List.eq_nil_of_length_eq_zero (by omega)
    · rw [if_pos ⟨rfl, by simpa using hfinal⟩, Request.isAnswer.eq_def, hall]
      rw [eq_false_of_ne_true hfinal, Bool.not_false, if_pos rfl] at hends
      exact ⟨hshape, decide_eq_true hends⟩
  | ping => simpa using hshape
  | configure => simpa using hshape
  | reset attempt => simpa using hshape
  | unload => simpa using hshape

private theorem Orderly.receive (h : Orderly p) (hcall : p.calls c = some call)
    (hstep : p.receive c call = some (next, out)) : Orderly next ∧ ∀ o ∈ out, o.Answered := by
  rw [ControlPlane.receive] at hstep
  split at hstep
  · next reply queue hstage hqueue =>
    obtain ⟨hin, ⟨htoSelf, ⟨values, hlines, hreply⟩, hdrained⟩, -⟩ := h.awaiting hcall hstage
    rw [hqueue] at hlines
    cases values with
    | nil => cases hlines
    | cons value values =>
      obtain ⟨rfl, hrest⟩ : reply = ⟨c, value⟩ ∧ queue ++ p.heldReplies ++ p.stdout =
          values.map fun value => Reply.mk c value := List.cons.inj hlines
      obtain ⟨hanswer, hends, hstdin⟩ : call.request.isAnswer (value :: values) = true ∧
          endsWithFinal (value :: values) = true ∧ (p.ended = false → p.stdin = []) := by
        rcases hreply with ⟨hnil, -⟩ | hanswer
        · cases hnil
        · exact hanswer
      have hnext := isAnswer_cons hanswer hends
      split_ifs at hstep with hmore
      · cases hstep
        rw [if_pos (by simpa using hmore)] at hnext
        exact ⟨h.advance hcall hin rfl rfl rfl
          (.waiting hstage ⟨htoSelf, ⟨values, hrest, .inr ⟨hnext.1, hnext.2, hstdin⟩⟩, hdrained⟩),
          by simp⟩
      · cases hstep
        rw [if_neg (by simpa using hmore)] at hnext
        rw [hnext, List.map_nil, List.append_eq_nil_iff, List.append_eq_nil_iff] at hrest
        obtain ⟨⟨hempty, hheld⟩, hstdout⟩ := hrest
        have hholding : p.holding = none := by
          rw [heldReplies, List.map_eq_nil_iff] at hheld
          exact Option.toList_eq_nil_iff.mp hheld
        refine ⟨h.advance hcall hin rfl rfl rfl (.leaving _ rfl hempty ⟨hstdout, hholding, hstdin⟩ ?_), by simp⟩
        intro reply heq
        cases heq
        rfl
  · cases hstep

private theorem Orderly.close {status : String} (h : Orderly p) (hcall : p.calls c = some call)
    (hstep : p.close c call status = some (next, out)) : Orderly next ∧ ∀ o ∈ out, o.Answered := by
  rw [ControlPlane.close] at hstep
  split at hstep
  · next hstage =>
    split_ifs at hstep with hclosed
    cases hstep
    obtain ⟨hin, ha, hslot⟩ := h.awaiting hcall hstage
    -- the sender is gone only when the daemon's output has ended
    have hended : p.ended = true := by
      cases hend : p.ended with
      | true => rfl
      | false => exact absurd (hslot hend) hclosed.2.1
    obtain ⟨hstdout, hholding⟩ := ha.drained hended
    refine ⟨h.advance hcall hin rfl rfl rfl (.leaving _ rfl hclosed.1 ⟨hstdout, hholding, fun hno => ?_⟩ ?_), by simp⟩
    · have hno' : p.ended = false := hno
      rw [hended] at hno'
      cases hno'
    · intro reply heq
      cases heq
  · cases hstep

/-- The call in the slot leaves it. -/
private theorem Orderly.vacate {new : ControlCall} {p' : ControlPlane} (h : Orderly p) (hcall : p.calls c = some call)
    (hin : call.stage.inProgress = true) (hcalls : p'.calls = (p.setCall c new).calls) (hquiet : Quiet p')
    (hnew : new.stage.inProgress = false) (hvalidating : ∀ reply, new.stage = .validating reply → reply.asked = c)
    (hrecording : ∀ reply epoch eligible, new.stage ≠ .recording reply epoch eligible) : Orderly p' := by
  obtain ⟨-, -, hsole⟩ := h.serving hcall hin
  refine ⟨fun c' call' hc' reply hstage => ?_, fun c' call' hc' reply epoch eligible hstage => ?_,
    .inl ⟨hquiet, fun c' call' hc' => ?_⟩⟩
  · rw [hcalls] at hc'
    rcases setCall_calls hc' with ⟨rfl, rfl⟩ | ⟨-, hold⟩
    · exact hvalidating reply hstage
    · exact h.validating c' call' hold reply hstage
  · rw [hcalls] at hc'
    rcases setCall_calls hc' with ⟨rfl, rfl⟩ | ⟨-, hold⟩
    · exact absurd hstage (hrecording reply epoch eligible)
    · exact h.recording c' call' hold reply epoch eligible hstage
  · rw [hcalls] at hc'
    rcases setCall_calls hc' with ⟨rfl, rfl⟩ | ⟨hne, hold⟩
    · exact hnew
    · exact Bool.eq_false_iff.mpr fun hin' => hne (hsole c' call' hold hin')

private theorem Orderly.leave (h : Orderly p) (hcall : p.calls c = some call)
    (hstep : p.leave c call = some (next, out)) : Orderly next ∧ ∀ o ∈ out, o.Answered := by
  rw [ControlPlane.leave] at hstep
  split at hstep
  · next outcome hstage =>
    have hin : call.stage.inProgress = true := by rw [hstage]; rfl
    obtain ⟨hqueue, hq, hasked⟩ : call.queue = [] ∧ Quiet p ∧ ∀ reply, outcome = .ok reply → reply.asked = c := by
      obtain ⟨hserving, -, -⟩ := h.serving hcall hin
      cases hserving with
      | entered hother => rw [hstage] at hother; cases hother
      | waiting hother => rw [hstage] at hother; cases hother
      | leaving outcome' hother hqueue hq hasked =>
        rw [hstage] at hother
        cases hother
        exact ⟨hqueue, hq, hasked⟩
    have hquiet : ∀ {calls : ℕ → Option ControlCall} {control : Option ℕ} {epoch : Option UInt64} {eligible : Option Bool},
        Quiet ⟨calls, control, p.stdin, p.stdout, p.holding, epoch, eligible, p.ended⟩ :=
      ⟨hq.stdout, hq.holding, hq.stdin⟩
    rw [hqueue] at hstep
    dsimp only at hstep
    split at hstep
    · cases hstep
      exact ⟨h.vacate hcall hin rfl hquiet rfl (by simp) (by simp), by simp [ControlOutput.Answered]⟩
    · next reply =>
      have hreply := hasked reply rfl
      split at hstep
      · cases hstep
        refine ⟨h.vacate hcall hin rfl hquiet rfl (fun reply' heq => ?_) (by simp), by simp⟩
        cases heq
        exact hreply
      · cases hstep
        refine ⟨h.vacate hcall hin rfl hquiet rfl (by simp) (by simp), fun o ho => ?_⟩
        rw [List.map_nil, List.nil_append, List.mem_singleton] at ho
        subst ho
        intro reply' heq
        cases heq
        exact hreply
  · cases hstep

private theorem Orderly.validate (h : Orderly p) (hcall : p.calls c = some call)
    (hstep : p.validate c call = some (next, out)) : Orderly next ∧ ∀ o ∈ out, o.Answered := by
  rw [ControlPlane.validate] at hstep
  split at hstep
  · next reply attemptId hstage _ =>
    have hreply := h.validating c call hcall reply hstage
    have hout : call.stage.inProgress = false := by rw [hstage]; rfl
    split at hstep
    · cases hstep
      refine ⟨h.bystander hcall hout rfl rfl rfl rfl rfl rfl rfl (by simp) fun reply' epoch' eligible' heq => ?_, by simp⟩
      cases heq
      exact hreply
    · cases hstep
      refine ⟨h.bystander hcall hout rfl rfl rfl rfl rfl rfl rfl (by simp) (by simp), fun o ho => ?_⟩
      cases List.mem_singleton.mp ho
      intro reply' heq
      cases heq
      exact hreply
  · cases hstep

private theorem Orderly.record (h : Orderly p) (hcall : p.calls c = some call)
    (hstep : p.record c call = some (next, out)) : Orderly next ∧ ∀ o ∈ out, o.Answered := by
  rw [ControlPlane.record] at hstep
  split at hstep
  · next reply epoch eligible hstage =>
    have hreply := h.recording c call hcall reply epoch eligible hstage
    have hout : call.stage.inProgress = false := by rw [hstage]; rfl
    have hreturned : ∀ result, (ControlOutput.returned c (some reply) result).Answered := by
      intro result reply' heq
      cases heq
      exact hreply
    dsimp only at hstep
    split at hstep
    · cases hstep
      exact ⟨h.bystander hcall hout rfl rfl rfl rfl rfl rfl rfl (by simp) (by simp), by simpa using hreturned _⟩
    · cases hstep
      exact ⟨h.bystander hcall hout rfl rfl rfl rfl rfl rfl rfl (by simp) (by simp),
        by simpa [ControlOutput.Answered] using hreturned (.ok reply.value)⟩
  · cases hstep

/-- Traffic on the wire is the waiting call's. -/
private theorem Orderly.traffic (h : Orderly p) (hbusy : ¬ Quiet p) :
    ∃ c call, p.calls c = some call ∧ call.stage = .waiting ∧ Awaiting p c call ∧ (p.ended = false → p.control = some c) := by
  rcases h.served with ⟨hq, -⟩ | ⟨c, call, hcall, hserving, hslot, -⟩
  · exact absurd hq hbusy
  · cases hserving with
    | entered _ _ hq => exact absurd hq hbusy
    | leaving _ _ _ hq => exact absurd hq hbusy
    | waiting hstage ha => exact ⟨c, call, hcall, hstage, ha, hslot⟩

/-- A step of the wire that leaves the calls alone. -/
private theorem Orderly.wire {p' : ControlPlane} (h : Orderly p) (hcall : p.calls c = some call)
    (hstage : call.stage = .waiting) (hcalls : p'.calls = p.calls) (hcontrol : p'.control = p.control)
    (hended : p'.ended = p.ended) (ha : Awaiting p' c call) : Orderly p' := by
  have hin : call.stage.inProgress = true := by rw [hstage]; rfl
  refine h.advance hcall hin ?_ hcontrol hended (.waiting hstage ha)
  rw [hcalls]
  exact (Function.update_eq_self_iff.mpr hcall.symm).symm

private theorem Orderly.answer {values : List Value} (h : Orderly p) (hguard : endsWithFinal values = true)
    (hstep : p.answer values = some (next, out)) : Orderly next ∧ ∀ o ∈ out, o.Answered := by
  rw [ControlPlane.answer] at hstep
  split at hstep
  · cases hstep
  · next c' request rest hstdin =>
    split_ifs at hstep with hanswer
    cases hstep
    simp only [Bool.or_eq_true, Bool.not_eq_true', not_or, Bool.not_eq_true, Bool.not_eq_false] at hanswer
    obtain ⟨hended, hanswer⟩ := hanswer
    have hbusy : ¬ Quiet p := fun hq => by rw [hq.stdin hended] at hstdin; cases hstdin
    obtain ⟨c, call, hcall, hstage, ⟨htoSelf, ⟨old, hlines, hreply⟩, hdrained⟩, -⟩ := h.traffic hbusy
    rcases hreply with ⟨rfl, hask⟩ | ⟨-, -, hask⟩
    · rw [hask hended] at hstdin
      cases hstdin
      refine ⟨h.wire hcall hstage rfl rfl rfl
        ⟨htoSelf, ⟨values, ?_, .inr ⟨hanswer, hguard, fun _ => rfl⟩⟩, fun hno => ?_⟩, by simp⟩
      · change call.queue ++ p.heldReplies ++ (p.stdout ++ _) = _
        rw [← List.append_assoc, hlines]
        rfl
      · have hno' : p.ended = true := hno
        rw [hended] at hno'
        cases hno'
    · rw [hask hended] at hstdin
      cases hstdin

private theorem Orderly.readLine (h : Orderly p) (hstep : p.readLine = some (next, out)) :
    Orderly next ∧ ∀ o ∈ out, o.Answered := by
  rw [ControlPlane.readLine] at hstep
  split at hstep
  · next reply rest hholding hstdout =>
    have hbusy : ¬ Quiet p := fun hq => by rw [hq.stdout] at hstdout; cases hstdout
    obtain ⟨c, call, hcall, hstage, ⟨-, ⟨values, hlines, hreply⟩, hdrained⟩, hslot⟩ := h.traffic hbusy
    have hended : p.ended = false := by
      cases hend : p.ended with
      | false => rfl
      | true =>
        rw [(hdrained hend).1] at hstdout
        cases hstdout
    rw [hslot hended] at hstep
    cases hstep
    refine ⟨h.wire hcall hstage rfl (hslot hended).symm rfl
      ⟨fun waiter reply' hheld => ?_, ⟨values, ?_, hreply⟩, fun hno => ?_⟩, by simp⟩
    · cases hheld
      rfl
    · rw [heldReplies, hholding, hstdout] at hlines
      simpa [heldReplies] using hlines
    · have hno' : p.ended = true := hno
      rw [hended] at hno'
      cases hno'
  · cases hstep

private theorem Orderly.deliver (h : Orderly p) (hstep : p.deliver = some (next, out)) :
    Orderly next ∧ ∀ o ∈ out, o.Answered := by
  rw [ControlPlane.deliver] at hstep
  split at hstep
  · cases hstep
  · next waiter reply hholding =>
    have hbusy : ¬ Quiet p := fun hq => by rw [hq.holding] at hholding; cases hholding
    obtain ⟨c, call, hcall, hstage, ⟨htoSelf, ⟨values, hlines, hreply⟩, hdrained⟩, -⟩ := h.traffic hbusy
    have hin : call.stage.inProgress = true := by rw [hstage]; rfl
    obtain rfl := htoSelf waiter reply hholding
    rw [heldReplies, hholding] at hlines
    have hasked : reply.asked = waiter := by
      have hmem : reply ∈ values.map fun value => Reply.mk waiter value := by
        rw [← hlines]
        simp
      obtain ⟨value, -, rfl⟩ := List.mem_map.mp hmem
      rfl
    rw [hcall] at hstep
    dsimp only at hstep
    rw [if_pos hin] at hstep
    cases hstep
    refine ⟨h.advance hcall hin rfl rfl rfl
      (.waiting hstage ⟨fun waiter' reply' hheld => ?_, ⟨values, ?_, hreply⟩, fun hend => ?_⟩), ?_⟩
    · cases hheld
    · simpa [heldReplies, setCall] using hlines
    · exact ⟨(hdrained hend).1, rfl⟩
    · simpa [ControlOutput.Answered] using hasked

private theorem Orderly.eof (h : Orderly p) (hstep : p.eof = some (next, out)) :
    Orderly next ∧ ∀ o ∈ out, o.Answered := by
  rw [ControlPlane.eof] at hstep
  split_ifs at hstep with hrest
  cases hstep
  simp only [Bool.or_eq_true, Bool.not_eq_true', not_or, Bool.not_eq_true, Bool.not_eq_false, Option.isSome_eq_false_iff,
    Option.isNone_iff_eq_none, List.isEmpty_iff] at hrest
  obtain ⟨⟨-, hholding⟩, hstdout⟩ := hrest
  have hquiet : Quiet { p with control := none, ended := true } := ⟨hstdout, hholding, fun hno => by cases hno⟩
  refine ⟨⟨h.validating, h.recording, ?_⟩, by simp⟩
  rcases h.served with ⟨-, hidle⟩ | ⟨c, call, hcall, hserving, -, hsole⟩
  · exact .inl ⟨hquiet, hidle⟩
  · refine .inr ⟨c, call, hcall, ?_, by simp, hsole⟩
    cases hserving with
    | entered hstage hqueue _ => exact .entered hstage hqueue hquiet
    | leaving outcome hstage hqueue _ hasked => exact .leaving outcome hstage hqueue hquiet hasked
    | waiting hstage ha =>
      obtain ⟨htoSelf, ⟨values, hlines, hreply⟩, -⟩ := ha
      refine .waiting hstage ⟨htoSelf, ⟨values, hlines, ?_⟩, fun _ => ⟨hstdout, hholding⟩⟩
      rcases hreply with ⟨hnil, -⟩ | ⟨hanswer, hends, -⟩
      · exact .inl ⟨hnil, fun hno => by cases hno⟩
      · exact .inr ⟨hanswer, hends, fun hno => by cases hno⟩

/-- Every step of a run of exclusive calls keeps the order and answers who asked. -/
theorem Orderly.step {label : ControlLabel} (h : Orderly p) (hguard : Exclusive p label)
    (hstep : p.step label = some (next, out)) : Orderly next ∧ ∀ o ∈ out, o.Answered := by
  cases label with
  | enter c request => exact h.enter hguard hstep
  | answer values => exact h.answer hguard hstep
  | line => exact h.readLine hstep
  | deliver => exact h.deliver hstep
  | eof => exact h.eof hstep
  | send c result =>
    obtain ⟨call, hcall, hstep⟩ := Option.bind_eq_some_iff.mp hstep
    exact h.send hcall hstep
  | receive c =>
    obtain ⟨call, hcall, hstep⟩ := Option.bind_eq_some_iff.mp hstep
    exact h.receive hcall hstep
  | close c status =>
    obtain ⟨call, hcall, hstep⟩ := Option.bind_eq_some_iff.mp hstep
    exact h.close hcall hstep
  | leave c =>
    obtain ⟨call, hcall, hstep⟩ := Option.bind_eq_some_iff.mp hstep
    exact h.leave hcall hstep
  | validate c =>
    obtain ⟨call, hcall, hstep⟩ := Option.bind_eq_some_iff.mp hstep
    exact h.validate hcall hstep
  | record c =>
    obtain ⟨call, hcall, hstep⟩ := Option.bind_eq_some_iff.mp hstep
    exact h.record hcall hstep

/-- The epochs that resets have accepted, in order. -/
def acceptedEpochs (outputs : List ControlOutput) : List UInt64 :=
  outputs.filterMap fun
    | .accepted epoch => some epoch
    | _ => none

/-- The accepted epochs increase, and the last one recorded bounds them. -/
structure Increasing (outputs : List ControlOutput) (p : ControlPlane) : Prop where
  sorted : (acceptedEpochs outputs).Pairwise (· < ·)
  bounded : ∀ epoch ∈ acceptedEpochs outputs, ∃ last, p.lastStateEpoch = some last ∧ epoch ≤ last

private theorem Increasing.keep {outputs : List ControlOutput} (h : Increasing outputs p)
    (hnone : acceptedEpochs out = []) (hlast : next.lastStateEpoch = p.lastStateEpoch) :
    Increasing (outputs ++ out) next := by
  have heq : acceptedEpochs (outputs ++ out) = acceptedEpochs outputs := by
    rw [acceptedEpochs, List.filterMap_append]
    exact (congrArg _ hnone).trans (List.append_nil _)
  exact ⟨heq ▸ h.sorted, by rw [heq, hlast]; exact h.bounded⟩

private theorem acceptedEpochs_dropped (queue : List Reply) (rest : List ControlOutput) :
    acceptedEpochs (queue.map .dropped ++ rest) = acceptedEpochs rest := by
  have hnone : acceptedEpochs (queue.map .dropped) = [] := by
    rw [acceptedEpochs, List.filterMap_map]
    exact List.filterMap_eq_nil_iff.mpr fun _ _ => rfl
  rw [acceptedEpochs, List.filterMap_append]
  exact congrArg (· ++ acceptedEpochs rest) hnone

private theorem leave_epochs (hstep : p.leave c call = some (next, out)) :
    acceptedEpochs out = [] ∧ next.lastStateEpoch = p.lastStateEpoch := by
  rw [ControlPlane.leave] at hstep
  split at hstep
  · dsimp only at hstep
    split at hstep
    · cases hstep
      exact ⟨acceptedEpochs_dropped _ _, rfl⟩
    · split at hstep
      · cases hstep
        refine ⟨?_, rfl⟩
        rw [← List.append_nil (List.map _ _)]
        exact acceptedEpochs_dropped _ _
      · cases hstep
        exact ⟨acceptedEpochs_dropped _ _, rfl⟩
  · cases hstep

private theorem record_epochs (hstep : p.record c call = some (next, out)) :
    (acceptedEpochs out = [] ∧ next.lastStateEpoch = p.lastStateEpoch) ∨
      ∃ epoch, acceptedEpochs out = [epoch] ∧ next.lastStateEpoch = some epoch ∧
        ∀ last, p.lastStateEpoch = some last → last < epoch := by
  rw [ControlPlane.record] at hstep
  split at hstep
  · next reply epoch eligible _ =>
    dsimp only at hstep
    split at hstep
    · cases hstep
      exact .inl ⟨rfl, rfl⟩
    · next hcheck =>
      cases hstep
      refine .inr ⟨epoch, rfl, rfl, fun last hlast => ?_⟩
      rw [hlast, checkEpoch] at hcheck
      split_ifs at hcheck with hle
      exact UInt64.not_le.mp hle
  · cases hstep

/-- Only a recorded epoch is accepted, and it is above the last one. -/
private theorem epoch_cases {label : ControlLabel} (hstep : p.step label = some (next, out)) :
    (acceptedEpochs out = [] ∧ next.lastStateEpoch = p.lastStateEpoch) ∨
      ∃ epoch, acceptedEpochs out = [epoch] ∧ next.lastStateEpoch = some epoch ∧
        ∀ last, p.lastStateEpoch = some last → last < epoch := by
  cases label with
  | enter c request =>
    simp only [step, ControlPlane.enter] at hstep
    split at hstep <;> cases hstep
    exact .inl ⟨rfl, rfl⟩
  | send c result =>
    obtain ⟨call, -, hstep⟩ := Option.bind_eq_some_iff.mp hstep
    rw [ControlPlane.send.eq_def] at hstep
    split at hstep <;> cases hstep <;> exact .inl ⟨rfl, rfl⟩
  | receive c =>
    obtain ⟨call, -, hstep⟩ := Option.bind_eq_some_iff.mp hstep
    rw [ControlPlane.receive] at hstep
    split at hstep
    · split_ifs at hstep <;> cases hstep <;> exact .inl ⟨rfl, rfl⟩
    · cases hstep
  | close c status =>
    obtain ⟨call, -, hstep⟩ := Option.bind_eq_some_iff.mp hstep
    rw [ControlPlane.close] at hstep
    split at hstep
    · split_ifs at hstep
      cases hstep
      exact .inl ⟨rfl, rfl⟩
    · cases hstep
  | leave c =>
    obtain ⟨call, -, hstep⟩ := Option.bind_eq_some_iff.mp hstep
    exact .inl (leave_epochs hstep)
  | validate c =>
    obtain ⟨call, -, hstep⟩ := Option.bind_eq_some_iff.mp hstep
    rw [ControlPlane.validate] at hstep
    split at hstep
    · split at hstep <;> cases hstep <;> exact .inl ⟨rfl, rfl⟩
    · cases hstep
  | record c =>
    obtain ⟨call, -, hstep⟩ := Option.bind_eq_some_iff.mp hstep
    exact record_epochs hstep
  | answer values =>
    simp only [step, ControlPlane.answer] at hstep
    split at hstep
    · cases hstep
    · split_ifs at hstep
      cases hstep
      exact .inl ⟨rfl, rfl⟩
  | line =>
    simp only [step, ControlPlane.readLine] at hstep
    split at hstep
    · split at hstep <;> cases hstep <;> exact .inl ⟨rfl, rfl⟩
    · cases hstep
  | deliver =>
    simp only [step, ControlPlane.deliver] at hstep
    split at hstep
    · cases hstep
    · split at hstep
      · split_ifs at hstep <;> cases hstep <;> exact .inl ⟨rfl, rfl⟩
      · cases hstep
        exact .inl ⟨rfl, rfl⟩
  | eof =>
    simp only [step, ControlPlane.eof] at hstep
    split_ifs at hstep
    cases hstep
    exact .inl ⟨rfl, rfl⟩

private theorem Increasing.step {outputs : List ControlOutput} {label : ControlLabel} (h : Increasing outputs p)
    (hstep : p.step label = some (next, out)) : Increasing (outputs ++ out) next := by
  rcases epoch_cases hstep with ⟨hnone, hlast⟩ | ⟨epoch, hone, hlast, habove⟩
  · exact h.keep hnone hlast
  · have heq : acceptedEpochs (outputs ++ out) = acceptedEpochs outputs ++ [epoch] := by
      rw [acceptedEpochs, List.filterMap_append]
      exact congrArg _ hone
    have hbelow : ∀ earlier ∈ acceptedEpochs outputs, earlier < epoch := by
      intro earlier hmem
      obtain ⟨last, hprev, hle⟩ := h.bounded earlier hmem
      exact UInt64.lt_of_le_of_lt hle (habove last hprev)
    refine ⟨?_, fun earlier hmem => ⟨epoch, hlast, ?_⟩⟩
    · rw [heq, List.pairwise_append]
      refine ⟨h.sorted, List.pairwise_singleton _ _, fun earlier hmem later hlater => ?_⟩
      exact List.mem_singleton.mp hlater ▸ hbelow earlier hmem
    · rw [heq] at hmem
      rcases List.mem_append.mp hmem with hold | hnew
      · exact UInt64.le_of_lt (hbelow earlier hold)
      · exact List.mem_singleton.mp hnew ▸ UInt64.le_refl _

/-- When control calls take the slot one at a time and no notice follows a `loaded`, every line of the daemon is
delivered to the call whose message it answers and none is lost, every call that returns an answer returns its own, and the
epochs accepted by resets strictly increase. -/
theorem exclusive_calls_answered {labels : List ControlLabel} {outputs : List ControlOutput}
    (h : Machine.Runs step Exclusive spawn labels outputs p) :
    (∀ o ∈ outputs, o.Answered) ∧ (acceptedEpochs outputs).Pairwise (· < ·) := by
  have hinv : (Orderly p ∧ ∀ o ∈ outputs, o.Answered) ∧ Increasing outputs p := by
    refine h.invariant (P := fun outputs p => (Orderly p ∧ ∀ o ∈ outputs, o.Answered) ∧ Increasing outputs p)
      ⟨⟨orderly_spawn, by simp⟩, ⟨.nil, by simp [acceptedEpochs]⟩⟩ ?_
    rintro outputs p label next emitted ⟨⟨horderly, hanswered⟩, hincreasing⟩ hguard hstep
    obtain ⟨horderly', hanswered'⟩ := horderly.step hguard hstep
    refine ⟨⟨horderly', fun o ho => ?_⟩, hincreasing.step hstep⟩
    rcases List.mem_append.mp ho with hold | hnew
    · exact hanswered o hold
    · exact hanswered' o hnew
  exact ⟨hinv.1.2, hinv.2.sorted⟩

section Ping

def pong : Value := .object [("type", .string "pong")]

/-- One ping, from its entry to its return. -/
def pingLabels : List ControlLabel :=
  [.enter 0 .ping, .send 0 (.ok ()), .answer [pong], .line, .deliver, .receive 0, .leave 0]

theorem ping_answered : ∃ p, Machine.Runs step Exclusive spawn pingLabels
      [.delivered 0 ⟨0, pong⟩, .returned 0 (some ⟨0, pong⟩) (.ok pong)] p ∧
    ∀ o ∈ [ControlOutput.delivered 0 ⟨0, pong⟩, .returned 0 (some ⟨0, pong⟩) (.ok pong)], o.Answered := by
  have hlater : ∀ p : ControlPlane, ∀ label ∈ pingLabels.tail, p.Exclusive label := by
    intro p label hlabel
    simp only [pingLabels, List.tail_cons, List.mem_cons, List.not_mem_nil, or_false] at hlabel
    rcases hlabel with rfl | rfl | rfl | rfl | rfl | rfl
    · trivial
    · exact rfl
    all_goals trivial
  have hallowed : Machine.Runs.Allowed step Exclusive spawn pingLabels :=
    ⟨fun _ _ h => (by cases h), fun next _ _ => Machine.Runs.allowed_of_forall hlater next⟩
  obtain ⟨p, hrun⟩ := Machine.Runs.of_follow hallowed rfl
  exact ⟨p, hrun, (exclusive_calls_answered hrun).1⟩

/-- Two pings that overlap: the second takes the slot before the first is answered. -/
def overlappingLabels : List ControlLabel :=
  [.enter 0 .ping, .enter 1 .ping, .send 0 (.ok ()), .send 1 (.ok ()), .answer [pong], .line, .deliver, .receive 1,
    .leave 1]

/-- The second ping returns the answer to the first. -/
theorem overlapping_pings_cross : ¬ ∀ labels outputs p,
    Machine.Runs step (fun _ _ => True) spawn labels outputs p → ∀ o ∈ outputs, o.Answered := by
  intro h
  have hallowed : Machine.Runs.Allowed step (fun _ _ => True) spawn overlappingLabels :=
    Machine.Runs.allowed_of_forall (fun _ _ _ => trivial) spawn
  have hfollow : (Machine.Runs.follow step spawn overlappingLabels).map Prod.fst =
      some [.delivered 1 ⟨0, pong⟩, .returned 1 (some ⟨0, pong⟩) (.ok pong)] := rfl
  obtain ⟨p, hrun⟩ := Machine.Runs.of_follow hallowed hfollow
  have hanswered : ∀ reply, some (Reply.mk 0 pong) = some reply → reply.asked = 1 :=
    h overlappingLabels _ p hrun _ (List.mem_cons_of_mem _ List.mem_cons_self)
  exact absurd (hanswered ⟨0, pong⟩ rfl) Nat.zero_ne_one

end Ping

end ControlPlane
end Hipscope.Client
