import Hipscope.Redline.Lifecycle

/-! No call on a retained graph touches signals or packets that a rung batch may
still be using. -/
namespace Hipscope.Redline.Aql.Lifecycle
open Machine
variable {σ κ : Type} {q : QueueSet} {g : Graph σ κ} {trace : List (Event σ κ)}

/-- What the trace so far has shown: which lanes were rung and not yet proven
quiescent, which ever stopped, and what happened since the last in-flight mark. -/
structure Watch where
  unproven : ℕ → Bool
  inactivated : ℕ → Bool
  rung : Bool
  completed : Bool

namespace Watch

def start : Watch := ⟨fun _ => false, fun _ => false, false, false⟩

def track (w : Watch) : Event σ κ → Watch
  | .reset _ | .publish _ _ | .clear => w
  | .ring lane _ => { w with unproven := Function.update w.unproven lane true, rung := true }
  | .completed => { w with unproven := fun _ => false, completed := true }
  | .inactivated lane =>
    { w with
      unproven := Function.update w.unproven lane false
      inactivated := Function.update w.inactivated lane true }
  | .mark => { w with rung := false, completed := false }

/-- Signals and packets are touched only when nothing rung is unproven. The mark
is cleared by completion, by inactivating every lane, or before any doorbell. -/
def Allows (lanes : ℕ) (w : Watch) : Event σ κ → Prop
  | .reset _ | .publish _ _ => ∀ lane, w.unproven lane = false
  | .clear => w.completed ∨ (∀ lane < lanes, w.inactivated lane) ∨ w.rung = false
  | _ => True

def monitor (lanes : ℕ) : Monitor Watch (Event σ κ) := ⟨track, Allows lanes⟩

def quiet (w : Watch) : Prop := ∀ lane, w.unproven lane = false

end Watch

variable (lanes : ℕ) {w : Watch}

/-- Events that only touch signals and packets change nothing that is watched. -/
private theorem safe_of_quiet (h : w.quiet)
    (ht : ∀ event ∈ trace, (∃ signal, event = .reset signal) ∨ ∃ lane packets, event = .publish lane packets) :
    (Watch.monitor lanes).Safe w trace ∧ (Watch.monitor lanes).after w trace = w := by
  apply Monitor.keeps (P := fun v => v = w) _ rfl
  rintro v event hmem rfl
  obtain ⟨signal, rfl⟩ | ⟨lane, packets, rfl⟩ := ht event hmem <;> exact ⟨h, rfl⟩

/-- A queue that is not active was seen to stop. -/
def QueueSet.Stopped (q : QueueSet) (w : Watch) : Prop :=
  ∀ lane, q.active lane = false → w.unproven lane = false ∧ w.inactivated lane

private theorem after_inactivated (stopped : List ℕ) :
    (Watch.monitor lanes).after w (stopped.map (.inactivated (σ := σ) (κ := κ))) =
      { w with
        unproven := fun lane => w.unproven lane && !stopped.contains lane
        inactivated := fun lane => w.inactivated lane || stopped.contains lane } := by
  induction stopped generalizing w with
  | nil => simp [Monitor.after]
  | cons first rest ih =>
    rw [List.map_cons, Monitor.after, List.foldl_cons]
    refine ih.trans ?_
    have hcase (lane : ℕ) : lane = first ∨ lane ≠ first := em _
    simp only [Watch.monitor, Watch.track, Watch.mk.injEq, and_true]
    constructor <;> funext lane <;> rcases hcase lane with rfl | hne <;> simp [*]

private theorem safe_inactivated (stopped : List ℕ) :
    (Watch.monitor lanes).Safe w (stopped.map (.inactivated (σ := σ) (κ := κ))) := by
  induction stopped generalizing w with
  | nil => trivial
  | cons first rest ih => exact ⟨trivial, ih⟩

/-- Inactivating is always safe, can only prove more lanes quiescent, and proves
all of them when it succeeds. -/
private theorem inactivateAll_spec (ok : ℕ → Bool) (h : q.Stopped w) :
    let r := q.inactivateAll (σ := σ) (κ := κ) ok
    let v := (Watch.monitor lanes).after w r.2.1
    (Watch.monitor lanes).Safe w r.2.1 ∧ r.1.Stopped v ∧ r.1.lanes = q.lanes ∧
      (∀ lane, r.1.prepared lane = none) ∧ (∀ lane, v.unproven lane → w.unproven lane) ∧
      v.rung = w.rung ∧ v.completed = w.completed ∧
      (r.2.2 = .ok () → ∀ lane < q.lanes, v.unproven lane = false ∧ v.inactivated lane) := by
  simp only [QueueSet.inactivateAll, after_inactivated]
  refine ⟨safe_inactivated lanes _, ?_, trivial, fun _ => trivial, ?_, trivial, trivial, ?_⟩
  · intro lane hactive
    cases hwas : q.active lane with
    | false => simp [h lane hwas]
    | true => simp_all
  · intro lane hunproven
    exact (Bool.and_eq_true_iff.mp hunproven).1
  · intro hok lane hlane
    cases hwas : q.active lane with
    | false => simp [h lane hwas]
    | true =>
      have hall : ((List.range q.lanes).filter fun lane => q.active lane).all ok := by
        by_contra hne
        rw [if_neg hne] at hok
        cases hok
      have hlaneOk : ok lane := List.all_eq_true.mp hall lane (by simp [hlane, hwas])
      simp [hlane, hwas, hlaneOk]

private theorem inactivateAfterError_eq (ok : ℕ → Bool) (operation : RuntimeError) :
    (q.inactivateAfterError (σ := σ) (κ := κ) ok operation).1 = (q.inactivateAll (σ := σ) (κ := κ) ok).1 ∧
      (q.inactivateAfterError (σ := σ) (κ := κ) ok operation).2.1 =
        (q.inactivateAll (σ := σ) (κ := κ) ok).2.1 := by
  rw [QueueSet.inactivateAfterError]
  rcases q.inactivateAll (σ := σ) (κ := κ) ok with ⟨q', events, (error | _)⟩ <;> exact ⟨rfl, rfl⟩

/-- Preparing touches only packets; when it succeeds every lane is active. -/
private theorem prepareLanes_spec (io : SubmitIo) (batches : ℕ → List κ) (todo : List ℕ) :
    let r := q.prepareLanes (σ := σ) io batches todo
    r.1.active = q.active ∧ r.1.lanes = q.lanes ∧
      (∀ event ∈ r.2.1, ∃ lane packets, event = .publish lane packets) ∧
      (r.2.2 = .ok () → ∀ lane ∈ todo, q.active lane) := by
  induction todo generalizing q with
  | nil => simp [QueueSet.prepareLanes]
  | cons lane rest ih =>
    rw [QueueSet.prepareLanes]
    cases hlane : q.prepareBatch (σ := σ) io lane (batches lane) with
    | error error => simp
    | ok r =>
      obtain ⟨hactive, hsame, hlanes, hevents⟩ : q.active lane ∧ r.1.active = q.active ∧
          r.1.lanes = q.lanes ∧ ∀ event ∈ r.2, ∃ lane packets, event = .publish lane packets := by
        rw [QueueSet.prepareBatch] at hlane
        split_ifs at hlane <;> cases hlane <;> simp_all
      obtain ⟨hrest, hrestLanes, hrestEvents, hall⟩ := ih (q := r.1)
      refine ⟨hrest.trans hsame, hrestLanes.trans hlanes, ?_, ?_⟩
      · intro event hmem
        rcases List.mem_append.mp hmem with hmem | hmem
        · exact hevents event hmem
        · exact hrestEvents event hmem
      · intro hok other hmem
        rcases List.mem_cons.mp hmem with rfl | hmem
        · exact hactive
        · rw [← hsame]
          exact hall hok other hmem

/-- Preparing all lanes publishes packets, and stops the queues when it fails. -/
private theorem prepareBatches_spec (io : SubmitIo) (batches : ℕ → List κ) (hw : w.quiet)
    (h : q.Stopped w) {q' : QueueSet} {events : List (Event σ κ)} {result : Except RuntimeError Unit}
    (hr : q.prepareBatches io batches = some (q', events, result)) :
    let v := (Watch.monitor lanes).after w events
    (Watch.monitor lanes).Safe w events ∧ q'.Stopped v ∧ q'.lanes = q.lanes ∧ v.quiet ∧
      (result = .ok () → v = w ∧ ∀ lane < q'.lanes, q'.active lane) ∧
      (result ≠ .ok () → ∀ lane, q'.prepared lane = none) := by
  rw [QueueSet.prepareBatches] at hr
  split_ifs at hr with hassert
  cases hfault : io.fault with
  | some lane =>
    simp only [hfault, inactivateAfterError_eq, Option.some.injEq, Prod.mk.injEq] at hr
    obtain ⟨rfl, rfl, rfl⟩ := hr
    obtain ⟨hsafe, hstopped, hlanes, hnone, hmono, -, -, -⟩ :=
      inactivateAll_spec (σ := σ) (κ := κ) lanes io.inactivate h
    refine ⟨hsafe, hstopped, hlanes, ?_, fun hok => (by cases hok), fun _ => hnone⟩
    intro lane
    exact Bool.eq_false_iff.mpr fun hun => by simpa [hw lane] using hmono lane hun
  | none =>
    obtain ⟨hactive, hlanes, hevents, hall⟩ :=
      prepareLanes_spec (σ := σ) (q := q) io batches (List.range q.lanes)
    obtain ⟨hsafe, hafter⟩ := safe_of_quiet lanes hw fun event hmem =>
      Or.inr (hevents event hmem)
    rcases hp : q.prepareLanes io batches (List.range q.lanes) with ⟨q₁, events₁, (error | _)⟩
    all_goals
      rw [hp] at hactive hlanes hevents hall hsafe hafter
      simp only [hfault, hp, inactivateAfterError_eq, Option.some.injEq, Prod.mk.injEq] at hr
      obtain ⟨rfl, rfl, rfl⟩ := hr
    · have hstopped₁ : { q₁ with prepared := fun _ => none }.Stopped w := by
        intro lane hlane
        exact h lane (hactive ▸ hlane)
      obtain ⟨hsafe', hstopped, hlanes', hnone, hmono, -, -, -⟩ :=
        inactivateAll_spec (σ := σ) (κ := κ) lanes io.inactivate hstopped₁
      rw [Monitor.after_append, Monitor.safe_append, hafter]
      refine ⟨⟨hsafe, hsafe'⟩, hstopped, hlanes'.trans hlanes, ?_, fun hok => (by cases hok), fun _ => hnone⟩
      intro lane
      exact Bool.eq_false_iff.mpr fun hun => by simpa [hw lane] using hmono lane hun
    · rw [hafter]
      refine ⟨hsafe, ?_, hlanes, hw, fun _ => ⟨rfl, ?_⟩, fun hne => absurd rfl hne⟩
      · intro lane hlane
        exact h lane (hactive ▸ hlane)
      · intro lane hlane
        rw [hactive]
        exact hall rfl lane (List.mem_range.mpr (hlanes ▸ hlane))

/-- Ringing fails before the first doorbell, or rings lanes of the set only. -/
private theorem ringPrepared_spec (io : SubmitIo) (hw : w.quiet) (h : q.Stopped w)
    (hactive : ∀ lane < q.lanes, q.active lane) :
    let r := q.ringPrepared (σ := σ) (κ := κ) io
    let v := (Watch.monitor lanes).after w r.2.1
    (Watch.monitor lanes).Safe w r.2.1 ∧ r.1.Stopped v ∧ r.1.lanes = q.lanes ∧
      (∀ lane, r.1.prepared lane = none) ∧ (∀ lane, v.unproven lane → lane < q.lanes) ∧
      (r.2.2 ≠ .ok () → v.quiet ∧ v.rung = w.rung) := by
  rw [QueueSet.ringPrepared]
  cases io.ringFault with
  | some lane =>
    have hstopped : { q with prepared := fun _ => none }.Stopped w := h
    obtain ⟨hsafe, hstopped', hlanes, hnone, hmono, hrung, -, -⟩ :=
      inactivateAll_spec (σ := σ) (κ := κ) lanes io.inactivate hstopped
    simp only [inactivateAfterError_eq]
    have hquiet (lane : ℕ) : _ = false := Bool.eq_false_iff.mpr fun hun => by
      simpa [hw lane] using hmono lane hun
    refine ⟨hsafe, hstopped', hlanes, hnone, fun lane hun => ?_, fun _ => ⟨hquiet, hrung⟩⟩
    rw [hquiet lane] at hun
    cases hun
  | none =>
    have hkeeps (v : Watch) (event : Event σ κ)
        (hmem : event ∈ (List.range q.lanes).filterMap fun lane =>
          (q.prepared lane).map fun packet => Event.ring (σ := σ) (κ := κ) lane packet)
        (hv : v.inactivated = w.inactivated ∧ ∀ lane, v.unproven lane → lane < q.lanes) :
        Watch.Allows lanes v event ∧ (v.track event).inactivated = w.inactivated ∧
          ∀ lane, (v.track event).unproven lane → lane < q.lanes := by
      obtain ⟨lane, hlane, hevent⟩ := List.mem_filterMap.mp hmem
      obtain ⟨packet, -, rfl⟩ := Option.map_eq_some_iff.mp hevent
      refine ⟨trivial, hv.1, fun other hother => ?_⟩
      by_cases heq : other = lane
      · exact heq ▸ List.mem_range.mp hlane
      · exact hv.2 other (by simpa [Watch.track, heq] using hother)
    obtain ⟨hsafe, hlast⟩ := Monitor.keeps (m := Watch.monitor lanes) hkeeps
      ⟨rfl, fun lane hun => by simp [hw lane] at hun⟩
    refine ⟨hsafe, ?_, rfl, fun _ => rfl, hlast.2, fun hne => absurd rfl hne⟩
    intro lane hinactive
    have hout : ¬ lane < q.lanes := fun hlane => by
      rw [hactive lane hlane] at hinactive
      cases hinactive
    refine ⟨Bool.eq_false_iff.mpr fun hun => hout (hlast.2 lane hun), ?_⟩
    rw [hlast.1]
    exact (h lane hinactive).2

/-- What every call leaves behind. -/
structure Graph.Kept (lanes : ℕ) (g : Graph σ κ) (w : Watch) : Prop where
  size : g.queues.lanes = lanes
  stopped : g.queues.Stopped w
  prepared : ∀ lane, g.queues.prepared lane = none
  bounded : ∀ lane, w.unproven lane → lane < lanes
  quiet : g.inFlight = false → w.quiet

variable {lanes}

/-- A step of the trace that is safe and leaves a kept graph. -/
private def Follows (lanes : ℕ) (w : Watch) (g : Graph σ κ) (events : List (Event σ κ)) : Prop :=
  (Watch.monitor lanes).Safe w events ∧ g.Kept lanes ((Watch.monitor lanes).after w events)

private theorem submit_follows (io : SubmitIo) (h : g.Kept lanes w) :
    ∃ r, g.submit io = some r ∧ Follows lanes w r.1 r.2.1 ∧ (r.1.usable → g.usable) := by
  rw [Graph.submit]
  split_ifs with hinFlight husable
  · exact ⟨_, rfl, ⟨trivial, h⟩, id⟩
  · exact ⟨_, rfl, ⟨trivial, h⟩, id⟩
  have hw : w.quiet := h.quiet (Bool.eq_false_iff.mpr hinFlight)
  obtain ⟨hresets, hafter⟩ := safe_of_quiet lanes hw
    (fun event (hmem : event ∈ g.signals.resets.map (.reset (κ := κ))) => by
      obtain ⟨signal, -, rfl⟩ := List.mem_map.mp hmem
      exact Or.inl ⟨signal, rfl⟩)
  obtain ⟨r, hr⟩ : ∃ r, g.queues.prepareBatches (σ := σ) io g.batches = some r := by
    rw [QueueSet.prepareBatches, if_neg (by simp [h.prepared])]
    cases io.fault with
    | some lane => exact ⟨_, rfl⟩
    | none => rcases g.queues.prepareLanes io g.batches _ with ⟨q', events, (error | _)⟩ <;> exact ⟨_, rfl⟩
  obtain ⟨q₁, events, result⟩ := r
  obtain ⟨hsafe, hstopped, hlanes, hquiet, hok, hnone⟩ :=
    prepareBatches_spec lanes io g.batches hw h.stopped hr
  simp only [hr]
  rcases result with error | _
  · refine ⟨_, rfl, ⟨?_, ?_⟩, fun hu => by cases hu⟩
    · rw [Monitor.safe_append, hafter]
      exact ⟨hresets, hsafe⟩
    · rw [Monitor.after_append, hafter]
      exact ⟨hlanes.trans h.size, hstopped, hnone (by simp), fun lane hun => by simp [hquiet lane] at hun,
        fun _ => hquiet⟩
  obtain ⟨hsame, hactive⟩ := hok rfl
  rw [hsame] at hstopped
  -- The mark forgets earlier doorbells and completions, not which lanes are unproven.
  obtain ⟨hring, hstopped', hlanes', hnone', hbound, hfail⟩ :=
    ringPrepared_spec (σ := σ) (κ := κ) lanes
      (w := { w with rung := false, completed := false }) io hw hstopped hactive
  have hsize : ∀ lane < q₁.lanes, lane < lanes := fun lane hlane => (hlanes.trans h.size) ▸ hlane
  have hbegin : (Watch.monitor lanes).Safe w (g.signals.resets.map .reset ++ events ++ [.mark]) ∧
      (Watch.monitor lanes).after w (g.signals.resets.map .reset ++ events ++ [.mark]) =
        { w with rung := false, completed := false } := by
    simp only [Monitor.safe_append, Monitor.after_append, hafter, hsame]
    exact ⟨⟨⟨hresets, hsafe⟩, trivial, trivial⟩, rfl⟩
  have hrings : (Watch.monitor lanes).Safe w
      (g.signals.resets.map .reset ++ events ++ [.mark] ++ (q₁.ringPrepared io).2.1) := by
    rw [Monitor.safe_append, hbegin.2]
    exact ⟨hbegin.1, hring⟩
  have hlast : (Watch.monitor lanes).after w
      (g.signals.resets.map .reset ++ events ++ [.mark] ++ (q₁.ringPrepared io).2.1) =
        (Watch.monitor lanes).after { w with rung := false, completed := false }
          (q₁.ringPrepared (σ := σ) (κ := κ) io).2.1 := by
    rw [Monitor.after_append, hbegin.2]
  rw [← hlast] at hstopped' hbound hfail
  rcases hp : q₁.ringPrepared io with ⟨q₂, rings, (error | _)⟩
  all_goals
    rw [hp] at hrings hstopped' hlanes' hnone' hbound hfail
    simp only [hp]
  · obtain ⟨hquiet', hrung⟩ := hfail (by simp)
    refine ⟨_, rfl, ⟨?_, ?_⟩, fun hu => by cases hu⟩
    · rw [Monitor.safe_append]
      exact ⟨hrings, Or.inr (Or.inr hrung), trivial⟩
    · rw [Monitor.after_append]
      exact ⟨(hlanes'.trans hlanes).trans h.size, hstopped', hnone', fun lane hun => hsize lane (hbound lane hun),
        fun _ => hquiet'⟩
  · exact ⟨_, rfl, ⟨hrings, (hlanes'.trans hlanes).trans h.size, hstopped', hnone',
      fun lane hun => hsize lane (hbound lane hun), fun hf => by cases hf⟩, id⟩

private theorem teardown_follows (inactivate : ℕ → Bool) (h : g.Kept lanes w) :
    Follows lanes w (g.teardown inactivate).1 (g.teardown inactivate).2.1 ∧
      ((g.teardown inactivate).1.usable → g.usable) := by
  obtain ⟨hsafe, hstopped, hlanes, hnone, hmono, -, -, hall⟩ :=
    inactivateAll_spec (σ := σ) (κ := κ) lanes inactivate h.stopped
  rw [Graph.teardown]
  rcases hp : g.queues.inactivateAll (σ := σ) (κ := κ) inactivate with ⟨q', events, (error | _)⟩
  all_goals
    rw [hp] at hsafe hstopped hlanes hnone hmono hall
    have hbounded : ∀ lane, ((Watch.monitor lanes).after w events).unproven lane → lane < lanes :=
      fun lane hun => h.bounded lane (hmono lane hun)
    simp only [Graph.applyQuiescenceTransition, List.append_nil]
  · exact ⟨⟨hsafe, hlanes.trans h.size, hstopped, hnone, hbounded, fun hf => by cases hf⟩, fun hu => by cases hu⟩
  · have hstop := hall rfl
    rw [h.size] at hstop
    refine ⟨⟨?_, ?_⟩, fun hu => by cases hu⟩
    · rw [Monitor.safe_append]
      exact ⟨hsafe, Or.inr (Or.inl fun lane hlane => (hstop lane hlane).2), trivial⟩
    · rw [Monitor.after_append]
      refine ⟨hlanes.trans h.size, hstopped, hnone, hbounded, fun _ lane => ?_⟩
      by_cases hlane : lane < lanes
      · exact (hstop lane hlane).1
      · exact Bool.eq_false_iff.mpr fun hun => hlane (hbounded lane hun)

private theorem wait_follows (io : WaitIo) (h : g.Kept lanes w) :
    Follows lanes w (g.waitInternal io).1 (g.waitInternal io).2.1 ∧
      ((g.waitInternal io).1.usable → g.usable) := by
  rw [Graph.waitInternal]
  split_ifs with hinFlight
  · exact ⟨⟨trivial, h⟩, id⟩
  cases io.signal with
  | some waitError =>
    have ht := teardown_follows io.inactivate h
    rcases hp : g.teardown io.inactivate with ⟨g', events, (error | _)⟩ <;> rw [hp] at ht <;> exact ht
  | none =>
    have hkept (usable : Bool) : ({ g with inFlight := false, usable } : Graph σ κ).Kept lanes
        ((Watch.monitor lanes).after w [.completed, .clear (σ := σ) (κ := κ)]) := by
      refine ⟨h.size, ?_, h.prepared, fun lane hun => (by cases hun), fun _ _ => rfl⟩
      exact fun lane hlane => ⟨rfl, (h.stopped lane hlane).2⟩
    have hsafe : (Watch.monitor lanes).Safe w [.completed, .clear (σ := σ) (κ := κ)] :=
      ⟨trivial, Or.inl rfl, trivial⟩
    simp only [Graph.applyQuiescenceTransition, Graph.readTiming]
    split
    · exact ⟨⟨hsafe, hkept false⟩, fun hu => by cases hu⟩
    · exact ⟨⟨hsafe, hkept g.usable⟩, id⟩

private theorem cancel_follows (inactivate : ℕ → Bool) (h : g.Kept lanes w) :
    Follows lanes w (g.cancelInternal inactivate).1 (g.cancelInternal inactivate).2.1 ∧
      ((g.cancelInternal inactivate).1.usable → g.usable) := by
  rw [Graph.cancelInternal]
  split_ifs with hinFlight
  · exact ⟨⟨trivial, h⟩, id⟩
  · have ht := teardown_follows inactivate h
    rcases hp : g.teardown inactivate with ⟨g', events, (error | _)⟩ <;> rw [hp] at ht <;> exact ht

/-- One call, whatever the runtime answers, is defined, safe, and never makes an
unusable graph usable. -/
theorem call_follows (action : Call) (h : g.Kept lanes w) :
    ∃ next events, call (some g) action = some (next, events) ∧
      (Watch.monitor lanes).Safe w events ∧
      ∀ g', next = some g' → g'.Kept lanes ((Watch.monitor lanes).after w events) ∧
        (g'.usable → g.usable) := by
  cases action with
  | submit io =>
    obtain ⟨r, hr, hfollows, husable⟩ := submit_follows io h
    refine ⟨some r.1, r.2.1, by rw [call, hr]; rfl, hfollows.1, ?_⟩
    rintro g' ⟨⟩
    exact ⟨hfollows.2, husable⟩
  | wait io =>
    obtain ⟨hfollows, husable⟩ := wait_follows io h
    refine ⟨_, _, rfl, hfollows.1, ?_⟩
    rintro g' ⟨⟩
    exact ⟨hfollows.2, husable⟩
  | cancel inactivate =>
    obtain ⟨hfollows, husable⟩ := cancel_follows inactivate h
    refine ⟨_, _, rfl, hfollows.1, ?_⟩
    rintro g' ⟨⟩
    exact ⟨hfollows.2, husable⟩
  | dropTicket inactivate =>
    obtain ⟨hfollows, husable⟩ := cancel_follows inactivate h
    refine ⟨_, _, rfl, hfollows.1, ?_⟩
    rintro g' ⟨⟩
    exact ⟨hfollows.2, husable⟩
  | drop inactivate last =>
    obtain ⟨hfollows, -⟩ := cancel_follows inactivate h
    refine ⟨_, _, rfl, ?_, fun g' hg => by cases hg⟩
    rw [Monitor.safe_append]
    exact ⟨hfollows.1, (inactivateAll_spec lanes last hfollows.2.stopped).1⟩

theorem create_kept (signals : Signals σ) (batches : ℕ → List κ) :
    (Graph.create lanes signals batches).Kept lanes Watch.start :=
  ⟨rfl, fun _ hlane => (by cases hlane), fun _ => rfl, fun _ hun => (by cases hun), fun _ _ => rfl⟩

/-- Every run of calls is safe and leaves a kept graph. -/
theorem runs_follow {signals : Signals σ} {batches : ℕ → List κ} {actions : List Call}
    {state : Option (Graph σ κ)}
    (h : Runs call (fun _ _ => True) (some (Graph.create lanes signals batches)) actions trace state) :
    (Watch.monitor lanes).Safe Watch.start trace ∧
      ∀ g, state = some g → g.Kept lanes ((Watch.monitor lanes).after Watch.start trace) := by
  refine h.invariant (P := fun trace state => (Watch.monitor lanes).Safe Watch.start trace ∧
    ∀ g, state = some g → g.Kept lanes ((Watch.monitor lanes).after Watch.start trace)) ?_ ?_
  · refine ⟨trivial, ?_⟩
    rintro g ⟨⟩
    exact create_kept signals batches
  · intro outputs state action next events hinv _ hstep
    cases state with
    | none => cases hstep
    | some g =>
      obtain ⟨next', events', hcall, hsafe, hkept⟩ := call_follows action (hinv.2 g rfl)
      rw [hcall] at hstep
      cases hstep
      rw [Monitor.safe_append]
      refine ⟨⟨hinv.1, hsafe⟩, fun g' hg => ?_⟩
      rw [Monitor.after_append]
      exact (hkept g' hg).1

/-- An unusable graph stays unusable in every continued run. -/
theorem runs_unusable (h : g.Kept lanes w) (hu : g.usable = false) {actions : List Call}
    {later : List (Event σ κ)} {state : Option (Graph σ κ)}
    (hr : Runs call (fun _ _ => True) (some g) actions later state) :
    ∀ g', state = some g' → g'.usable = false := by
  have hinv := hr.invariant (P := fun later state => ∀ g', state = some g' →
    g'.Kept lanes ((Watch.monitor lanes).after w later) ∧ g'.usable = false) ?_ ?_
  · exact fun g' hg => (hinv g' hg).2
  · rintro g' ⟨⟩
    exact ⟨h, hu⟩
  · intro outputs state action next events hinv _ hstep g' hg
    cases state with
    | none => cases hstep
    | some g₁ =>
      obtain ⟨hkept, hunusable⟩ := hinv g₁ rfl
      obtain ⟨next', events', hcall, -, hnext⟩ := call_follows action hkept
      rw [hcall] at hstep
      cases hstep
      obtain ⟨hkept', hmono⟩ := hnext g' hg
      rw [Monitor.after_append]
      refine ⟨hkept', Bool.eq_false_iff.mpr fun husable => ?_⟩
      rw [hmono husable] at hunusable
      cases hunusable

/-- Whatever the runtime answers: signals are reset and packets published only
when no rung lane is unproven, the mark is cleared only by completion, by
stopping every lane or before a doorbell, and an unusable graph stays so. -/
theorem graph_lifecycle_safe (lanes : ℕ) (signals : Signals σ) (batches : ℕ → List κ)
    {actions : List Call} {trace : List (Event σ κ)} {state : Option (Graph σ κ)}
    (h : Runs call (fun _ _ => True) (some (Graph.create lanes signals batches)) actions trace state) :
    (∀ before event rest, trace = before ++ event :: rest →
      Watch.Allows lanes (before.foldl Watch.track Watch.start) event) ∧
    ∀ g, state = some g → g.usable = false → ∀ more later last,
      Runs call (fun _ _ => True) (some g) more later (some last) → last.usable = false := by
  obtain ⟨hsafe, hkept⟩ := runs_follow h
  refine ⟨?_, fun g hg hu more later last hr => runs_unusable (hkept g hg) hu hr last rfl⟩
  rintro before event rest rfl
  exact hsafe.at

/-- A wait that times out, on queues that cannot be stopped, then a late completion. -/
theorem late_completion_safe :
    Watch.Allows 1 (σ := Unit) (κ := Unit)
      ([.reset (), .publish 0 [()], .mark, .ring 0 0, .completed].foldl Watch.track Watch.start) .clear :=
  have hrun : Runs call (fun _ _ => True)
      (some (Graph.create 1 (.recordedGraph [] ()) fun _ => [()]))
      ([] ++ [.submit ⟨none, fun _ => false, fun _ => true, none, fun _ => true⟩] ++
        [.wait ⟨some .signalTimeout, none, fun _ => false⟩] ++ [.wait ⟨none, none, fun _ => false⟩])
      ([] ++ [.reset (), .publish 0 [()], .mark, .ring 0 0] ++ [] ++ [.completed, .clear])
      _ := ((Runs.nil.snoc trivial rfl).snoc trivial rfl).snoc trivial rfl
  (graph_lifecycle_safe 1 (.recordedGraph [] ()) (fun _ => [()]) hrun).1
    [.reset (), .publish 0 [()], .mark, .ring 0 0, .completed] .clear [] rfl

end Hipscope.Redline.Aql.Lifecycle
