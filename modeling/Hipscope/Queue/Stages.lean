import Hipscope.Queue.Before

/-! Cells as evidence: a cell guards a tag when no execution shows the value
before the tagged commands have finished. Guards pass from cell to cell along
waits, which is how joins and fan-ins compose. -/
namespace Hipscope.Queue
variable {Q T S V : Type} [DecidableEq Q] [DecidableEq S] [DecidableEq V]
variable {L : List (Entry Q T S V)} {mem : S → V}

/-- Whenever the cell holds the value, the tag has finished. -/
def Guards (L : List (Entry Q T S V)) (mem : S → V) (c : S) (v : V) (t : T) : Prop :=
  ∀ s, Reachable L mem s → s.mem c = v → Finished L s t

omit [DecidableEq Q] [DecidableEq S] [DecidableEq V] in
private theorem finished_of_index {s : State S V} {t : T} (ht : Once L t) {i : ℕ} {a : Entry Q T S V}
    (hi : L[i]? = some a) (hat : a.tag = t) (hset : settled s i a.cmd = true) : Finished L s t := by
  intro k e he het
  obtain rfl := ht k i e a he hi het hat
  obtain rfl : e = a := by simpa [he] using hi
  exact hset

/-- The write that put a value into a cell has been issued. -/
private theorem writer_issued (hone : OneShot L) {s : State S V} (hs : Reachable L mem s) {c : S}
    {v : V} (hinit : mem c ≠ v) (hv : s.mem c = v) {k : ℕ} {x : Entry Q T S V} (hk : L[k]? = some x)
    (hx : x.cmd.write = some (c, v)) : settled s k x.cmd = true := by
  obtain ⟨j, e, he, hw, hset⟩ := hs.mem_origin hinit hv
  obtain rfl := hone.sole he hk hw hx
  obtain rfl : e = x := by simpa [he] using hk
  exact hset

/-- A job's own completion cell. -/
theorem guards_of_completion (hone : OneShot L) {t : T} (ht : Once L t) {a : Entry Q T S V}
    (ha : a ∈ L) (hat : a.tag = t) {c : S} {v : V} (haw : a.cmd.write = some (c, v))
    (hinit : mem c ≠ v) : Guards L mem c v t := by
  intro s hs hv
  obtain ⟨i, hi⟩ := List.mem_iff_getElem?.mp ha
  exact finished_of_index ht hi hat (writer_issued hone hs hinit hv hi haw)

/-- A cell written by a queue that drained the job first. -/
theorem guards_of_drain (hone : OneShot L) {t : T} (ht : Once L t) {a d x : Entry Q T S V}
    (h : [a, d, x].Sublist L) (hat : a.tag = t) (hd : d.cmd = .drain) (hda : a.queue = d.queue)
    (hdx : d.queue = x.queue) {c : S} {v : V} (hx : x.cmd.write = some (c, v))
    (hinit : mem c ≠ v) : Guards L mem c v t := by
  intro s hs hv
  obtain ⟨i, z, y, hiz, hzy, hi, hz, hy⟩ := triple_index h
  have hissued := hs.settled_issued (writer_issued hone hs hinit hv hy hx)
  exact finished_of_index ht hi hat
    (hs.drain_passed (hs.issued_prior hissued hy hzy hz hdx) hz hd hiz hi hda)

/-- A passed wait shows the guarded tag finished. -/
private theorem Guards.of_issued_await {c : S} {v : V} {t : T} (h : Guards L mem c v t)
    (hone : OneShot L) {s : State S V} (hs : Reachable L mem s) {k : ℕ} {w : Entry Q T S V}
    (hk : L[k]? = some w) (hw : w.cmd = .await c v) (hinit : mem c ≠ v) (hissued : s.issued k = true) :
    Finished L s t := by
  obtain ⟨j, d, hd, hdw, hset⟩ := hs.await_passed hinit hissued hk hw
  exact h s hs (hs.mem_of_settled hd hdw (fun i f u hf hfu => hone.sole hf hd hfu hdw) hset)

/-- A cell written after waiting for a guard guards the same tag. -/
theorem Guards.pass {c : S} {v : V} {t : T} (h : Guards L mem c v t) (hone : OneShot L)
    {w x : Entry Q T S V} (hwx : [w, x].Sublist L) (hq : w.queue = x.queue) (hw : w.cmd = .await c v)
    (hinit : mem c ≠ v) {c' : S} {v' : V} (hx : x.cmd.write = some (c', v')) (hinit' : mem c' ≠ v') :
    Guards L mem c' v' t := by
  intro s hs hv
  obtain ⟨i, j, hij, hi, hj⟩ := pair_index hwx
  have hissued := hs.settled_issued (writer_issued hone hs hinit' hv hj hx)
  exact h.of_issued_await hone hs hi hw hinit (hs.issued_prior hissued hj hij hi hq)

/-- A command behind a wait for a guard starts after the guarded tag. -/
theorem Guards.finishesBefore {c : S} {v : V} {t u : T} (h : Guards L mem c v t) (hone : OneShot L)
    (hu : Once L u) {w b : Entry Q T S V} (hwb : [w, b].Sublist L) (hq : w.queue = b.queue)
    (hw : w.cmd = .await c v) (hinit : mem c ≠ v) (hbu : b.tag = u) : FinishesBefore L mem t u := by
  intro s hs hstart
  obtain ⟨i, j, hij, hi, hj⟩ := pair_index hwb
  obtain ⟨j', f, hf, hfu, hissued⟩ := hstart
  obtain rfl := hu j' j f b hf hj hfu hbu
  exact h.of_issued_await hone hs hi hw hinit (hs.issued_prior hissued hj hij hi hq)

/-- A guard of a tag also guards what finishes before it. -/
theorem Guards.of_finishesBefore {c : S} {v : V} {t u : T} (h : Guards L mem c v u)
    (hu : ∃ e ∈ L, e.tag = u) (hb : FinishesBefore L mem t u) : Guards L mem c v t := by
  intro s hs hv
  obtain ⟨e, he, het⟩ := hu
  obtain ⟨k, hk⟩ := List.mem_iff_getElem?.mp he
  exact hb s hs ⟨k, e, hk, het, hs.settled_issued (h s hs hv k e hk het)⟩

end Hipscope.Queue

/-! Deadlock freedom of logs whose waits only refer to earlier writes. -/
namespace Hipscope.Queue
variable {Q T S V : Type}

/-- Every wait of the log, read after the given writes, has its write before it. -/
def Justified : List (S × V) → List (Entry Q T S V) → Prop
  | _, [] => True
  | seen, e :: L =>
    (∀ c v, e.cmd = .await c v → (c, v) ∈ seen) ∧ Justified (e.cmd.write.toList ++ seen) L

theorem Justified.mono {seen seen' : List (S × V)} {L : List (Entry Q T S V)}
    (hs : ∀ w ∈ seen, w ∈ seen') (h : Justified seen L) : Justified seen' L := by
  induction L generalizing seen seen' with
  | nil => trivial
  | cons e L ih =>
    refine ⟨fun c v hc => hs _ (h.1 c v hc), ih ?_ h.2⟩
    intro w hw
    rcases List.mem_append.mp hw with hw | hw
    · exact List.mem_append_left _ hw
    · exact List.mem_append_right _ (hs w hw)

theorem justified_append {seen : List (S × V)} {L M : List (Entry Q T S V)}
    (hL : Justified seen L) (hM : Justified (writes L ++ seen) M) : Justified seen (L ++ M) := by
  induction L generalizing seen with
  | nil => exact hM
  | cons e L ih =>
    refine ⟨hL.1, ih hL.2 (hM.mono ?_)⟩
    intro w hw
    simp only [writes, List.filterMap_cons] at hw ⊢
    cases he : e.cmd.write with
    | none => simpa [he] using hw
    | some x => simpa [he, or_left_comm, or_comm, or_assoc] using hw

theorem justified_of_awaits_seen {seen : List (S × V)} {L : List (Entry Q T S V)}
    (h : ∀ e ∈ L, ∀ c v, e.cmd = .await c v → (c, v) ∈ seen) : Justified seen L := by
  induction L generalizing seen with
  | nil => trivial
  | cons e L ih =>
    refine ⟨h e List.mem_cons_self, ih fun f hf c v hc => ?_⟩
    exact List.mem_append_right _ (h f (List.mem_cons_of_mem _ hf) c v hc)

theorem Justified.write_before {seen : List (S × V)} {L : List (Entry Q T S V)}
    (h : Justified seen L) {k : ℕ} {e : Entry Q T S V} {c : S} {v : V} (he : L[k]? = some e)
    (hc : e.cmd = .await c v) :
    (c, v) ∈ seen ∨ ∃ j d, j < k ∧ L[j]? = some d ∧ d.cmd.write = some (c, v) := by
  induction L generalizing seen k with
  | nil => simp at he
  | cons f L ih =>
    cases k with
    | zero =>
      obtain rfl : f = e := by simpa using he
      exact .inl (h.1 c v hc)
    | succ k =>
      rcases ih h.2 (by simpa using he) with hw | ⟨j, d, hj, hd, hdw⟩
      · rcases List.mem_append.mp hw with hw | hw
        · exact .inr ⟨0, f, by omega, rfl, by simpa [Option.mem_toList] using hw⟩
        · exact .inl hw
      · exact .inr ⟨j + 1, d, by omega, by simpa using hd, hdw⟩

section
variable [DecidableEq Q] [DecidableEq S] [DecidableEq V]
variable {L : List (Entry Q T S V)} {mem : S → V} {s : State S V}

/-- No action is possible. -/
def Stuck (L : List (Entry Q T S V)) (s : State S V) : Prop := ∀ a, exec L s a = none

private theorem complete_some {k : ℕ} {e : Entry Q T S V} (he : L[k]? = some e)
    (hi : s.issued k = true) (hf : s.fin k = false) (hs : settles L s e.queue k e.cmd = true) :
    exec L s (.complete k) ≠ none := by
  simp [exec, he, hi, hf, hs]

private theorem issue_some {k : ℕ} {e : Entry Q T S V} (he : L[k]? = some e)
    (hi : s.issued k = false) (hr : ready L s e.queue k = true)
    (ha : admits L s e.queue k e.cmd = true) : exec L s (.issue k) ≠ none := by
  simp [exec, he, hi, hr, ha]

/-- A stuck state has no unfinished issued job: the oldest one could finish. -/
theorem Stuck.jobs_finished (h : Stuck L s) (hr : Reachable L mem s) {k : ℕ} {e : Entry Q T S V}
    (he : L[k]? = some e) (ha : e.cmd.isAsync = true) (hi : s.issued k = true) :
    s.fin k = true := by
  induction k using Nat.strong_induction_on generalizing e with
  | _ k ih =>
    by_contra hf
    rw [Bool.not_eq_true] at hf
    refine complete_some he hi hf ?_ (h (.complete k))
    cases hc : e.cmd with
    | launch _ => rfl
    | release c v =>
      refine drained_iff.mpr fun j hj d hd hq hd_async => ?_
      exact ih j hj hd hd_async (hr.issued_prior hi he hj hd hq)
    | nop | drain | await _ _ | store _ _ => simp [hc, Cmd.isAsync] at ha

/-- A justified log never gets stuck before every command has taken effect. -/
theorem Stuck.all_settled (h : Stuck L s) (hr : Reachable L mem s) (hj : Justified [] L)
    (hone : OneShot L) {k : ℕ} {e : Entry Q T S V} (he : L[k]? = some e) :
    settled s k e.cmd = true := by
  have hissued : s.issued k = true := by
    induction k using Nat.strong_induction_on generalizing e with
    | _ k ih =>
      by_contra hi
      rw [Bool.not_eq_true] at hi
      have prior (j : ℕ) (hjk : j < k) (d : Entry Q T S V) (hd : L[j]? = some d) :
          s.issued j = true := ih j hjk hd
      refine issue_some he hi (ready_iff.mpr fun j hjk d hd _ => prior j hjk d hd) ?_ (h (.issue k))
      cases hc : e.cmd with
      | drain =>
        refine drained_iff.mpr fun j hjk d hd _ hd_async => ?_
        exact h.jobs_finished hr hd hd_async (prior j hjk d hd)
      | await c v =>
        rcases hj.write_before he hc with hmem | ⟨j, d, hjk, hd, hw⟩
        · simp at hmem
        · refine decide_eq_true (hr.mem_of_settled hd hw (fun i f w hf hfw => hone.sole hf hd hfw hw) ?_)
          unfold settled
          split
          · exact h.jobs_finished hr hd ‹_› (prior j hjk d hd)
          · exact prior j hjk d hd
      | nop | launch _ | release _ _ | store _ _ => rfl
  unfold settled
  split
  · exact h.jobs_finished hr he ‹_› hissued
  · exact hissued

end
end Hipscope.Queue

/-! Stages of work joined by cells: each stage writes its joins after draining
its work, and starts its work after waiting for the joins of the stage before. -/
namespace Hipscope.Queue
variable {Q T S V : Type}

/-- One stage's commands and the cells it writes at its end. -/
structure Stage (Q T S V : Type) where
  log : List (Entry Q T S V)
  joins : List (S × V)

/-- A command that starts work or ends a stage. -/
def Stage.Governs (st : Stage Q T S V) (x : Entry Q T S V) : Prop :=
  (∃ done, x.cmd = .launch done) ∨ ∃ j ∈ st.joins, x.cmd.write = some j

/-- Work and joins of a stage come after waits for the given cells. -/
def Stage.Follows (st : Stage Q T S V) (joins : List (S × V)) : Prop :=
  ∀ x ∈ st.log, st.Governs x → ∀ c v, (c, v) ∈ joins →
    ∃ w, [w, x].Sublist st.log ∧ w.queue = x.queue ∧ w.cmd = .await c v

/-- Every launch is drained before one of the joins is written. -/
def Stage.Joined (st : Stage Q T S V) : Prop :=
  ∀ a ∈ st.log, ∀ done, a.cmd = .launch done → ∃ d x c v, (c, v) ∈ st.joins ∧
    [a, d, x].Sublist st.log ∧ d.cmd = .drain ∧ a.queue = d.queue ∧ d.queue = x.queue ∧
    x.cmd.write = some (c, v)

/-- A stage that takes over from the given joins. -/
structure Stage.Links (st : Stage Q T S V) (joins : List (S × V)) : Prop where
  follows : st.Follows joins
  joined : st.Joined
  joins_ne : st.joins ≠ []
  joins_written : ∀ j ∈ st.joins, j ∈ writes st.log
  awaits_prior : ∀ e ∈ st.log, ∀ c v, e.cmd = .await c v → (c, v) ∈ joins

/-- A run of stages, the first one after the given joins. -/
def Chained : List (S × V) → List (Stage Q T S V) → Prop
  | _, [] => True
  | joins, st :: stages => st.Links joins ∧ Chained st.joins stages

/-- The joins left by a run of stages. -/
def lastJoins (joins : List (S × V)) (stages : List (Stage Q T S V)) : List (S × V) :=
  stages.foldl (fun _ st => st.joins) joins

theorem lastJoins_append (joins : List (S × V)) (A B : List (Stage Q T S V)) :
    lastJoins joins (A ++ B) = lastJoins (lastJoins joins A) B :=
  List.foldl_append

theorem chained_append {joins : List (S × V)} {A B : List (Stage Q T S V)} (hA : Chained joins A)
    (hB : Chained (lastJoins joins A) B) : Chained joins (A ++ B) := by
  induction A generalizing joins with
  | nil => exact hB
  | cons st A ih => exact ⟨hA.1, ih hA.2 hB⟩

def stageLog (stages : List (Stage Q T S V)) : List (Entry Q T S V) := stages.flatMap Stage.log

theorem mem_writes {L : List (Entry Q T S V)} {j : S × V} :
    j ∈ writes L ↔ ∃ e ∈ L, e.cmd.write = some j :=
  List.mem_filterMap

theorem Chained.justified {joins seen : List (S × V)} {stages : List (Stage Q T S V)}
    (h : Chained joins stages) (hs : ∀ j ∈ joins, j ∈ seen) : Justified seen (stageLog stages) := by
  induction stages generalizing joins seen with
  | nil => trivial
  | cons st stages ih =>
    obtain ⟨hlinks, hrest⟩ := h
    refine justified_append
      (justified_of_awaits_seen fun e he c v hc => hs _ (hlinks.awaits_prior e he c v hc)) ?_
    exact ih hrest fun j hj => List.mem_append_left _ (hlinks.joins_written j hj)

section
variable [DecidableEq Q] [DecidableEq S] [DecidableEq V]
variable {L : List (Entry Q T S V)} {mem : S → V}

/-- Joins that guard a tag hand the guard on to every later stage. -/
private theorem Chained.hand_on {joins : List (S × V)} {stages : List (Stage Q T S V)}
    (h : Chained joins stages) (hL : (stageLog stages).Sublist L) (hone : OneShot L)
    (hinit : ∀ j ∈ joins, mem j.1 ≠ j.2) (hinit' : ∀ st ∈ stages, ∀ j ∈ st.joins, mem j.1 ≠ j.2)
    {c : S} {v : V} (hc : (c, v) ∈ joins) {t : T} (hg : Guards L mem c v t) {st : Stage Q T S V}
    (hst : st ∈ stages) : (∀ j ∈ st.joins, Guards L mem j.1 j.2 t) ∧
      ∀ b ∈ st.log, (∃ done, b.cmd = .launch done) → Once L b.tag → FinishesBefore L mem t b.tag := by
  induction stages generalizing joins c v with
  | nil => simp at hst
  | cons s stages ih =>
    obtain ⟨⟨hfollows, -, hne, hwrites, -⟩, hrest⟩ := h
    have hsub : s.log.Sublist L := (List.sublist_append_left _ _).trans hL
    have hjoins (j : S × V) (hj : j ∈ s.joins) : Guards L mem j.1 j.2 t := by
      obtain ⟨x, hx, hxw⟩ := mem_writes.mp (hwrites j hj)
      obtain ⟨w, hwx, hq, hw⟩ := hfollows x hx (.inr ⟨j, hj, hxw⟩) c v hc
      exact hg.pass hone (hwx.trans hsub) hq hw (hinit _ hc) hxw
        (hinit' s List.mem_cons_self j hj)
    rcases List.mem_cons.mp hst with rfl | hst
    · refine ⟨hjoins, fun b hb hlaunch honce => ?_⟩
      obtain ⟨w, hwb, hq, hw⟩ := hfollows b hb (.inl hlaunch) c v hc
      exact hg.finishesBefore hone honce (hwb.trans hsub) hq hw (hinit _ hc) rfl
    · obtain ⟨j, hj⟩ := List.exists_mem_of_ne_nil _ hne
      exact ih hrest ((List.sublist_append_right _ _).trans hL) (hinit' s List.mem_cons_self)
        (fun u hu => hinit' u (List.mem_cons_of_mem _ hu)) hj (hjoins j hj) hst

/-- Work of an earlier stage finishes before later work starts, and the joins
of later stages guard it. -/
theorem Chained.ordered {joins : List (S × V)} {stages : List (Stage Q T S V)}
    (h : Chained joins stages) (hL : (stageLog stages).Sublist L) (hone : OneShot L)
    (hinit : ∀ st ∈ stages, ∀ j ∈ st.joins, mem j.1 ≠ j.2) {first second : Stage Q T S V}
    (hpair : [first, second].Sublist stages) {a : Entry Q T S V} (ha : a ∈ first.log)
    {done : Option (S × V)} (hac : a.cmd = .launch done) (hat : Once L a.tag) :
    (∀ j ∈ second.joins, Guards L mem j.1 j.2 a.tag) ∧
      ∀ b ∈ second.log, (∃ done, b.cmd = .launch done) → Once L b.tag →
        FinishesBefore L mem a.tag b.tag := by
  induction stages generalizing joins with
  | nil => simp at hpair
  | cons s stages ih =>
    obtain ⟨⟨-, hjoined, -, -, -⟩, hrest⟩ := h
    have hsub : s.log.Sublist L := (List.sublist_append_left _ _).trans hL
    have htail : (stageLog stages).Sublist L := (List.sublist_append_right _ _).trans hL
    have hinit' : ∀ st ∈ stages, ∀ j ∈ st.joins, mem j.1 ≠ j.2 :=
      fun u hu => hinit u (List.mem_cons_of_mem _ hu)
    rcases List.sublist_cons_iff.mp hpair with hpair | ⟨l, hl, hpair⟩
    · exact ih hrest htail hinit' hpair
    · obtain ⟨rfl, rfl⟩ := List.cons.inj hl
      obtain ⟨d, x, c, v, hcj, hadx, hd, hda, hdx, hxw⟩ := hjoined a ha done hac
      have hg : Guards L mem c v a.tag := guards_of_drain hone hat (hadx.trans hsub) rfl hd hda hdx hxw
        (hinit first List.mem_cons_self _ hcj)
      exact hrest.hand_on htail hone (hinit first List.mem_cons_self) hinit' hcj hg
        (List.singleton_sublist.mp hpair)

end
end Hipscope.Queue
