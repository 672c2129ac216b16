import Hipscope.Queue.Before
import Mathlib.Data.List.Induction

/-! Fences made of a bottom-of-pipe release and a wait for the released value.
The cell may hold anything when a submission starts; a wait for a reset value
at the front of the queue keeps later waits from being satisfied by it. -/
namespace Hipscope.Queue
variable {Q T S V : Type} [DecidableEq Q] [DecidableEq S] [DecidableEq V]
variable {L : List (Entry Q T S V)} {mem : S → V} {s : State S V}

/-- A finished release has every earlier command of its queue behind it. -/
theorem Reachable.release_settled (h : Reachable L mem s) {j k : ℕ} {d e : Entry Q T S V}
    (hk : s.fin k = true) (he : L[k]? = some e) {c : S} {v : V} (hc : e.cmd = .release c v)
    (hjk : j < k) (hd : L[j]? = some d) (hq : d.queue = e.queue) : settled s j d.cmd = true := by
  induction h with
  | init => simp [State.init] at hk
  | step a hr hs ih =>
    obtain ⟨i, f, -, -, -, -, -, rfl⟩ | ⟨i, f, -, hf, hissued, -, hsettles, rfl⟩ := exec_cases hs
    · exact settled_mono hs (ih hk)
    · by_cases hki : k = i
      · subst hki
        obtain rfl : e = f := by simpa [he] using hf
        rw [hc] at hsettles
        have hfin := drained_iff.mp hsettles j hjk d hd hq
        apply settled_mono hs
        unfold settled
        split
        · exact hfin ‹_›
        · exact hr.issued_prior hissued he hjk hd hq
      · exact settled_mono hs (ih (by simpa [Function.update_of_ne hki] using hk))

/-- Behind a passed wait for the reset value, the cell holds that value or one
that has been written since. -/
private theorem Reachable.mem_since_reset (h : Reachable L mem s) {k : ℕ} {e : Entry Q T S V} {c : S}
    {v : V} (he : L[k]? = some e) (hc : e.cmd = .await c v) (hk : s.issued k = true) :
    s.mem c = v ∨ ∃ j d, L[j]? = some d ∧ d.cmd.write = some (c, s.mem c) ∧
      settled s j d.cmd = true := by
  induction h with
  | init => simp [State.init] at hk
  | @step s s' a hr hs ih =>
    have keep (hm : s'.mem c = s.mem c) (hk : s.issued k = true) :
        s'.mem c = v ∨ ∃ j d, L[j]? = some d ∧ d.cmd.write = some (c, s'.mem c) ∧
          settled s' j d.cmd = true := by
      rw [hm]
      rcases ih hk with hv | ⟨j, d, hd, hw, hj⟩
      · exact .inl hv
      · exact .inr ⟨j, d, hd, hw, settled_mono hs hj⟩
    obtain ⟨i, f, -, hf, -, -, hadmit, rfl⟩ | ⟨i, f, -, hf, -, -, hset, rfl⟩ := exec_cases hs
    · by_cases hw : ∃ w, f.cmd.issueWrite = some (c, w)
      · obtain ⟨w, hw⟩ := hw
        have hasync := Cmd.issueWrite_isAsync hw
        refine .inr ⟨i, f, hf, ?_, by simp [settled, hasync]⟩
        simp [Cmd.write_eq_issueWrite hasync, hw]
      · have hm : writeCell s.mem f.cmd.issueWrite c = s.mem c :=
          writeCell_of_ne fun w hw' => hw ⟨w, hw'⟩
        by_cases hki : k = i
        · subst hki
          obtain rfl : e = f := by simpa [he] using hf
          rw [hc] at hadmit
          exact .inl (hm.trans (by simpa [admits] using hadmit))
        · exact keep hm (by simpa [Function.update_of_ne hki] using hk)
    · by_cases hw : ∃ w, f.cmd.finishWrite = some (c, w)
      · obtain ⟨w, hw⟩ := hw
        have hasync := settles_isAsync hset
        refine .inr ⟨i, f, hf, ?_, by simp [settled, hasync]⟩
        simp [Cmd.write_eq_finishWrite hasync, hw]
      · exact keep (writeCell_of_ne fun w hw' => hw ⟨w, hw'⟩) hk

/-- A wait behind a reset is satisfied by a write of this submission. -/
theorem Reachable.await_since_reset (h : Reachable L mem s) {k₀ k : ℕ} {e₀ e : Entry Q T S V} {c : S}
    {v₀ v : V} (he₀ : L[k₀]? = some e₀) (hc₀ : e₀.cmd = .await c v₀) (he : L[k]? = some e)
    (hc : e.cmd = .await c v) (hlt : k₀ < k) (hq : e₀.queue = e.queue) (hv : v ≠ v₀)
    (hk : s.issued k = true) :
    ∃ j d, L[j]? = some d ∧ d.cmd.write = some (c, v) ∧ settled s j d.cmd = true := by
  induction h with
  | init => simp [State.init] at hk
  | @step s s' a hr hs ih =>
    have keep (hk : s.issued k = true) :
        ∃ j d, L[j]? = some d ∧ d.cmd.write = some (c, v) ∧ settled s' j d.cmd = true := by
      obtain ⟨j, d, hd, hw, hj⟩ := ih hk
      exact ⟨j, d, hd, hw, settled_mono hs hj⟩
    obtain ⟨i, f, -, hf, -, hready, hadmit, rfl⟩ | ⟨i, f, -, -, -, -, -, rfl⟩ := exec_cases hs
    · by_cases hki : k = i
      · subst hki
        obtain rfl : e = f := by simpa [he] using hf
        have hmem : s.mem c = v := by simpa [hc, admits] using hadmit
        rcases hr.mem_since_reset he₀ hc₀ (hready k₀ hlt e₀ he₀ hq) with h | ⟨j, d, hd, hw, hj⟩
        · exact absurd (hmem.symm.trans h) hv
        · exact ⟨j, d, hd, by rwa [hmem] at hw, settled_mono hs hj⟩
      · exact keep (by simpa [Function.update_of_ne hki] using hk)
    · exact keep hk

/-- A job before a fence before a later command of the same queue. -/
theorem finishesBefore_of_fence (hwrites : (writes L).Nodup) {t u : T} (ht : Once L t) (hu : Once L u)
    {z a r w b : Entry Q T S V} (h : [z, a, r, w, b].Sublist L) (hat : a.tag = t) (hbu : b.tag = u)
    {q : Q} (hq : ∀ e ∈ [z, a, r, w, b], e.queue = q) {c : S} {v₀ v : V} (hz : z.cmd = .await c v₀)
    (hr : r.cmd = .release c v) (hw : w.cmd = .await c v) (hv : v ≠ v₀) :
    FinishesBefore L mem t u := by
  intro s hs hstart k e he het
  obtain ⟨f, hf⟩ := List.sublist_iff_exists_orderEmbedding_getElem?_eq.mp h
  have hz' : L[f 0]? = some z := by simpa using (hf 0).symm
  have ha' : L[f 1]? = some a := by simpa using (hf 1).symm
  have hr' : L[f 2]? = some r := by simpa using (hf 2).symm
  have hw' : L[f 3]? = some w := by simpa using (hf 3).symm
  have hb' : L[f 4]? = some b := by simpa using (hf 4).symm
  simp only [List.mem_cons, List.not_mem_nil, or_false, forall_eq_or_imp, forall_eq] at hq
  obtain ⟨hzq, haq, hrq, hwq, hbq⟩ := hq
  obtain ⟨j, g, hg, hgu, hissued⟩ := hstart
  obtain rfl := hu j (f 4) g b hg hb' hgu hbu
  have hwait := hs.issued_prior hissued hb' (f.strictMono (by decide : (3 : ℕ) < 4)) hw'
    (hwq.trans hbq.symm)
  obtain ⟨i, d, hd, hdw, hset⟩ := hs.await_since_reset hz' hz hw' hw
    (f.strictMono (by decide : (0 : ℕ) < 3)) (hzq.trans hwq.symm) hv hwait
  obtain rfl : i = f 2 := index_unique hwrites hd hr' hdw (by rw [hr]; rfl)
  obtain rfl : r = d := by simpa [hr'] using hd
  rw [hr] at hset
  have hfin := hs.release_settled (by simpa [settled, Cmd.isAsync] using hset) hr' hr
    (f.strictMono (by decide : (1 : ℕ) < 2)) ha' (haq.trans hrq.symm)
  obtain rfl := ht k (f 1) e a he ha' het hat
  obtain rfl : e = a := by simpa [he] using ha'
  exact hfin

end Hipscope.Queue

/-! A cell that one in-order queue releases and awaits over and over. Neighbouring fences have
different values, so no wait is satisfied by the value of another fence. -/
namespace Hipscope.Queue
variable {Q T S V : Type}

/-- Fences on a cell, from the value of the one before to the value of the last one. -/
inductive Refenced (c : S) : Option V → Option V → List (Entry Q T S V) → Prop
  | nil (last : Option V) : Refenced c last last []
  | other {last last' : Option V} {e : Entry Q T S V} {L : List (Entry Q T S V)}
      (hwrite : ∀ v, e.cmd.write ≠ some (c, v)) (hawait : ∀ v, e.cmd ≠ .await c v)
      (h : Refenced c last last' L) : Refenced c last last' (e :: L)
  | fence {last last' : Option V} {v : V} {r w : Entry Q T S V} {L : List (Entry Q T S V)}
      (hr : r.cmd = .release c v) (hw : w.cmd = .await c v) (hne : last ≠ some v)
      (h : Refenced c (some v) last' L) : Refenced c last last' (r :: w :: L)

/-- A wait on the cell stands at the position. -/
def AwaitAt (L : List (Entry Q T S V)) (c : S) (v : V) (k : ℕ) : Prop := ∃ e, L[k]? = some e ∧ e.cmd = .await c v

def ReleaseAt (L : List (Entry Q T S V)) (c : S) (v : V) (k : ℕ) : Prop :=
  ∃ e, L[k]? = some e ∧ e.cmd = .release c v

section Positions
variable {c : S} {first last last' : Option V} {L M : List (Entry Q T S V)} {e : Entry Q T S V} {v : V} {k : ℕ}

theorem Refenced.append (h : Refenced c first last L) (h' : Refenced c last last' M) :
    Refenced c first last' (L ++ M) := by
  induction h with
  | nil => exact h'
  | other hwrite hawait _ ih => exact .other hwrite hawait (ih h')
  | fence hr hw hne _ ih => exact .fence hr hw hne (ih h')

theorem Refenced.flatten_replicate (h : Refenced c (some v) (some v) L) (n : ℕ) :
    Refenced c (some v) (some v) (List.replicate n L).flatten := by
  induction n with
  | zero => exact .nil _
  | succ n ih =>
    rw [List.replicate_succ, List.flatten_cons]
    exact h.append ih

private theorem awaitAt_cons {j : ℕ} : AwaitAt (e :: L) c v (j + 1) ↔ AwaitAt L c v j := by
  simp only [AwaitAt, List.getElem?_cons_succ]

private theorem releaseAt_cons {j : ℕ} : ReleaseAt (e :: L) c v (j + 1) ↔ ReleaseAt L c v j := by
  simp only [ReleaseAt, List.getElem?_cons_succ]

/-- The cell is only written by releases, and each has its wait behind it. -/
theorem Refenced.of_write (h : Refenced c first last L) (he : L[k]? = some e) (hw : e.cmd.write = some (c, v)) :
    e.cmd = .release c v ∧ AwaitAt L c v (k + 1) := by
  induction h generalizing k with
  | nil => cases he
  | other hwrite _ _ ih =>
    cases k with
    | zero =>
      cases he
      exact absurd hw (hwrite v)
    | succ k => exact (ih he).imp_right awaitAt_cons.2
  | @fence _ _ u r w L hr hawait _ _ ih =>
    rcases k with _ | _ | k
    · cases he
      rw [hr] at hw
      cases hw
      exact ⟨hr, w, rfl, hawait⟩
    · cases he
      rw [hawait] at hw
      cases hw
    · exact (ih he).imp_right fun hat => awaitAt_cons.2 (awaitAt_cons.2 hat)

theorem Refenced.releaseAt (h : Refenced c first last L) (hk : AwaitAt L c v k) :
    ∃ j, k = j + 1 ∧ ReleaseAt L c v j := by
  induction h generalizing k with
  | nil =>
    obtain ⟨e, he, -⟩ := hk
    cases he
  | other _ hawait _ ih =>
    cases k with
    | zero =>
      obtain ⟨e, he, hc⟩ := hk
      cases he
      exact absurd hc (hawait v)
    | succ k =>
      obtain ⟨j, rfl, hj⟩ := ih (awaitAt_cons.1 hk)
      exact ⟨j + 1, rfl, releaseAt_cons.2 hj⟩
  | @fence _ _ u r w L hr hawait _ _ ih =>
    rcases k with _ | _ | k
    · obtain ⟨e, he, hc⟩ := hk
      cases he
      rw [hr] at hc
      cases hc
    · obtain ⟨e, he, hc⟩ := hk
      cases he
      rw [hawait] at hc
      cases hc
      exact ⟨0, rfl, r, rfl, hr⟩
    · obtain ⟨j, rfl, hj⟩ := ih (awaitAt_cons.1 (awaitAt_cons.1 hk))
      exact ⟨j + 2, rfl, releaseAt_cons.2 (releaseAt_cons.2 hj)⟩

/-- The wait before, if there is one, is for another value. -/
theorem Refenced.previous (h : Refenced c first last L) (hk : AwaitAt L c v k) :
    (first ≠ some v ∧ ∀ j < k, ∀ w, ¬ AwaitAt L c w j) ∨
      ∃ j w, j < k ∧ AwaitAt L c w j ∧ w ≠ v ∧ ∀ i u, j < i → i < k → ¬ AwaitAt L c u i := by
  induction h generalizing k with
  | nil =>
    obtain ⟨e, he, -⟩ := hk
    cases he
  | other _ hawait _ ih =>
    cases k with
    | zero =>
      obtain ⟨e, he, hc⟩ := hk
      cases he
      exact absurd hc (hawait v)
    | succ k =>
      rcases ih (awaitAt_cons.1 hk) with ⟨hfirst, hnone⟩ | ⟨j, w, hjk, hj, hw, hnone⟩
      · refine .inl ⟨hfirst, fun j hj w hat => ?_⟩
        cases j with
        | zero =>
          obtain ⟨e, he, hc⟩ := hat
          cases he
          exact hawait w hc
        | succ j => exact hnone j (Nat.lt_of_succ_lt_succ hj) w (awaitAt_cons.1 hat)
      · refine .inr ⟨j + 1, w, Nat.succ_lt_succ hjk, awaitAt_cons.2 hj, hw, fun i u hji hik hat => ?_⟩
        obtain ⟨i, rfl⟩ := Nat.exists_eq_succ_of_ne_zero (Nat.ne_of_gt (Nat.zero_lt_of_lt hji))
        exact hnone i u (Nat.lt_of_succ_lt_succ hji) (Nat.lt_of_succ_lt_succ hik) (awaitAt_cons.1 hat)
  | @fence last _ u r w L hr hawait hne _ ih =>
    have hzero (x : V) : ¬ AwaitAt (r :: w :: L) c x 0 := by
      rintro ⟨e, he, hc⟩
      cases he
      rw [hr] at hc
      cases hc
    rcases k with _ | _ | k
    · exact absurd hk (hzero v)
    · obtain ⟨e, he, hc⟩ := hk
      cases he
      rw [hawait] at hc
      cases hc
      refine .inl ⟨hne, fun j hj x hat => ?_⟩
      obtain rfl := Nat.lt_one_iff.1 hj
      exact hzero x hat
    · have hshift {i : ℕ} {x : V} (hi : 1 < i) (hat : AwaitAt (r :: w :: L) c x i) : AwaitAt L c x (i - 2) := by
        obtain ⟨i, rfl⟩ := Nat.exists_eq_add_of_le hi
        rw [Nat.add_comm] at hat
        rw [Nat.add_sub_cancel_left]
        exact awaitAt_cons.1 (awaitAt_cons.1 hat)
      rcases ih (awaitAt_cons.1 (awaitAt_cons.1 hk)) with ⟨hfirst, hnone⟩ | ⟨j, x, hjk, hj, hx, hnone⟩
      · refine .inr ⟨1, u, by omega, ⟨w, rfl, hawait⟩, fun hu => hfirst (hu ▸ rfl), fun i x hi hik hat => ?_⟩
        exact hnone (i - 2) (by omega) x (hshift hi hat)
      · refine .inr ⟨j + 2, x, by omega, awaitAt_cons.2 (awaitAt_cons.2 hj), hx, fun i y hji hik hat => ?_⟩
        exact hnone (i - 2) y (by omega) (by omega) (hshift (by omega) hat)

end Positions

section Runs
variable [DecidableEq Q] [DecidableEq S] [DecidableEq V]
variable {L : List (Entry Q T S V)} {mem : S → V} {s s' : State S V} {c : S} {first last : Option V} {q : Q}
variable {a : Action} {as : List Action} {v : V} {i k : ℕ}

/-- An earlier wait on the cell. -/
def Awaited (L : List (Entry Q T S V)) (c : S) (k : ℕ) : Prop := ∃ j < k, ∃ v, AwaitAt L c v j

/-- Behind a passed wait the cell has its value until a later release, and its own release has
finished, except behind the first wait. -/
structure Passed (L : List (Entry Q T S V)) (c : S) (s : State S V) : Prop where
  value : ∀ ⦃k : ℕ⦄ ⦃v : V⦄, AwaitAt L c v k → s.issued k = true →
    s.mem c = v ∨ ∃ j w, k < j ∧ ReleaseAt L c w j ∧ s.fin j = true
  released : ∀ ⦃k : ℕ⦄ ⦃v : V⦄, AwaitAt L c v (k + 1) → s.issued (k + 1) = true → Awaited L c (k + 1) → s.fin k = true

private theorem Passed.issue (h : Passed L c s) (hr : Reachable L mem s) (hL : Refenced c first last L)
    (hq : ∀ e ∈ L, e.queue = q) (hs : exec L s (.issue i) = some s') : Passed L c s' := by
  obtain ⟨i', f, hi, hf, hnew, hready, hadmit, rfl⟩ | ⟨i', f, hi, -⟩ := exec_cases hs
  swap
  · cases hi
  cases hi
  have hmem : writeCell s.mem f.cmd.issueWrite c = s.mem c := by
    refine writeCell_of_ne fun w hw => ?_
    have hasync := Cmd.issueWrite_isAsync hw
    have hrelease := (hL.of_write hf (Cmd.write_eq_issueWrite hasync ▸ hw)).1
    rw [hrelease] at hasync
    cases hasync
  have hold {k : ℕ} (hne : k ≠ i) (hk : Function.update s.issued i true k = true) : s.issued k = true := by
    rwa [Function.update_of_ne hne] at hk
  have hthere {v : V} (hat : AwaitAt L c v i) : s.mem c = v := by
    obtain ⟨e, he, hc⟩ := hat
    obtain rfl : f = e := Option.some.inj (hf.symm.trans he)
    rw [hc] at hadmit
    exact of_decide_eq_true hadmit
  constructor
  · intro k v hk hissued
    dsimp only at hissued ⊢
    rw [hmem]
    by_cases hki : k = i
    · subst hki
      exact .inl (hthere hk)
    · exact h.value hk (hold hki hissued)
  · intro k v hk hissued hawaited
    dsimp only at hissued ⊢
    by_cases hki : k + 1 = i
    · subst hki
      obtain ⟨j₀, hj₀, w₀, hat₀⟩ := hawaited
      rcases hL.previous hk with ⟨-, hnone⟩ | ⟨j, w, hjk, hj, hwv, hnone⟩
      · exact absurd hat₀ (hnone j₀ hj₀ w₀)
      obtain ⟨d, hd, hdc⟩ := hj
      have hqd : d.queue = f.queue := (hq d (List.mem_of_getElem? hd)).trans (hq f (List.mem_of_getElem? hf)).symm
      rcases h.value ⟨d, hd, hdc⟩ (hready j hjk d hd hqd) with hw | ⟨m, x, hjm, ⟨g, hg, hgc⟩, hfin⟩
      · exact absurd (hw.symm.trans (hthere hk)) hwv
      have hqg : g.queue = f.queue := (hq g (List.mem_of_getElem? hg)).trans (hq f (List.mem_of_getElem? hf)).symm
      have hmk : m < k + 1 := by
        rcases Nat.lt_trichotomy m (k + 1) with hlt | heq | hgt
        · exact hlt
        · obtain ⟨e, he, hc⟩ := hk
          rw [heq, he] at hg
          cases hg
          rw [hc] at hgc
          cases hgc
        · have hback := hr.issued_prior (hr.fin_issued m hfin) hg hgt hf hqg.symm
          rw [hnew] at hback
          cases hback
      -- the wait of that release stands behind the last one
      have hwait := (hL.of_write hg (v := x) (by rw [hgc]; rfl)).2
      obtain rfl : m = k := by
        by_contra hne
        exact hnone (m + 1) x (by omega) (by omega) hwait
      exact hfin
    · exact h.released hk (hold hki hissued) hawaited

private theorem Passed.complete (h : Passed L c s) (hr : Reachable L mem s) (hL : Refenced c first last L)
    (hq : ∀ e ∈ L, e.queue = q) (hs : exec L s (.complete i) = some s') : Passed L c s' := by
  have hmono := fun k => (exec_mono hs k).2
  obtain ⟨i', f, hi, -⟩ | ⟨i', f, hi, hf, hissued, hnew, hsettles, rfl⟩ := exec_cases hs
  · cases hi
  cases hi
  refine ⟨fun k v hk hk' => ?_, fun k v hk hk' hawaited => hmono k (h.released hk hk' hawaited)⟩
  by_cases hwrite : ∃ w, f.cmd.finishWrite = some (c, w)
  swap
  · dsimp only at hk' ⊢
    rw [writeCell_of_ne fun w hw => hwrite ⟨w, hw⟩]
    rcases h.value hk hk' with hv | ⟨j, w, hkj, hj, hfin⟩
    · exact .inl hv
    · exact .inr ⟨j, w, hkj, hj, hmono j hfin⟩
  obtain ⟨w, hw⟩ := hwrite
  obtain ⟨hrelease, hwait⟩ := hL.of_write hf (Cmd.write_eq_finishWrite (settles_isAsync hsettles) ▸ hw)
  dsimp only at hk' ⊢
  rw [hw, writeCell_self]
  rcases Nat.lt_trichotomy i k with hik | rfl | hki
  · rcases Nat.lt_or_eq_of_le hik with hlt | rfl
    · -- its own wait has been passed, so everything before the release of this one has finished
      obtain ⟨m, rfl, r, hr', hrc⟩ := hL.releaseAt hk
      have hfin := h.released hk hk' ⟨i + 1, hlt, w, hwait⟩
      have hqf : f.queue = r.queue := (hq f (List.mem_of_getElem? hf)).trans (hq r (List.mem_of_getElem? hr')).symm
      have hdone := hr.release_settled hfin hr' hrc (by omega) hf hqf
      rw [settled, if_pos (settles_isAsync hsettles), hnew] at hdone
      cases hdone
    · obtain ⟨e, he, hc⟩ := hk
      obtain ⟨e', he', hc'⟩ := hwait
      rw [he] at he'
      cases he'
      rw [hc] at hc'
      cases hc'
      exact .inl rfl
  · obtain ⟨e, he, hc⟩ := hk
    rw [hf] at he
    cases he
    rw [hrelease] at hc
    cases hc
  · exact .inr ⟨i, w, hki, ⟨f, hf, hrelease⟩, Function.update_self i true s.fin⟩

theorem Reachable.passed (h : Reachable L mem s) (hL : Refenced c first last L) (hq : ∀ e ∈ L, e.queue = q) :
    Passed L c s := by
  induction h with
  | init => exact ⟨fun k v _ hk => (by cases hk), fun k v _ hk => (by cases hk)⟩
  | step a hr hs ih =>
    cases a with
    | issue i => exact ih.issue hr hL hq hs
    | complete i => exact ih.complete hr hL hq hs

/-- Behind a passed fence every earlier command has taken effect. -/
theorem Reachable.refence_settled (h : Reachable L mem s) (hL : Refenced c first last L)
    (hq : ∀ e ∈ L, e.queue = q) (hk : AwaitAt L c v k) (hawaited : Awaited L c k) {j : ℕ} (hik : i < k) (hkj : k < j)
    {d e : Entry Q T S V} (hd : L[i]? = some d) (he : L[j]? = some e) (hj : s.issued j = true) :
    settled s i d.cmd = true := by
  have hsame {x y : Entry Q T S V} {m n : ℕ} (hx : L[m]? = some x) (hy : L[n]? = some y) : x.queue = y.queue :=
    (hq x (List.mem_of_getElem? hx)).trans (hq y (List.mem_of_getElem? hy)).symm
  obtain ⟨m, rfl, r, hr, hrc⟩ := hL.releaseAt hk
  have hissued : s.issued (m + 1) = true := by
    obtain ⟨w, hw, -⟩ := hk
    exact h.issued_prior hj he hkj hw (hsame hw he)
  have hfin := (h.passed hL hq).released hk hissued hawaited
  rcases Nat.lt_or_eq_of_le (Nat.le_of_lt_succ hik) with him | rfl
  · exact h.release_settled hfin hr hrc him hd (hsame hd hr)
  · obtain rfl : r = d := Option.some.inj (hr.symm.trans hd)
    rw [settled, hrc]
    exact hfin

/-- The position whose command writes the cell in an action. -/
def cellWrite (L : List (Entry Q T S V)) (c : S) : Action → Option ℕ
  | .issue k => if ((L[k]?).bind fun e => e.cmd.issueWrite).map Prod.fst = some c then some k else none
  | .complete k => if ((L[k]?).bind fun e => e.cmd.finishWrite).map Prod.fst = some c then some k else none

/-- The position of the command that wrote the cell last. -/
def lastWriter (L : List (Entry Q T S V)) (c : S) (as : List Action) : Option ℕ := (as.filterMap (cellWrite L c)).getLast?

/-- The last writer is the last release that has finished. -/
structure Latest (L : List (Entry Q T S V)) (c : S) (s : State S V) (writer : Option ℕ) : Prop where
  finished : ∀ ⦃j : ℕ⦄, writer = some j → s.fin j = true ∧ ∃ v, ReleaseAt L c v j
  latest : ∀ ⦃i : ℕ⦄ ⦃v : V⦄, ReleaseAt L c v i → s.fin i = true → ∃ j, writer = some j ∧ i ≤ j

omit [DecidableEq Q] [DecidableEq V] in
theorem lastWriter_append (L : List (Entry Q T S V)) (c : S) (as : List Action) (a : Action) :
    lastWriter L c (as ++ [a]) = (cellWrite L c a).or (lastWriter L c as) := by
  rw [lastWriter, List.filterMap_append, List.getLast?_append]
  cases h : cellWrite L c a with
  | none =>
    rw [List.filterMap_cons_none h]
    rfl
  | some k =>
    rw [List.filterMap_cons_some h]
    rfl

private theorem Latest.step (h : Latest L c s (lastWriter L c as)) (hr : Reachable L mem s)
    (hL : Refenced c first last L) (hq : ∀ e ∈ L, e.queue = q) (hs : exec L s a = some s') :
    Latest L c s' (lastWriter L c (as ++ [a])) := by
  have hmono := fun k => (exec_mono hs k).2
  rw [lastWriter_append]
  obtain ⟨i, f, rfl, hf, -, -, -, rfl⟩ | ⟨i, f, rfl, hf, -, hnew, hsettles, rfl⟩ := exec_cases hs
  · have hnone : cellWrite L c (.issue i) = none := by
      rw [cellWrite, hf, Option.bind_some, if_neg]
      intro hw
      obtain ⟨⟨c', v⟩, hw', rfl⟩ := Option.map_eq_some_iff.1 hw
      have hasync := Cmd.issueWrite_isAsync hw'
      rw [(hL.of_write hf (Cmd.write_eq_issueWrite hasync ▸ hw')).1] at hasync
      cases hasync
    rw [hnone, Option.none_or]
    exact ⟨h.finished, h.latest⟩
  · rw [cellWrite, hf, Option.bind_some]
    have hasync := settles_isAsync hsettles
    by_cases hw : f.cmd.finishWrite.map Prod.fst = some c
    · obtain ⟨⟨c', v⟩, hw', rfl⟩ := Option.map_eq_some_iff.1 hw
      have hrelease := (hL.of_write hf (Cmd.write_eq_finishWrite hasync ▸ hw')).1
      rw [if_pos hw, Option.some_or]
      refine ⟨fun j hj => ?_, fun j w hj hfin => ⟨i, rfl, ?_⟩⟩
      · obtain rfl := Option.some.inj hj
        exact ⟨Function.update_self i true s.fin, v, f, hf, hrelease⟩
      · -- a later release finishes behind this one
        by_contra hlt
        obtain ⟨e, he, hc⟩ := hj
        dsimp only at hfin
        rw [Function.update_of_ne (by omega)] at hfin
        have hqe : f.queue = e.queue := (hq f (List.mem_of_getElem? hf)).trans (hq e (List.mem_of_getElem? he)).symm
        have hdone := hr.release_settled hfin he hc (not_le.1 hlt) hf hqe
        rw [settled, if_pos hasync, hnew] at hdone
        cases hdone
    · rw [if_neg hw, Option.none_or]
      refine ⟨fun j hj => (h.finished hj).imp_left (hmono j), fun j v hj hfin => ?_⟩
      have hji : j ≠ i := by
        rintro rfl
        obtain ⟨e, he, hc⟩ := hj
        obtain rfl : f = e := Option.some.inj (hf.symm.trans he)
        rw [hc] at hw
        exact hw rfl
      dsimp only at hfin
      rw [Function.update_of_ne hji] at hfin
      exact h.latest hj hfin

theorem execAll_latest (hL : Refenced c first last L) (hq : ∀ e ∈ L, e.queue = q)
    (h : execAll L (.init mem) as = some s) : Latest L c s (lastWriter L c as) := by
  induction as using List.reverseRecOn generalizing s with
  | nil =>
    cases h
    exact ⟨fun j hj => (by cases hj), fun i v _ hi => (by cases hi)⟩
  | append_singleton as a ih =>
    rw [execAll, List.foldlM_append] at h
    obtain ⟨t, ht, h⟩ := Option.bind_eq_some_iff.1 h
    rw [List.foldlM_cons] at h
    obtain ⟨t', hs, h⟩ := Option.bind_eq_some_iff.1 h
    cases h
    exact (ih ht).step (Reachable.init.execAll as ht) hL hq hs

/-- A wait behind another one passes on the value its own release has written. -/
theorem refence_writer (hL : Refenced c first last L) (hq : ∀ e ∈ L, e.queue = q)
    (h : execAll L (.init mem) as = some s) (hs : exec L s (.issue (k + 1)) = some s') (hk : AwaitAt L c v (k + 1))
    (hawaited : Awaited L c (k + 1)) : ReleaseAt L c v k ∧ lastWriter L c as = some k := by
  have hr := Reachable.init.execAll as h
  obtain ⟨m, hm, hrelease⟩ := hL.releaseAt hk
  obtain rfl := Nat.succ.inj hm
  refine ⟨hrelease, ?_⟩
  obtain ⟨i, f, hi, hf, hnew, -, -, rfl⟩ | ⟨i, f, hi, -⟩ := exec_cases hs
  swap
  · cases hi
  cases hi
  have hfin : s.fin k = true :=
    ((hr.step _ hs).passed hL hq).released hk (Function.update_self (k + 1) true s.issued) hawaited
  have hlatest := execAll_latest hL hq h
  obtain ⟨j, hj, hkj⟩ := hlatest.latest hrelease hfin
  obtain ⟨hjfin, w, e, he, -⟩ := hlatest.finished hj
  rw [hj]
  rcases Nat.lt_or_eq_of_le hkj with hlt | rfl
  · have hqe : f.queue = e.queue := (hq f (List.mem_of_getElem? hf)).trans (hq e (List.mem_of_getElem? he)).symm
    have hback : s.issued (k + 1) = true := by
      rcases Nat.lt_or_eq_of_le (Nat.succ_le_of_lt hlt) with hlt | rfl
      · exact hr.issued_prior (hr.fin_issued j hjfin) he hlt hf hqe
      · exact hr.fin_issued _ hjfin
    rw [hnew] at hback
    cases hback
  · rfl

end Runs
end Hipscope.Queue
