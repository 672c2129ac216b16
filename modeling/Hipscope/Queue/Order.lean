import Hipscope.Queue.Machine

/-! What holds along every interleaving: program order, drained queues, and
the origin of an awaited value. -/
namespace Hipscope.Queue
variable {Q T S V : Type}

/-- The effect of a command has taken place. -/
def settled (s : State S V) (k : ℕ) (c : Cmd S V) : Bool :=
  if c.isAsync then s.fin k else s.issued k

theorem writeCell_of_ne [DecidableEq S] {mem : S → V} {w : Option (S × V)} {c : S}
    (h : ∀ v, w ≠ some (c, v)) : writeCell mem w c = mem c := by
  rcases w with _ | ⟨d, v⟩
  · rfl
  · have hd : c ≠ d := by
      rintro rfl
      exact h v rfl
    simp [writeCell, hd]

@[simp] theorem writeCell_self [DecidableEq S] (mem : S → V) (c : S) (v : V) :
    writeCell mem (some (c, v)) c = v := by simp [writeCell]

theorem Cmd.write_eq_issueWrite {c : Cmd S V} (h : c.isAsync = false) : c.write = c.issueWrite := by
  simp [Cmd.write, h]

theorem Cmd.write_eq_finishWrite {c : Cmd S V} (h : c.isAsync = true) : c.write = c.finishWrite := by
  simp [Cmd.write, h]

theorem Cmd.issueWrite_isAsync {c : Cmd S V} {w : S × V} (h : c.issueWrite = some w) :
    c.isAsync = false := by
  cases c <;> simp_all [Cmd.issueWrite, Cmd.isAsync]

section
variable [DecidableEq Q] [DecidableEq S] [DecidableEq V]
variable {L : List (Entry Q T S V)} {mem : S → V} {s s' : State S V}

theorem settled_mono {a : Action} (h : exec L s a = some s') {k : ℕ} {c : Cmd S V}
    (hk : settled s k c = true) : settled s' k c = true := by
  unfold settled at hk ⊢
  split
  · simp_all [(exec_mono h k).2]
  · simp_all [(exec_mono h k).1]

theorem Reachable.fin_issued (h : Reachable L mem s) (k : ℕ) :
    s.fin k = true → s.issued k = true := by
  induction h with
  | init => simp [State.init]
  | step a _ he ih =>
    obtain ⟨j, e, -, -, -, -, -, rfl⟩ | ⟨j, e, -, -, hj, -, -, rfl⟩ := exec_cases he
    · intro hk
      exact (exec_mono he k).1 (ih hk)
    · intro hk
      by_cases hkj : k = j
      · simpa [hkj] using hj
      · exact ih (by simpa [Function.update_of_ne hkj] using hk)

theorem Reachable.settled_issued (h : Reachable L mem s) {k : ℕ} {c : Cmd S V}
    (hk : settled s k c = true) : s.issued k = true := by
  unfold settled at hk
  split at hk
  · exact h.fin_issued k hk
  · exact hk

/-- A queue issues its commands in log order. -/
theorem Reachable.issued_prior (h : Reachable L mem s) {j k : ℕ} {d e : Entry Q T S V}
    (hk : s.issued k = true) (he : L[k]? = some e) (hjk : j < k) (hd : L[j]? = some d)
    (hq : d.queue = e.queue) : s.issued j = true := by
  induction h with
  | init => simp [State.init] at hk
  | step a hr hs ih =>
    obtain ⟨i, f, -, hf, -, hready, -, rfl⟩ | ⟨i, f, -, -, -, -, -, rfl⟩ := exec_cases hs
    · by_cases hki : k = i
      · subst hki
        obtain rfl : e = f := by simpa [he] using hf
        exact (exec_mono hs j).1 (hready j hjk d hd hq)
      · exact (exec_mono hs j).1 (ih (by simpa [Function.update_of_ne hki] using hk))
    · exact ih hk

theorem Reachable.issued_upto (h : Reachable L mem s) {j k : ℕ} {d e : Entry Q T S V}
    (hk : s.issued k = true) (he : L[k]? = some e) (hjk : j ≤ k) (hd : L[j]? = some d)
    (hq : d.queue = e.queue) : s.issued j = true := by
  rcases Nat.lt_or_eq_of_le hjk with hjk | rfl
  · exact h.issued_prior hk he hjk hd hq
  · exact hk

/-- Once a drain is passed, every earlier job of its queue has finished. -/
theorem Reachable.drain_passed (h : Reachable L mem s) {j k : ℕ} {d e : Entry Q T S V}
    (hk : s.issued k = true) (he : L[k]? = some e) (hc : e.cmd = .drain) (hjk : j < k)
    (hd : L[j]? = some d) (hq : d.queue = e.queue) : settled s j d.cmd = true := by
  induction h with
  | init => simp [State.init] at hk
  | step a hr hs ih =>
    obtain ⟨i, f, -, hf, -, hready, hadmit, rfl⟩ | ⟨i, f, -, -, -, -, -, rfl⟩ := exec_cases hs
    · by_cases hki : k = i
      · subst hki
        obtain rfl : e = f := by simpa [he] using hf
        rw [hc] at hadmit
        have hfin := drained_iff.mp hadmit j hjk d hd hq
        apply settled_mono hs
        unfold settled
        split
        · exact hfin ‹_›
        · exact hready j hjk d hd hq
      · exact settled_mono hs (ih (by simpa [Function.update_of_ne hki] using hk))
    · exact settled_mono hs (ih hk)

/-- A cell holds a value it did not start with only after a write of it. -/
theorem Reachable.mem_origin (h : Reachable L mem s) {c : S} {v : V} (hinit : mem c ≠ v)
    (hv : s.mem c = v) :
    ∃ k e, L[k]? = some e ∧ e.cmd.write = some (c, v) ∧ settled s k e.cmd = true := by
  induction h with
  | init => exact absurd hv hinit
  | @step s s' a hr hs ih =>
    have keep (hm : s.mem c = v) :
        ∃ k e, L[k]? = some e ∧ e.cmd.write = some (c, v) ∧ settled s' k e.cmd = true := by
      obtain ⟨k, e, he, hw, hk⟩ := ih hm
      exact ⟨k, e, he, hw, settled_mono hs hk⟩
    obtain ⟨i, f, -, hf, -, -, -, rfl⟩ | ⟨i, f, -, hf, -, -, hset, rfl⟩ := exec_cases hs
    · by_cases hw : ∃ w, f.cmd.issueWrite = some (c, w)
      · obtain ⟨w, hw⟩ := hw
        have hw' : w = v := by simpa [hw] using hv
        have hasync := Cmd.issueWrite_isAsync hw
        exact ⟨i, f, hf, by rw [Cmd.write_eq_issueWrite hasync, hw, hw'], by simp [settled, hasync]⟩
      · exact keep (by simpa [writeCell_of_ne (fun w hw' => hw ⟨w, hw'⟩)] using hv)
    · by_cases hw : ∃ w, f.cmd.finishWrite = some (c, w)
      · obtain ⟨w, hw⟩ := hw
        have hw' : w = v := by simpa [hw] using hv
        have hasync := settles_isAsync hset
        exact ⟨i, f, hf, by rw [Cmd.write_eq_finishWrite hasync, hw, hw'], by simp [settled, hasync]⟩
      · exact keep (by simpa [writeCell_of_ne (fun w hw' => hw ⟨w, hw'⟩)] using hv)

/-- A passed wait was satisfied by a write that has taken effect. -/
theorem Reachable.await_passed (h : Reachable L mem s) {k : ℕ} {e : Entry Q T S V} {c : S} {v : V}
    (hinit : mem c ≠ v) (hk : s.issued k = true) (he : L[k]? = some e) (hc : e.cmd = .await c v) :
    ∃ j d, L[j]? = some d ∧ d.cmd.write = some (c, v) ∧ settled s j d.cmd = true := by
  induction h with
  | init => simp [State.init] at hk
  | @step s s' a hr hs ih =>
    have keep (hk' : s.issued k = true) :
        ∃ j d, L[j]? = some d ∧ d.cmd.write = some (c, v) ∧ settled s' j d.cmd = true := by
      obtain ⟨j, d, hd, hw, hj⟩ := ih hk'
      exact ⟨j, d, hd, hw, settled_mono hs hj⟩
    obtain ⟨i, f, -, hf, -, -, hadmit, rfl⟩ | ⟨i, f, -, -, -, -, -, rfl⟩ := exec_cases hs
    · by_cases hki : k = i
      · subst hki
        obtain rfl : e = f := by simpa [he] using hf
        rw [hc] at hadmit
        obtain ⟨j, d, hd, hw, hj⟩ := hr.mem_origin hinit (by simpa [admits] using hadmit)
        exact ⟨j, d, hd, hw, settled_mono hs hj⟩
      · exact keep (by simpa [Function.update_of_ne hki] using hk)
    · exact keep hk

/-- The only write of a cell leaves its value there. -/
theorem Reachable.mem_of_settled (h : Reachable L mem s) {k : ℕ} {e : Entry Q T S V} {c : S} {v : V}
    (he : L[k]? = some e) (hw : e.cmd.write = some (c, v))
    (sole : ∀ j d w, L[j]? = some d → d.cmd.write = some (c, w) → j = k)
    (hk : settled s k e.cmd = true) : s.mem c = v := by
  have own (d : Entry Q T S V) (j : ℕ) (w : V) (hd : L[j]? = some d)
      (hdw : d.cmd.write = some (c, w)) : d = e ∧ w = v := by
    obtain rfl := sole j d w hd hdw
    obtain rfl : e = d := by simpa [he] using hd
    exact ⟨rfl, by simpa [hw, eq_comm] using hdw⟩
  induction h with
  | init =>
    unfold settled at hk
    split at hk <;> simp [State.init] at hk
  | @step s s' a hr hs ih =>
    obtain ⟨i, f, -, hf, -, -, -, rfl⟩ | ⟨i, f, -, hf, -, -, hset, rfl⟩ := exec_cases hs
    · by_cases hx : ∃ w, f.cmd.issueWrite = some (c, w)
      · obtain ⟨w, hx⟩ := hx
        have hasync := Cmd.issueWrite_isAsync hx
        obtain ⟨rfl, rfl⟩ := own f i w hf (by rw [Cmd.write_eq_issueWrite hasync, hx])
        simp [hx]
      · have hne : writeCell s.mem f.cmd.issueWrite c = s.mem c :=
          writeCell_of_ne (fun w hw' => hx ⟨w, hw'⟩)
        refine hne.trans (ih ?_)
        unfold settled at hk ⊢
        split
        · simpa [*] using hk
        · rename_i hasync
          have hki : k ≠ i := by
            rintro rfl
            obtain rfl : e = f := by simpa [he] using hf
            exact hx ⟨v, by rw [← Cmd.write_eq_issueWrite (by simpa using hasync), hw]⟩
          simpa [hasync, Function.update_of_ne hki] using hk
    · have hasync := settles_isAsync hset
      by_cases hx : ∃ w, f.cmd.finishWrite = some (c, w)
      · obtain ⟨w, hx⟩ := hx
        obtain ⟨rfl, rfl⟩ := own f i w hf (by rw [Cmd.write_eq_finishWrite hasync, hx])
        simp [hx]
      · have hne : writeCell s.mem f.cmd.finishWrite c = s.mem c :=
          writeCell_of_ne (fun w hw' => hx ⟨w, hw'⟩)
        refine hne.trans (ih ?_)
        unfold settled at hk ⊢
        split
        · have hki : k ≠ i := by
            rintro rfl
            obtain rfl : e = f := by simpa [he] using hf
            exact hx ⟨v, by rw [← Cmd.write_eq_finishWrite hasync, hw]⟩
          simpa [*, Function.update_of_ne hki] using hk
        · simpa [*] using hk

end
end Hipscope.Queue
