import Hipscope.Queue.Order
import Mathlib.Data.List.Nodup
import Mathlib.Data.List.NodupEquivFin

/-! Completion order between tagged commands, read off the log.
The proof rules only look at which commands occur before which. -/
namespace Hipscope.Queue
variable {Q T S V : Type}

/-- Some command carrying the tag has been issued. -/
def Started (L : List (Entry Q T S V)) (s : State S V) (t : T) : Prop :=
  ∃ k e, L[k]? = some e ∧ e.tag = t ∧ s.issued k = true

/-- Every command carrying the tag has taken effect. -/
def Finished (L : List (Entry Q T S V)) (s : State S V) (t : T) : Prop :=
  ∀ k e, L[k]? = some e → e.tag = t → settled s k e.cmd = true

/-- No two positions of the log carry the tag. -/
def Once (L : List (Entry Q T S V)) (t : T) : Prop :=
  ∀ (i j : ℕ) (d e : Entry Q T S V), L[i]? = some d → L[j]? = some e → d.tag = t → e.tag = t → i = j

/-- The writes of a log, in log order. -/
def writes (L : List (Entry Q T S V)) : List (S × V) := L.filterMap fun e => e.cmd.write

@[simp] theorem writes_append (L M : List (Entry Q T S V)) : writes (L ++ M) = writes L ++ writes M :=
  List.filterMap_append

/-- No two commands write the same cell. -/
def OneShot (L : List (Entry Q T S V)) : Prop := ((writes L).map Prod.fst).Nodup

theorem index_unique {α β : Type} {f : α → Option β} {l : List α} (h : (l.filterMap f).Nodup)
    {i j : ℕ} {a b : α} {c : β} (hi : l[i]? = some a) (hj : l[j]? = some b)
    (ha : f a = some c) (hb : f b = some c) : i = j := by
  rw [List.Nodup, List.pairwise_filterMap, List.pairwise_iff_getElem] at h
  obtain ⟨hil, rfl⟩ := List.getElem?_eq_some_iff.mp hi
  obtain ⟨hjl, rfl⟩ := List.getElem?_eq_some_iff.mp hj
  rcases Nat.lt_trichotomy i j with hij | hij | hij
  · exact absurd rfl (h i j hil hjl hij c ha c hb)
  · exact hij
  · exact absurd rfl (h j i hjl hil hij c hb c ha)

theorem OneShot.sole {L : List (Entry Q T S V)} (h : OneShot L) {j k : ℕ} {d e : Entry Q T S V}
    {c : S} {v w : V} (hd : L[j]? = some d) (he : L[k]? = some e)
    (hdw : d.cmd.write = some (c, v)) (hew : e.cmd.write = some (c, w)) : j = k := by
  rw [OneShot, writes, List.map_filterMap] at h
  exact index_unique (c := c) h hd he (by simp [hdw]) (by simp [hew])

/-- Distinct names are carried once each. -/
theorem once_of_tags {L : List (Entry Q (Option T) S V)} (h : (L.filterMap fun e => e.tag).Nodup)
    (t : T) : Once L (some t) :=
  fun _ _ _ _ hd he hdt het => index_unique h hd he hdt het

theorem pair_index {α : Type} {l : List α} {a b : α} (h : [a, b].Sublist l) :
    ∃ i j : ℕ, i < j ∧ l[i]? = some a ∧ l[j]? = some b := by
  obtain ⟨f, hf⟩ := List.sublist_iff_exists_orderEmbedding_getElem?_eq.mp h
  exact ⟨f 0, f 1, f.strictMono (by decide), by simpa using (hf 0).symm, by simpa using (hf 1).symm⟩

theorem triple_index {α : Type} {l : List α} {a b c : α} (h : [a, b, c].Sublist l) :
    ∃ i j k : ℕ, i < j ∧ j < k ∧ l[i]? = some a ∧ l[j]? = some b ∧ l[k]? = some c := by
  obtain ⟨f, hf⟩ := List.sublist_iff_exists_orderEmbedding_getElem?_eq.mp h
  exact ⟨f 0, f 1, f 2, f.strictMono (by decide), f.strictMono (by decide),
    by simpa using (hf 0).symm, by simpa using (hf 1).symm, by simpa using (hf 2).symm⟩

section
variable [DecidableEq Q] [DecidableEq S] [DecidableEq V]
variable {L : List (Entry Q T S V)} {mem : S → V}

/-- Whenever the second tag has started, the first one has finished. A command
is issued without finishing another, so it had finished before the start. -/
def FinishesBefore (L : List (Entry Q T S V)) (mem : S → V) (t u : T) : Prop :=
  ∀ s, Reachable L mem s → Started L s u → Finished L s t

theorem FinishesBefore.trans {t u w : T} (h : FinishesBefore L mem t u)
    (hu : ∃ e ∈ L, e.tag = u) (h' : FinishesBefore L mem u w) : FinishesBefore L mem t w := by
  intro s hs hw
  obtain ⟨e, he, het⟩ := hu
  obtain ⟨k, hk⟩ := List.mem_iff_getElem?.mp he
  exact h s hs ⟨k, e, hk, het, hs.settled_issued (h' s hs hw k e hk het)⟩

/-- A job before a drain before a later command of the same queue. -/
theorem finishesBefore_of_drain {t u : T} (ht : Once L t) (hu : Once L u) {a d b : Entry Q T S V}
    (h : [a, d, b].Sublist L) (hat : a.tag = t) (hbu : b.tag = u) (hd : d.cmd = .drain)
    (hda : d.queue = a.queue) (hdb : d.queue = b.queue) : FinishesBefore L mem t u := by
  intro s hs hstart k e he het
  obtain ⟨i, x, j, hix, hxj, hi, hx, hj⟩ := triple_index h
  obtain ⟨j', f, hf, hfu, hissued⟩ := hstart
  obtain rfl := hu j' j f b hf hj hfu hbu
  obtain rfl := ht k i e a he hi het hat
  obtain rfl : e = a := by simpa [he] using hi
  exact hs.drain_passed (hs.issued_prior hissued hj hxj hx hdb) hx hd hix he hda.symm

end

section
variable [DecidableEq Q]

/-- Along the commands of one queue, no job is launched while an undrained
earlier one stands in the given relation to it. -/
def Separated (R : T → T → Prop) (q : Q) : List T → List (Entry Q T S V) → Prop
  | _, [] => True
  | pending, e :: L =>
    if e.queue = q then
      match e.cmd with
      | .drain => Separated R q [] L
      | .launch _ => (∀ t ∈ pending, ¬ R t e.tag) ∧ Separated R q (e.tag :: pending) L
      | _ => Separated R q pending L
    else Separated R q pending L

theorem separated_cons {R : T → T → Prop} {q : Q} {pending : List T} {e : Entry Q T S V} {L : List (Entry Q T S V)} :
    Separated R q pending (e :: L) ↔
      if e.queue = q then
        match e.cmd with
        | .drain => Separated R q [] L
        | .launch _ => (∀ t ∈ pending, ¬ R t e.tag) ∧ Separated R q (e.tag :: pending) L
        | _ => Separated R q pending L
      else Separated R q pending L := Iff.rfl

theorem separated_drain {R : T → T → Prop} {q : Q} {p : List T} {e : Entry Q T S V}
    {L : List (Entry Q T S V)} (hq : e.queue = q) (hc : e.cmd = .drain) :
    Separated R q p (e :: L) ↔ Separated R q [] L := by
  rw [separated_cons, if_pos hq, hc]

theorem separated_launch {R : T → T → Prop} {q : Q} {p : List T} {e : Entry Q T S V}
    {L : List (Entry Q T S V)} (hq : e.queue = q) {done : Option (S × V)} (hc : e.cmd = .launch done) :
    Separated R q p (e :: L) ↔ (∀ t ∈ p, ¬ R t e.tag) ∧ Separated R q (e.tag :: p) L := by
  rw [separated_cons, if_pos hq, hc]

/-- Commands that neither launch nor drain in the queue do not matter. -/
theorem separated_skip {R : T → T → Prop} {q : Q} {p : List T} {M L : List (Entry Q T S V)}
    (h : ∀ e ∈ M, e.queue = q → e.cmd ≠ .drain ∧ ∀ done, e.cmd ≠ .launch done) :
    Separated R q p (M ++ L) ↔ Separated R q p L := by
  induction M with
  | nil => rfl
  | cons e M ih =>
    rw [List.cons_append, separated_cons, ih fun f hf => h f (List.mem_cons_of_mem _ hf)]
    split
    · rename_i hq
      obtain ⟨hd, hl⟩ := h e List.mem_cons_self hq
      cases hc : e.cmd with
      | drain => exact absurd hc hd
      | launch done => exact absurd hc (hl done)
      | nop | release _ _ | await _ _ | store _ _ => rfl
    · rfl

theorem Separated.mono {R : T → T → Prop} {q : Q} {L : List (Entry Q T S V)} {p p' : List T}
    (hp : ∀ t ∈ p', t ∈ p) (h : Separated R q p L) : Separated R q p' L := by
  induction L generalizing p p' with
  | nil => trivial
  | cons e L ih =>
    rw [separated_cons] at h ⊢
    split
    · rename_i hq
      rw [if_pos hq] at h
      cases hc : e.cmd with
      | drain => simpa [hc] using h
      | launch done =>
        simp only [hc] at h ⊢
        refine ⟨fun t ht => h.1 t (hp t ht), ih ?_ h.2⟩
        intro t ht
        rcases List.mem_cons.mp ht with rfl | ht
        · exact List.mem_cons_self
        · exact List.mem_cons_of_mem _ (hp t ht)
      | nop | release _ _ | await _ _ | store _ _ =>
        simp only [hc] at h ⊢
        exact ih hp h
    · rename_i hq
      rw [if_neg hq] at h
      exact ih hp h

private theorem pending_drain {R : T → T → Prop} {q : Q} {L : List (Entry Q T S V)} {pending : List T}
    (h : Separated R q pending L) {t : T} (ht : t ∈ pending) {j : ℕ} {e : Entry Q T S V}
    (he : L[j]? = some e) (heq : e.queue = q) {done : Option (S × V)} (hc : e.cmd = .launch done)
    (hR : R t e.tag) : ∃ k d, k < j ∧ L[k]? = some d ∧ d.queue = q ∧ d.cmd = .drain := by
  induction L generalizing pending j with
  | nil => simp at he
  | cons f L ih =>
    rw [separated_cons] at h
    cases j with
    | zero =>
      obtain rfl : f = e := by simpa using he
      rw [if_pos heq, hc] at h
      exact absurd hR (h.1 t ht)
    | succ j =>
      have step {p : List T} (hs : Separated R q p L) (hp : t ∈ p) :
          ∃ k d, k < j + 1 ∧ (f :: L)[k]? = some d ∧ d.queue = q ∧ d.cmd = .drain := by
        obtain ⟨k, d, hk, hd, hq, hdc⟩ := ih hs hp (by simpa using he)
        exact ⟨k + 1, d, by omega, by simpa using hd, hq, hdc⟩
      split at h
      · rename_i hq
        cases hf : f.cmd with
        | drain => exact ⟨0, f, by omega, rfl, hq, hf⟩
        | launch done' =>
          rw [hf] at h
          exact step h.2 (List.mem_cons_of_mem _ ht)
        | nop | release _ _ | await _ _ | store _ _ =>
          rw [hf] at h
          exact step h ht
      · exact step h ht

/-- Related jobs of a separated queue have a drain between them. -/
theorem Separated.exists_drain {R : T → T → Prop} {q : Q} {L : List (Entry Q T S V)}
    {pending : List T} (h : Separated R q pending L) {i j : ℕ} (hij : i < j)
    {d e : Entry Q T S V} (hd : L[i]? = some d) (he : L[j]? = some e)
    (hdq : d.queue = q) (heq : e.queue = q) {x y : Option (S × V)} (hdc : d.cmd = .launch x)
    (hec : e.cmd = .launch y) (hR : R d.tag e.tag) :
    ∃ k f, i < k ∧ k < j ∧ L[k]? = some f ∧ f.queue = q ∧ f.cmd = .drain := by
  induction L generalizing pending i j with
  | nil => simp at hd
  | cons g L ih =>
    obtain ⟨j, rfl⟩ : ∃ m, j = m + 1 := ⟨j - 1, by omega⟩
    rw [separated_cons] at h
    cases i with
    | zero =>
      obtain rfl : g = d := by simpa using hd
      rw [if_pos hdq, hdc] at h
      obtain ⟨k, f, hk, hf, hfq, hfc⟩ :=
        pending_drain h.2 List.mem_cons_self (by simpa using he) heq hec hR
      exact ⟨k + 1, f, by omega, by omega, by simpa using hf, hfq, hfc⟩
    | succ i =>
      have step {p : List T} (hs : Separated R q p L) :
          ∃ k f, i + 1 < k ∧ k < j + 1 ∧ (g :: L)[k]? = some f ∧ f.queue = q ∧ f.cmd = .drain := by
        obtain ⟨k, f, hik, hkj, hf, hfq, hfc⟩ :=
          ih (i := i) (j := j) hs (by omega) (by simpa using hd) (by simpa using he)
        exact ⟨k + 1, f, by omega, by omega, by simpa using hf, hfq, hfc⟩
      split at h
      · cases hg : g.cmd with
        | launch _ =>
          rw [hg] at h
          exact step h.2
        | drain | nop | release _ _ | await _ _ | store _ _ =>
          rw [hg] at h
          exact step h
      · exact step h

/-- In every execution of a separated queue, a related earlier job finishes
before the later one starts. -/
theorem Separated.settled [DecidableEq S] [DecidableEq V] {R : T → T → Prop} {q : Q}
    {L : List (Entry Q T S V)} {mem : S → V} (h : Separated R q [] L) {s : State S V}
    (hs : Reachable L mem s) {i j : ℕ} (hij : i < j) {d e : Entry Q T S V} (hd : L[i]? = some d)
    (he : L[j]? = some e) (hdq : d.queue = q) (heq : e.queue = q) {x y : Option (S × V)}
    (hdc : d.cmd = .launch x) (hec : e.cmd = .launch y) (hR : R d.tag e.tag)
    (hj : s.issued j = true) : s.fin i = true := by
  obtain ⟨k, f, hik, hkj, hf, hfq, hfc⟩ := h.exists_drain hij hd he hdq heq hdc hec hR
  have hk := hs.issued_prior hj he hkj hf (hfq.trans heq.symm)
  simpa [Queue.settled, hdc, Cmd.isAsync] using
    hs.drain_passed hk hf hfc hik hd (hdq.trans hfq.symm)

theorem Separated.finishesBefore [DecidableEq S] [DecidableEq V] {R : T → T → Prop} {q : Q}
    {L : List (Entry Q T S V)} {mem : S → V} (h : Separated R q [] L) {t u : T} (ht : Once L t)
    (hu : Once L u) {a b : Entry Q T S V} (hab : [a, b].Sublist L) (hat : a.tag = t) (hbu : b.tag = u)
    (haq : a.queue = q) (hbq : b.queue = q) {x y : Option (S × V)} (hac : a.cmd = .launch x)
    (hbc : b.cmd = .launch y) (hR : R t u) : FinishesBefore L mem t u := by
  intro s hs hstart k e he het
  obtain ⟨i, j, hij, hi, hj⟩ := pair_index hab
  obtain ⟨j', f, hf, hfu, hissued⟩ := hstart
  obtain rfl := hu j' j f b hf hj hfu hbu
  obtain rfl := ht k i e a he hi het hat
  obtain rfl : e = a := by simpa [he] using hi
  have hfin := h.settled hs hij hi hj haq hbq hac hbc (by rwa [hat, hbu]) hissued
  simpa [Queue.settled, hac, Cmd.isAsync] using hfin

end
end Hipscope.Queue
