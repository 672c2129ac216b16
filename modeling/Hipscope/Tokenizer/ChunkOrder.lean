import Hipscope.Tokenizer.Chunk

/-! The priority queue merges what the plain loop merges: every entry that is not stale
describes two live neighbours, and every pair with a rule is queued. -/
namespace Hipscope.Tokenizer

section Adjacent
variable {α β : Type} {xs P S : List α} {a b : α} {x : α × α}

@[simp] theorem adjacent_cons_cons (a b : α) (xs : List α) : adjacent (a :: b :: xs) = (a, b) :: adjacent (b :: xs) := rfl

theorem adjacent_append (P S : List α) (a : α) :
    adjacent (P ++ a :: S) = adjacent (P ++ [a]) ++ adjacent (a :: S) := by
  induction P with
  | nil => rfl
  | cons p P ih =>
    cases P with
    | nil => rfl
    | cons q P => simpa using ih

theorem adjacent_map (f : α → β) (xs : List α) : adjacent (xs.map f) = (adjacent xs).map (Prod.map f f) := by
  rw [adjacent, adjacent, ← List.map_tail, List.zip_map]

theorem mem_adjacent_iff : x ∈ adjacent xs ↔ ∃ P S, xs = P ++ x.1 :: x.2 :: S := by
  constructor
  · intro h
    induction xs with
    | nil => cases h
    | cons y xs ih =>
      cases xs with
      | nil => cases h
      | cons z xs =>
        rw [adjacent_cons_cons, List.mem_cons] at h
        rcases h with rfl | h
        · exact ⟨[], xs, rfl⟩
        · obtain ⟨P, S, hP⟩ := ih h
          exact ⟨y :: P, S, by rw [hP]; rfl⟩
  · rintro ⟨P, S, rfl⟩
    rw [adjacent_append]
    exact List.mem_append_right _ (by simp)

theorem adjacent_left (h : x ∈ adjacent P) (S : List α) : x ∈ adjacent (P ++ S) := by
  obtain ⟨P', S', rfl⟩ := mem_adjacent_iff.1 h
  exact mem_adjacent_iff.2 ⟨P', S' ++ S, by simp⟩

theorem adjacent_right (P : List α) (h : x ∈ adjacent S) : x ∈ adjacent (P ++ S) := by
  obtain ⟨P', S', rfl⟩ := mem_adjacent_iff.1 h
  exact mem_adjacent_iff.2 ⟨P ++ P', S', by simp⟩

/-- A pair of a list with one more element at the end. -/
theorem mem_adjacent_concat (h : x ∈ adjacent (P ++ [a])) :
    x ∈ adjacent P ∨ (x.2 = a ∧ P.getLast? = some x.1) := by
  induction P with
  | nil => cases h
  | cons p P ih =>
    cases P with
    | nil =>
      obtain rfl := List.mem_singleton.1 h
      exact .inr ⟨rfl, rfl⟩
    | cons q P =>
      rw [List.cons_append, List.cons_append, adjacent_cons_cons, List.mem_cons] at h
      rcases h with rfl | h
      · exact .inl (by simp)
      · rcases ih h with hin | ⟨hlast, hget⟩
        · exact .inl (by rw [adjacent_cons_cons]; exact List.mem_cons_of_mem _ hin)
        · exact .inr ⟨hlast, by rwa [List.getLast?_cons_cons]⟩

/-- Dropping `b` and replacing `a` keeps the pairs they are not part of. -/
theorem adjacent_replace (h : x ∈ adjacent (P ++ a :: b :: S)) (ha : x.1 ≠ a) (hb : x.1 ≠ b) (ha' : x.2 ≠ a)
    (c : α) : x ∈ adjacent (P ++ c :: S) := by
  rw [adjacent_append, adjacent_cons_cons, List.mem_append, List.mem_cons] at h
  rcases h with h | rfl | h
  · rcases mem_adjacent_concat h with h | ⟨h, -⟩
    · exact adjacent_left h _
    · exact absurd h ha'
  · exact absurd rfl ha
  · cases S with
    | nil => cases h
    | cons d S =>
      rw [adjacent_cons_cons, List.mem_cons] at h
      rcases h with rfl | h
      · exact absurd rfl hb
      · exact adjacent_right P (adjacent_right [c] h)

theorem adjacent_restore {c : α} (h : x ∈ adjacent (P ++ c :: S)) (hc : x.1 ≠ c) (hc' : x.2 ≠ c) (a b : α) :
    x ∈ adjacent (P ++ a :: b :: S) := by
  rw [adjacent_append, List.mem_append] at h
  rcases h with h | h
  · rcases mem_adjacent_concat h with h | ⟨h, -⟩
    · exact adjacent_left h _
    · exact absurd h hc'
  · cases S with
    | nil => cases h
    | cons d S =>
      rw [adjacent_cons_cons, List.mem_cons] at h
      rcases h with rfl | h
      · exact absurd rfl hc
      · exact adjacent_right P (adjacent_right [a, b] h)

theorem mergeFirst_append {rank : α × α → Option ℕ} {best : ℕ} (result : α) (hpair : rank (a, b) = some best)
    (hearlier : ∀ x ∈ adjacent (P ++ [a]), rank x ≠ some best) (S : List α) :
    mergeFirst rank best result (P ++ a :: b :: S) = P ++ result :: S := by
  induction P with
  | nil => rw [List.nil_append, mergeFirst, if_pos hpair, List.nil_append]
  | cons p P ih =>
    cases P with
    | nil =>
      have := hearlier (p, a) (by simp [adjacent])
      rw [List.cons_append, List.nil_append, mergeFirst, if_neg this]
      exact congrArg (p :: ·) (ih fun x hx => by cases hx)
    | cons q P =>
      have := hearlier (p, q) (by simp)
      rw [List.cons_append, List.cons_append, mergeFirst, if_neg this]
      exact congrArg (p :: ·) (ih fun x hx => hearlier x (by simpa using .inr hx))

end Adjacent

/-- The first slot of a list, or the end mark. -/
def headSlot : List (ℕ × TokenId) → ℤ
  | [] => -1
  | (i, _) :: _ => i

/-- The last slot of a list, or `p`. -/
def lastSlot (p : ℤ) : List (ℕ × TokenId) → ℤ
  | [] => p
  | (i, _) :: rest => lastSlot i rest

/-- The live slots with their symbols, linked both ways; `p` is the slot before. -/
def Linked (s : ChunkState) : ℤ → List (ℕ × TokenId) → Prop
  | _, [] => True
  | p, (i, a) :: rest => s.syms[i]? = some a ∧ s.prev[i]? = some p ∧ s.next[i]? = some (headSlot rest) ∧
      s.dead[i]? = some false ∧ Linked s i rest

@[simp] theorem lastSlot_concat (p : ℤ) (P : List (ℕ × TokenId)) (i : ℕ) (a : TokenId) :
    lastSlot p (P ++ [(i, a)]) = i := by
  induction P generalizing p with
  | nil => rfl
  | cons q P ih => exact ih _

section Linked
variable {s s' : ChunkState} {p : ℤ} {P S L : List (ℕ × TokenId)} {i l r : ℕ} {a b result : TokenId}

theorem Linked.at_slot (h : Linked s p (P ++ (i, a) :: S)) :
    s.syms[i]? = some a ∧ s.prev[i]? = some (lastSlot p P) ∧ s.next[i]? = some (headSlot S) ∧
      s.dead[i]? = some false ∧ Linked s i S := by
  induction P generalizing p with
  | nil => exact h
  | cons q P ih => exact ih h.2.2.2.2

/-- Only the fields of its own slots matter to a list. -/
theorem Linked.frame (h : Linked s p L) (hsame : ∀ i ∈ L.map Prod.fst, s'.syms[i]? = s.syms[i]? ∧
    s'.prev[i]? = s.prev[i]? ∧ s'.next[i]? = s.next[i]? ∧ s'.dead[i]? = s.dead[i]?) : Linked s' p L := by
  induction L generalizing p with
  | nil => trivial
  | cons q L ih =>
    obtain ⟨hsym, hprev, hnext, hdead, hrest⟩ := h
    obtain ⟨hsym', hprev', hnext', hdead'⟩ := hsame q.1 (by simp)
    refine ⟨hsym'.trans hsym, hprev'.trans hprev, hnext'.trans hnext, hdead'.trans hdead, ih hrest fun i hi => ?_⟩
    exact hsame i (by rw [List.map_cons]; exact List.mem_cons_of_mem _ hi)

/-- What absorbing `r` into `l` writes. -/
structure Absorbed (s s' : ChunkState) (l r : ℕ) (nr : ℤ) (result : TokenId) : Prop where
  syms : s'.syms = s.syms.set l result
  dead : s'.dead = s.dead.set r true
  next : s'.next = s.next.set l nr
  prev : s'.prev = if 0 ≤ nr then s.prev.set nr.toNat l else s.prev

private theorem getElem?_set_of_some {α : Type} {xs : List α} {i : ℕ} {old : α} (h : xs[i]? = some old) (new : α) :
    (xs.set i new)[i]? = some new :=
  List.getElem?_set_self (List.getElem?_eq_some_iff.1 h).1

/-- A slot apart from the two and the one after them is left alone. -/
theorem Absorbed.other (hwrites : Absorbed s s' l r (headSlot S) result) (hl : i ≠ l) (hr : i ≠ r)
    (hhead : headSlot S ≠ i) : s'.syms[i]? = s.syms[i]? ∧ s'.prev[i]? = s.prev[i]? ∧
      s'.next[i]? = s.next[i]? ∧ s'.dead[i]? = s.dead[i]? := by
  refine ⟨?_, ?_, ?_, ?_⟩
  · rw [hwrites.syms, List.getElem?_set_ne hl.symm]
  · rw [hwrites.prev]
    split
    · rw [List.getElem?_set_ne]
      omega
    · rfl
  · rw [hwrites.next, List.getElem?_set_ne hl.symm]
  · rw [hwrites.dead, List.getElem?_set_ne hr.symm]

private theorem headSlot_ne (h : i ∉ S.map Prod.fst) : headSlot S ≠ i := by
  cases S with
  | nil => rw [headSlot]; omega
  | cons q S =>
    intro heq
    rw [headSlot] at heq
    refine h ?_
    rw [List.map_cons, List.mem_cons]
    exact .inl (by omega)

/-- The rest of the list after the two slots. -/
private theorem Linked.absorb_rest (h : Linked s r S) (hnodup : (l :: r :: S.map Prod.fst).Nodup)
    (hwrites : Absorbed s s' l r (headSlot S) result) : Linked s' l S := by
  cases S with
  | nil => trivial
  | cons q S =>
    obtain ⟨m, c⟩ := q
    obtain ⟨hsym, hprev, hnext, hdead, hrest⟩ := h
    simp only [List.map_cons, List.nodup_cons, List.mem_cons, not_or] at hnodup
    obtain ⟨⟨hlr, hlm, hlS⟩, ⟨hrm, hrS⟩, hmS, hS⟩ := hnodup
    refine ⟨?_, ?_, ?_, ?_, hrest.frame fun i hi => hwrites.other ?_ ?_ ?_⟩
    · rw [hwrites.syms, List.getElem?_set_ne hlm, hsym]
    · rw [hwrites.prev, headSlot, if_pos (by omega), Int.toNat_natCast, getElem?_set_of_some hprev]
    · rw [hwrites.next, List.getElem?_set_ne hlm, hnext]
    · rw [hwrites.dead, List.getElem?_set_ne hrm, hdead]
    · rintro rfl
      exact hlS hi
    · rintro rfl
      exact hrS hi
    · rw [headSlot]
      rintro heq
      exact hmS (by rwa [show m = i by omega])

theorem Linked.absorb (h : Linked s p (P ++ (l, a) :: (r, b) :: S))
    (hnodup : ((P ++ (l, a) :: (r, b) :: S).map Prod.fst).Nodup)
    (hwrites : Absorbed s s' l r (headSlot S) result) : Linked s' p (P ++ (l, result) :: S) := by
  induction P generalizing p with
  | nil =>
    obtain ⟨hsym, hprev, hnext, hdead, hrest⟩ := h
    have hS := hnodup
    simp only [List.nil_append, List.map_cons, List.nodup_cons, List.mem_cons, not_or] at hnodup
    obtain ⟨⟨hlr, hlS⟩, hrS, -⟩ := hnodup
    refine ⟨?_, ?_, ?_, ?_, hrest.2.2.2.2.absorb_rest hS hwrites⟩
    · rw [hwrites.syms, getElem?_set_of_some hsym]
    · rw [hwrites.prev]
      split
      · have := headSlot_ne hlS
        rw [List.getElem?_set_ne (by omega), hprev]
      · exact hprev
    · rw [hwrites.next, getElem?_set_of_some hnext]
    · rw [hwrites.dead, List.getElem?_set_ne (Ne.symm hlr), hdead]
  | cons q P ih =>
    obtain ⟨j, c⟩ := q
    obtain ⟨hsym, hprev, hnext, hdead, hrest⟩ := h
    simp only [List.cons_append, List.map_cons, List.nodup_cons] at hnodup
    obtain ⟨hj, hnodup⟩ := hnodup
    simp only [List.map_append, List.map_cons, List.mem_append, List.mem_cons, not_or] at hj
    obtain ⟨-, hjl, hjr, hjS⟩ := hj
    obtain ⟨hsym', hprev', hnext', hdead'⟩ := hwrites.other hjl hjr (headSlot_ne hjS)
    refine ⟨hsym'.trans hsym, hprev'.trans hprev, ?_, hdead'.trans hdead, ih hrest hnodup⟩
    rw [hnext', hnext]
    cases P <;> rfl

end Linked
/-- The rank of two neighbouring slots' symbols. -/
def slotRank (ranks : PairRanks) (x : (ℕ × TokenId) × (ℕ × TokenId)) : Option ℕ := ranks.lookup (x.1.2, x.2.2)

/-- The state holds the live list; entries that are not stale describe neighbours, and every
pair with a rule is queued at its slot's generation, unless it is still owed. -/
structure Tracks (ranks : PairRanks) (n : ℕ) (owed : (ℕ × TokenId) × (ℕ × TokenId) → Prop) (s : ChunkState)
    (L : List (ℕ × TokenId)) : Prop where
  linked : Linked s (-1) L
  increasing : (L.map Prod.fst).Pairwise (· < ·)
  lengths : s.syms.length = n ∧ s.prev.length = n ∧ s.next.length = n ∧ s.dead.length = n ∧ s.gen.length = n
  gens : ∀ (i g : ℕ), s.gen[i]? = some g → g + L.length ≤ n
  valid : ∀ e ∈ s.heap, s.dead[e.left]? = some false → s.gen[e.left]? = some e.gen →
    ∃ x ∈ adjacent L, x.1.1 = e.left ∧ slotRank ranks x = some e.rank
  queued : ∀ x ∈ adjacent L, ¬ owed x → ∀ rank, slotRank ranks x = some rank →
    ∃ g, s.gen[x.1.1]? = some g ∧ ⟨rank, x.1.1, g⟩ ∈ s.heap
  old : ∀ e ∈ s.heap, ∃ g, s.gen[e.left]? = some g ∧ e.gen ≤ g

namespace Tracks
variable {ranks : PairRanks} {n : ℕ} {owed : (ℕ × TokenId) × (ℕ × TokenId) → Prop} {s : ChunkState}
  {L : List (ℕ × TokenId)} {x : (ℕ × TokenId) × (ℕ × TokenId)}

theorem nodup (h : Tracks ranks n owed s L) : (L.map Prod.fst).Nodup :=
  h.increasing.imp Nat.ne_of_lt

/-- What the state holds at two neighbours. -/
theorem at_pair (h : Tracks ranks n owed s L) (hx : x ∈ adjacent L) :
    s.syms[x.1.1]? = some x.1.2 ∧ s.syms[x.2.1]? = some x.2.2 ∧ s.next[x.1.1]? = some (x.2.1 : ℤ) ∧
      s.dead[x.1.1]? = some false ∧ s.prev[x.2.1]? = some (x.1.1 : ℤ) ∧ x.1.1 < n := by
  obtain ⟨P, S, rfl⟩ := mem_adjacent_iff.1 hx
  obtain ⟨hsym, -, hnext, hdead, hrest⟩ := h.linked.at_slot
  refine ⟨hsym, hrest.1, hnext, hdead, hrest.2.1, ?_⟩
  rw [← h.lengths.1]
  exact (List.getElem?_eq_some_iff.1 hsym).1

theorem gen_at (h : Tracks ranks n owed s L) {i : ℕ} (hi : i < n) : ∃ g, s.gen[i]? = some g :=
  ⟨s.gen.get ⟨i, h.lengths.2.2.2.2.symm ▸ hi⟩, List.getElem?_eq_getElem _⟩

theorem mono (h : Tracks ranks n owed s L) {owed' : (ℕ × TokenId) × (ℕ × TokenId) → Prop}
    (howed : ∀ x ∈ adjacent L, owed x → owed' x) : Tracks ranks n owed' s L :=
  { h with queued := fun x hx hnot => h.queued x hx fun ho => hnot (howed x hx ho) }

/-- The queue is no part of the list. -/
theorem requeue (h : Tracks ranks n owed s L) (heap : List Entry) : Linked { s with heap := heap } (-1) L :=
  h.linked.frame fun _ _ => ⟨rfl, rfl, rfl, rfl⟩

/-- Queueing a pair of neighbours pays what is owed for it. -/
theorem push (h : Tracks ranks n owed s L) (hx : x ∈ adjacent L) :
    ∃ s', pushPair ranks s x.1.1 x.2.1 = some s' ∧ Tracks ranks n (fun y => owed y ∧ y ≠ x) s' L ∧
      s'.heap.length ≤ s.heap.length + 1 := by
  obtain ⟨hl, hr, hnext, hdead, -, hlt⟩ := h.at_pair hx
  obtain ⟨g, hg⟩ := h.gen_at hlt
  simp only [pushPair, hl, hr, hg, Option.bind_eq_bind, Option.bind_some]
  cases hrank : ranks.lookup (x.1.2, x.2.2) with
  | none =>
    refine ⟨s, rfl, { h with queued := fun y hy hnot rank hy' => ?_ }, Nat.le_succ _⟩
    refine h.queued y hy (fun ho => hnot ⟨ho, ?_⟩) rank hy'
    rintro rfl
    rw [slotRank, hrank] at hy'
    cases hy'
  | some rank =>
    refine ⟨_, rfl, { h with linked := h.requeue _, valid := ?_, queued := ?_, old := ?_ }, Nat.le_refl _⟩
    · intro e he hdead' hgen
      rcases List.mem_cons.1 he with rfl | he
      · exact ⟨x, hx, rfl, hrank⟩
      · exact h.valid e he hdead' hgen
    · intro y hy hnot rank' hy'
      by_cases heq : y = x
      · subst heq
        rw [slotRank, hrank, Option.some.injEq] at hy'
        subst hy'
        exact ⟨g, hg, List.mem_cons_self⟩
      · obtain ⟨g', hg', hmem⟩ := h.queued y hy (fun ho => hnot ⟨ho, heq⟩) rank' hy'
        exact ⟨g', hg', List.mem_cons_of_mem _ hmem⟩
    · intro e he
      rcases List.mem_cons.1 he with rfl | he
      · exact ⟨g, hg, Nat.le_refl g⟩
      · exact h.old e he

/-- A stale entry may be dropped. -/
theorem drop_stale (h : Tracks ranks n owed s L) {e : Entry}
    (hstale : s.dead[e.left]? ≠ some false ∨ s.gen[e.left]? ≠ some e.gen) :
    Tracks ranks n owed { s with heap := s.heap.erase e } L :=
  { h with
    linked := h.requeue _
    valid := fun e' he' => h.valid e' (List.mem_of_mem_erase he')
    queued := fun x hx hnot rank hrank => by
      obtain ⟨g, hg, hmem⟩ := h.queued x hx hnot rank hrank
      refine ⟨g, hg, (List.mem_erase_of_ne ?_).2 hmem⟩
      rintro rfl
      rcases hstale with hdead | hgen
      · exact hdead (h.at_pair hx).2.2.2.1
      · exact hgen hg
    old := fun e' he' => h.old e' (List.mem_of_mem_erase he') }

/-- The least entry, if it is not stale, is the leftmost pair of lowest rank. -/
theorem least (h : Tracks ranks n (fun _ => False) s L) {e : Entry} (he : e ∈ s.heap.argmin Entry.key)
    (hx : x ∈ adjacent L) {rank : ℕ} (hrank : slotRank ranks x = some rank) :
    e.rank ≤ rank ∧ (rank = e.rank → e.left ≤ x.1.1) := by
  obtain ⟨g, -, hmem⟩ := h.queued x hx (fun h => h) rank hrank
  have hle := List.le_of_mem_argmin hmem he
  simp only [Entry.key, Prod.Lex.toLex_le_toLex] at hle
  omega

/-- A left slot has one right neighbour. -/
theorem pair_unique (h : Tracks ranks n owed s L) {y : (ℕ × TokenId) × (ℕ × TokenId)} (hx : x ∈ adjacent L)
    (hy : y ∈ adjacent L) (hleft : y.1.1 = x.1.1) : y = x := by
  obtain ⟨hsx, htx, hnx, -⟩ := h.at_pair hx
  obtain ⟨hsy, hty, hny, -⟩ := h.at_pair hy
  have hright : y.2.1 = x.2.1 := by
    rw [hleft, hnx] at hny
    have := Option.some.inj hny
    omega
  rw [hleft, hsx] at hsy
  rw [hright, htx] at hty
  exact Prod.ext (Prod.ext hleft (Option.some.inj hsy).symm) (Prod.ext hright (Option.some.inj hty).symm)

/-- The least entry is taken out; its own pair is owed from then on. -/
theorem drop_valid (h : Tracks ranks n (fun _ => False) s L) (hx : x ∈ adjacent L) {e : Entry} (he : e.left = x.1.1) :
    Tracks ranks n (fun y => y = x) { s with heap := s.heap.erase e } L :=
  { h with
    linked := h.requeue _
    valid := fun e' he' => h.valid e' (List.mem_of_mem_erase he')
    queued := fun y hy hnot rank hrank => by
      obtain ⟨g, hg, hmem⟩ := h.queued y hy (fun ho => ho) rank hrank
      refine ⟨g, hg, (List.mem_erase_of_ne ?_).2 hmem⟩
      rintro rfl
      exact hnot (h.pair_unique hx hy he)
    old := fun e' he' => h.old e' (List.mem_of_mem_erase he') }

/-- The same for two slots, either of which may be the end of the list. -/
theorem push_slots (h : Tracks ranks n owed s L) {i j : ℤ}
    (hpair : 0 ≤ i → 0 ≤ j → ∃ x ∈ adjacent L, (x.1.1 : ℤ) = i ∧ (x.2.1 : ℤ) = j) :
    ∃ s', pushSlots ranks s i j = some s' ∧
      Tracks ranks n (fun y => owed y ∧ ¬((y.1.1 : ℤ) = i ∧ (y.2.1 : ℤ) = j)) s' L ∧
        s'.heap.length ≤ s.heap.length + 1 := by
  rw [pushSlots]
  split
  · rename_i hpos
    obtain ⟨x, hx, hi, hj⟩ := hpair hpos.1 hpos.2
    obtain ⟨s', hpush, htracks, hlen⟩ := h.push hx
    rw [← hi, ← hj, Int.toNat_natCast, Int.toNat_natCast]
    refine ⟨s', hpush, htracks.mono fun y hy hy' => ⟨hy'.1, fun heq => hy'.2 ?_⟩, hlen⟩
    exact h.pair_unique hx hy (by omega)
  · rename_i hneg
    refine ⟨s, rfl, h.mono fun y _ ho => ⟨ho, fun heq => hneg ?_⟩, Nat.le_succ _⟩
    omega

end Tracks

private theorem bump_ok {gen : List ℕ} {i g : ℕ} (hg : gen[i]? = some g) (hlt : g + 1 < 2 ^ 32) :
    bump gen i = some (gen.set i (g + 1)) := by
  simp only [bump, hg, Option.bind_eq_bind, Option.bind_some, if_pos hlt, setAt]
  rw [if_pos (List.getElem?_eq_some_iff.1 hg).1]

/-- The generations of `l` and of the slot `pl`, if there is one, have gone up by one. -/
structure Bumped (gen gen' : List ℕ) (l : ℕ) (pl : ℤ) : Prop where
  length : gen'.length = gen.length
  moved : ∀ (i g : ℕ), gen[i]? = some g → i = l ∨ (i : ℤ) = pl → gen'[i]? = some (g + 1)
  kept : ∀ i : ℕ, i ≠ l → (i : ℤ) ≠ pl → gen'[i]? = gen[i]?

theorem bump_both {gen : List ℕ} {l g : ℕ} {pl : ℤ} (hg : gen[l]? = some g)
    (hlt : ∀ (i g : ℕ), gen[i]? = some g → g + 1 < 2 ^ 32)
    (hne : pl ≠ l) (hpl : 0 ≤ pl → pl.toNat < gen.length) :
    ∃ gen', ((if 0 ≤ pl then bump (gen.set l (g + 1)) pl.toNat else some (gen.set l (g + 1))) = some gen') ∧
      Bumped gen gen' l pl := by
  split
  · rename_i hpos
    have hgp := List.getElem?_eq_getElem (hpl hpos)
    have hne' : l ≠ pl.toNat := by omega
    have hgp' : (gen.set l (g + 1))[pl.toNat]? = some gen[pl.toNat] := by
      rw [List.getElem?_set_ne hne', hgp]
    refine ⟨_, bump_ok hgp' (hlt _ _ hgp), by simp, ?_, ?_⟩
    · rintro i g' hg' (rfl | hi)
      · rw [List.getElem?_set_ne (Ne.symm hne'), List.getElem?_set_self (List.getElem?_eq_some_iff.1 hg').1]
        rw [hg, Option.some.injEq] at hg'
        rw [hg']
      · have hi' : pl.toNat = i := by omega
        subst hi'
        rw [hgp, Option.some.injEq] at hg'
        rw [List.getElem?_set_self (by simpa using hpl hpos), hg']
    · intro i hi hi'
      rw [List.getElem?_set_ne (by omega), List.getElem?_set_ne hi.symm]
  · rename_i hneg
    refine ⟨_, rfl, by simp, ?_, ?_⟩
    · rintro i g' hg' (rfl | hi)
      · rw [hg, Option.some.injEq] at hg'
        rw [List.getElem?_set_self (List.getElem?_eq_some_iff.1 hg).1, hg']
      · omega
    · intro i hi _
      rw [List.getElem?_set_ne hi.symm]

private theorem setAt_ok {α : Type} {xs : List α} {i : ℕ} (h : i < xs.length) (a : α) :
    setAt xs i a = some (xs.set i a) := by
  rw [setAt, if_pos h]

/-- The pair of the slot before, if there is one, with the slot. -/
private theorem exists_before {P : List (ℕ × TokenId)} (hpos : 0 ≤ lastSlot (-1) P) (a : ℕ × TokenId)
    (S : List (ℕ × TokenId)) :
    ∃ x ∈ adjacent (P ++ a :: S), (x.1.1 : ℤ) = lastSlot (-1) P ∧ x.2 = a := by
  rcases List.eq_nil_or_concat P with rfl | ⟨P, ⟨i, c⟩, rfl⟩
  · rw [lastSlot] at hpos
    omega
  · refine ⟨((i, c), a), mem_adjacent_iff.2 ⟨P, S, by simp⟩, ?_, rfl⟩
    rw [List.concat_eq_append, lastSlot_concat]

section Absorb
variable {merges : List TokenId} {ranks : PairRanks} {n rank l r : ℕ} {s : ChunkState} {P S : List (ℕ × TokenId)}
  {a b result : TokenId} {owed : (ℕ × TokenId) × (ℕ × TokenId) → Prop}

/-- The state after the writes of a merge, before the new pairs are queued. -/
private theorem absorb_writes (h : Tracks ranks n (fun y => y = ((l, a), (r, b))) s (P ++ (l, a) :: (r, b) :: S))
    {s' : ChunkState} (hwrites : Absorbed s s' l r (headSlot S) result) (hheap : s'.heap = s.heap)
    (hbumped : Bumped s.gen s'.gen l (lastSlot (-1) P)) :
    Tracks ranks n (fun y => y.1.1 = l ∨ y.2.1 = l) s' (P ++ (l, result) :: S) := by
  have hpair : ((l, a), (r, b)) ∈ adjacent (P ++ (l, a) :: (r, b) :: S) := mem_adjacent_iff.2 ⟨P, S, rfl⟩
  obtain ⟨-, -, -, hdeadl, hprevr, hln⟩ := h.at_pair hpair
  obtain ⟨-, hprevl, -⟩ := h.linked.at_slot
  have hnodup := h.nodup
  obtain ⟨hsyms, hprev, hnext, hdead, hgen⟩ := h.lengths
  refine ⟨h.linked.absorb hnodup hwrites, ?_, ⟨?_, ?_, ?_, ?_, ?_⟩, ?_, ?_, ?_, ?_⟩
  · refine h.increasing.sublist ?_
    simp only [List.map_append, List.map_cons]
    exact (List.Sublist.refl _).append ((List.sublist_cons_self r _).cons_cons l)
  · rw [hwrites.syms, List.length_set, hsyms]
  · rw [hwrites.prev]
    split
    · rw [List.length_set, hprev]
    · exact hprev
  · rw [hwrites.next, List.length_set, hnext]
  · rw [hwrites.dead, List.length_set, hdead]
  · rw [hbumped.length, hgen]
  · intro i g' hg'
    have hi : i < s.gen.length := hbumped.length ▸ (List.getElem?_eq_some_iff.1 hg').1
    have hg := List.getElem?_eq_getElem hi
    have hbound := h.gens i _ hg
    simp only [List.length_append, List.length_cons] at hbound ⊢
    by_cases hmoved : i = l ∨ (i : ℤ) = lastSlot (-1) P
    · rw [hbumped.moved i _ hg hmoved, Option.some.injEq] at hg'
      omega
    · rw [hbumped.kept i (fun hi => hmoved (.inl hi)) fun hi => hmoved (.inr hi), hg, Option.some.injEq] at hg'
      omega
  · intro e he hdead' hgen'
    rw [hheap] at he
    obtain ⟨g, hg, hle⟩ := h.old e he
    have hstill : ¬(e.left = l ∨ (e.left : ℤ) = lastSlot (-1) P) := by
      intro hmoved
      rw [hbumped.moved _ _ hg hmoved, Option.some.injEq] at hgen'
      omega
    rw [hbumped.kept _ (fun hl => hstill (.inl hl)) fun hl => hstill (.inr hl)] at hgen'
    have hr : e.left ≠ r := by
      intro hr
      rw [hr, hwrites.dead] at hdead'
      by_cases hin : r < s.dead.length
      · rw [List.getElem?_set_self hin] at hdead'
        cases hdead'
      · rw [List.getElem?_eq_none (by rw [List.length_set]; omega)] at hdead'
        cases hdead'
    rw [hwrites.dead, List.getElem?_set_ne hr.symm] at hdead'
    obtain ⟨x, hx, hleft, hrank⟩ := h.valid e he hdead' hgen'
    refine ⟨x, adjacent_replace hx ?_ ?_ ?_ _, hleft, hrank⟩
    · intro heq
      exact hstill (.inl (by rw [← hleft, heq]))
    · intro heq
      exact hr (by rw [← hleft, heq])
    · intro heq
      obtain ⟨-, -, -, -, hprevx, -⟩ := h.at_pair hx
      rw [heq, hprevl, Option.some.injEq] at hprevx
      exact hstill (.inr (by rw [← hleft, hprevx]))
  · intro y hy hfree rank' hrank'
    simp only [not_or] at hfree
    have hold : y ∈ adjacent (P ++ (l, a) :: (r, b) :: S) :=
      adjacent_restore hy (fun heq => hfree.1 (by rw [heq])) (fun heq => hfree.2 (by rw [heq])) _ _
    obtain ⟨g, hg, hmem⟩ := h.queued y hold (fun heq => hfree.1 (by rw [heq])) rank' hrank'
    obtain ⟨-, -, hnexty, -⟩ := h.at_pair hold
    refine ⟨g, ?_, hheap ▸ hmem⟩
    rw [hbumped.kept _ hfree.1, hg]
    intro heq
    have hpos : 0 ≤ lastSlot (-1) P := by omega
    obtain ⟨x, hx, hleft, hright⟩ := exists_before hpos (l, a) ((r, b) :: S)
    have hsame := h.pair_unique hx hold (by omega)
    exact hfree.2 (by rw [hsame, hright])
  · intro e he
    rw [hheap] at he
    obtain ⟨g, hg, hle⟩ := h.old e he
    by_cases hmoved : e.left = l ∨ (e.left : ℤ) = lastSlot (-1) P
    · exact ⟨g + 1, hbumped.moved _ _ hg hmoved, by omega⟩
    · exact ⟨g, by rw [hbumped.kept _ (fun hi => hmoved (.inl hi)) fun hi => hmoved (.inr hi), hg], hle⟩

/-- A choice between a checked write and none, as the first step of a sequence. -/
private theorem ite_bind {α β : Type} {c : Prop} [Decidable c] {x : Option α} {y a : α}
    (h : (if c then x else some y) = some a) (f : α → Option β) : (if c then x.bind f else f y) = f a := by
  by_cases hc : c
  · rw [if_pos hc] at h ⊢
    rw [h, Option.bind_some]
  · rw [if_neg hc] at h ⊢
    rw [Option.some.inj h]

/-- The slot before another one is a smaller one. -/
private theorem before_lt (h : Tracks ranks n owed s (P ++ (l, a) :: S)) : lastSlot (-1) P < l := by
  by_cases hpos : 0 ≤ lastSlot (-1) P
  · obtain ⟨x, hx, hleft, hright⟩ := exists_before hpos (l, a) S
    obtain ⟨P', S', heq⟩ := mem_adjacent_iff.1 hx
    have hincr := h.increasing
    rw [heq, List.map_append, List.map_cons, List.map_cons] at hincr
    have hlt := (List.pairwise_cons.1 (List.pairwise_append.1 hincr).2.1).1 x.2.1 (by simp)
    rw [hright] at hlt
    omega
  · omega

/-- The slot after another one, if there is one, is its right neighbour. -/
private theorem exists_after (P : List (ℕ × TokenId)) (q : ℕ × TokenId) (hpos : 0 ≤ headSlot S) :
    ∃ x ∈ adjacent (P ++ q :: S), x.1 = q ∧ (x.2.1 : ℤ) = headSlot S := by
  cases S with
  | nil => rw [headSlot] at hpos; omega
  | cons m S => exact ⟨(q, m), mem_adjacent_iff.2 ⟨P, S, rfl⟩, rfl, rfl⟩

/-- One merge: it does not panic, and the list has one slot less. -/
theorem absorb_spec (h : Tracks ranks n (fun y => y = ((l, a), (r, b))) s (P ++ (l, a) :: (r, b) :: S))
    (hn : n < 2 ^ 31) (hresult : merges[rank]? = some result) :
    ∃ s', absorb merges ranks s rank l r = some s' ∧ Tracks ranks n (fun _ => False) s' (P ++ (l, result) :: S) ∧
      s'.heap.length ≤ s.heap.length + 2 := by
  have hpair : ((l, a), (r, b)) ∈ adjacent (P ++ (l, a) :: (r, b) :: S) := mem_adjacent_iff.2 ⟨P, S, rfl⟩
  obtain ⟨-, hsymr, -, -, -, hln⟩ := h.at_pair hpair
  replace hsymr : s.syms[r]? = some b := hsymr
  replace hln : l < n := hln
  obtain ⟨-, hprevl, -⟩ := h.linked.at_slot
  obtain ⟨hsyms, hprev, hnext, hdead, hgen⟩ := h.lengths
  have hslots : Linked s (-1) ((P ++ [(l, a)]) ++ (r, b) :: S) := by simpa using h.linked
  obtain ⟨-, -, hnextr, -, hlinkedS⟩ := hslots.at_slot
  have hrn : r < n := hsyms ▸ (List.getElem?_eq_some_iff.1 hsymr).1
  obtain ⟨g, hg⟩ := h.gen_at hln
  have hnodup := h.nodup
  simp only [List.map_append, List.map_cons] at hnodup
  have hnotin : l ∉ S.map Prod.fst := by
    have := (List.nodup_append.1 hnodup).2.1
    simp only [List.nodup_cons, List.mem_cons, not_or] at this
    exact this.1.2
  have hheadl : headSlot S ≠ l := headSlot_ne hnotin
  have hheadn : 0 ≤ headSlot S → (headSlot S).toNat < s.prev.length := by
    cases S with
    | nil => intro hpos; rw [headSlot] at hpos; omega
    | cons q S =>
      intro _
      have := (List.getElem?_eq_some_iff.1 hlinkedS.1).1
      rw [headSlot, Int.toNat_natCast]
      omega
  have hsmall : ∀ (i g : ℕ), s.gen[i]? = some g → g + 1 < 2 ^ 32 := by
    intro i g' hg'
    have := h.gens i g' hg'
    omega
  have hlastl : lastSlot (-1) P ≠ l := by
    have := before_lt h
    omega
  have hlastn : 0 ≤ lastSlot (-1) P → (lastSlot (-1) P).toNat < s.gen.length := by
    intro hpos
    have := before_lt h
    omega
  obtain ⟨prev, hprevset, hprevdef⟩ : ∃ prev,
      (if 0 ≤ headSlot S then setAt s.prev (headSlot S).toNat (l : ℤ) else some s.prev) = some prev ∧
        prev = if 0 ≤ headSlot S then s.prev.set (headSlot S).toNat l else s.prev := by
    refine ⟨_, ?_, rfl⟩
    split
    · rename_i hpos
      rw [setAt_ok (hheadn hpos)]
    · rfl
  have hprevl' : prev[l]? = some (lastSlot (-1) P) := by
    rw [hprevdef]
    split
    · rw [List.getElem?_set_ne (by omega), hprevl]
    · exact hprevl
  obtain ⟨gen, hbump, hbumped⟩ := bump_both hg hsmall hlastl hlastn
  have hmid : Tracks ranks n (fun y => y.1.1 = l ∨ y.2.1 = l)
      ⟨s.syms.set l result, prev, s.next.set l (headSlot S), s.dead.set r true, gen, s.heap⟩
      (P ++ (l, result) :: S) := absorb_writes h ⟨rfl, rfl, rfl, hprevdef⟩ rfl hbumped
  obtain ⟨s₁, hpush₁, htracks₁, hlen₁⟩ := hmid.push_slots (i := lastSlot (-1) P) (j := l) (by
    intro hpos _
    obtain ⟨x, hx, hleft, hright⟩ := exists_before hpos (l, result) S
    exact ⟨x, hx, hleft, by rw [hright]⟩)
  obtain ⟨s₂, hpush₂, htracks₂, hlen₂⟩ := htracks₁.push_slots (i := l) (j := headSlot S) (by
    intro _ hpos
    obtain ⟨x, hx, hleft, hright⟩ := exists_after P (l, result) hpos
    exact ⟨x, hx, by rw [hleft], hright⟩)
  refine ⟨s₂, ?_, htracks₂.mono ?_, by simp only at hlen₁; omega⟩
  · simp only [absorb, hresult, setAt_ok (hsyms ▸ hln), setAt_ok (hdead ▸ hrn), bump_ok hg (hsmall _ _ hg), hnextr,
      setAt_ok (hnext ▸ hln), Option.bind_eq_bind, Option.bind_some]
    rw [ite_bind hprevset, hprevl', Option.bind_some, ite_bind hbump, hpush₁, Option.bind_some, hpush₂]
  · rintro y hy ⟨⟨hy₁ | hy₁, hy₂⟩, hy₃⟩
    · refine hy₃ ⟨by rw [hy₁], ?_⟩
      obtain ⟨-, -, hnexty, -⟩ := hmid.at_pair hy
      obtain ⟨-, -, hnextl, -⟩ := hmid.linked.at_slot
      rw [hy₁, hnextl, Option.some.injEq] at hnexty
      exact hnexty.symm
    · refine hy₂ ⟨?_, by rw [hy₁]⟩
      obtain ⟨-, -, -, -, hprevy, -⟩ := hmid.at_pair hy
      obtain ⟨-, hprevl, -⟩ := hmid.linked.at_slot
      rw [hy₁, hprevl, Option.some.injEq] at hprevy
      exact hprevy.symm

end Absorb
end Hipscope.Tokenizer
