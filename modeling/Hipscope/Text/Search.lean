import Mathlib.Data.List.Infix

/-! Where a marker can still begin when only the front of a text is known: at an
occurrence already seen, or in a tail that is the start of the marker. -/
namespace Hipscope.Text
variable {α : Type*} {m m' s t : List α} {i k hold : ℕ}

/-- Every tail of the text that is a proper beginning of the marker is that short. -/
def Covers (hold : ℕ) (s m : List α) : Prop := ∀ k < m.length, m.take k <:+ s → k ≤ hold

/-- The marker occurs nowhere in the text. -/
def Absent (m s : List α) : Prop := ∀ i, ¬ m <+: s.drop i

theorem Absent.drop (h : Absent m s) (k : ℕ) : Absent m (s.drop k) := by
  intro i
  rw [List.drop_drop]
  exact h (k + i)

/-- A marker beginning before the end of the known text lies in it, or hangs over. -/
theorem occurs_or_overhangs (hi : i ≤ s.length) (h : m <+: (s ++ t).drop i) :
    m <+: s.drop i ∨ s.drop i <+: m := by
  rw [List.drop_append_of_le_length hi] at h
  exact List.prefix_or_prefix_of_prefix h (List.prefix_append _ _)

/-- What overhangs is held back. -/
theorem not_prefix_of_covers (habsent : Absent m s) (hcovers : Covers hold s m)
    (hi : i + hold < s.length) : ¬ m <+: (s ++ t).drop i := by
  intro h
  rcases occurs_or_overhangs (by omega) h with hin | hover
  · exact habsent i hin
  · have htake : s.drop i = m.take (s.length - i) := by
      have := List.prefix_iff_eq_take.mp hover
      rwa [List.length_drop] at this
    have hlen : s.length - i < m.length := by
      have hle := hover.length_le
      rw [List.length_drop] at hle
      refine lt_of_le_of_ne hle fun heq => habsent i ?_
      rw [htake, heq, List.take_length]
    have := hcovers _ hlen (htake ▸ List.drop_suffix i s)
    omega

/-- A marker that begins before a seen one and was not seen itself would contain it. -/
theorem not_prefix_before (hseen : m' <+: s.drop k) (hik : i < k) (hk : k ≤ s.length)
    (hnot : ¬ m <+: s.drop i) (hnest : m' <:+: m → m' = m) : ¬ m <+: (s ++ t).drop i := by
  intro h
  rcases occurs_or_overhangs (by omega) h with hin | hover
  · exact hnot hin
  · have hdrop : s.drop k = (s.drop i).drop (k - i) := by rw [List.drop_drop]; congr 1; omega
    have hinfix : m' <:+: m := by
      rw [hdrop] at hseen
      exact (hseen.isInfix.trans (List.drop_suffix _ _).isInfix).trans hover.isInfix
    have hshort := hseen.length_le
    have hlong := hover.length_le
    rw [hnest hinfix, List.length_drop] at hshort
    rw [List.length_drop] at hlong
    omega

theorem contains_of_prefix_before (hseen : m' <+: s.drop k) (hik : i < k) (hk : k ≤ s.length)
    (hnot : ¬ m <+: s.drop i) (h : m <+: (s ++ t).drop i) : m' ≠ m ∧ m' <:+: m := by
  by_contra hapart
  refine not_prefix_before hseen hik hk hnot (fun hin => ?_) h
  by_contra hne
  exact hapart ⟨hne, hin⟩

/-- Two markers at the same place are nested. -/
theorem occurs_of_starts (h : m <+: s) (h' : m' <+: s) : m <:+: m' ∨ m' <:+: m :=
  (List.prefix_or_prefix_of_prefix h h').imp List.IsPrefix.isInfix List.IsPrefix.isInfix

private theorem prefix_drop_iff (i : ℕ) : m <+: s.drop i ↔ (s.drop i).take m.length = m := by
  rw [List.prefix_iff_eq_take, eq_comm]

section Search
variable [DecidableEq α]

/-- The first place of a needle, as a scan of all windows finds it. -/
def memmem (haystack needle : List α) : Option ℕ :=
  if needle = [] then some 0
  else (List.range (haystack.length + 1 - needle.length)).find? fun i =>
    decide ((haystack.drop i).take needle.length = needle)

theorem memmem_some (hm : m ≠ []) (h : memmem s m = some i) :
    m <+: s.drop i ∧ i + m.length ≤ s.length ∧ ∀ j < i, ¬ m <+: s.drop j := by
  rw [memmem, if_neg hm, List.find?_range_eq_some] at h
  obtain ⟨hfound, hmem, hearlier⟩ := h
  rw [decide_eq_true_eq, ← prefix_drop_iff] at hfound
  refine ⟨hfound, ?_, fun j hj hbefore => ?_⟩
  · have := List.mem_range.mp hmem
    have := List.length_pos_iff.mpr hm
    omega
  · have := hearlier j hj
    simp [← prefix_drop_iff, hbefore] at this

theorem memmem_none (h : memmem s m = none) : Absent m s := by
  rw [memmem] at h
  split_ifs at h with hm
  rw [List.find?_range_eq_none] at h
  intro i hi
  have hpos := List.length_pos_iff.mpr hm
  have hle := hi.length_le
  rw [List.length_drop] at hle
  have := h i (by omega)
  simp [← prefix_drop_iff, hi] at this

end Search
end Hipscope.Text

/-! Where a search ends in a text put together from pieces: which pieces it passes over,
and when a piece keeps free of a key that every marker contains. -/
namespace Hipscope.Text
variable {α : Type*} {n k a a' b s : List α} {c : α}

theorem infix_iff_drop : k <:+: s ↔ ∃ i, k <+: s.drop i := by
  rw [List.infix_iff_prefix_suffix]
  constructor
  · rintro ⟨t, hk, ht⟩
    exact ⟨s.length - t.length, List.suffix_iff_eq_drop.1 ht ▸ hk⟩
  · rintro ⟨i, hi⟩
    exact ⟨_, hi, List.drop_suffix i s⟩

/-- No occurrence of the needle begins in `a` when `b` follows it. -/
def Passes (n a b : List α) : Prop := ∀ i < a.length, ¬ n <+: (a ++ b).drop i

theorem Passes.nil : Passes n [] b := fun i hi => absurd hi (Nat.not_lt_zero i)

theorem Passes.append (h : Passes n a (a' ++ b)) (h' : Passes n a' b) : Passes n (a ++ a') b := by
  intro i hi hocc
  rw [List.append_assoc] at hocc
  rcases Nat.lt_or_ge i a.length with hlt | hge
  · exact h i hlt hocc
  · rw [List.length_append] at hi
    refine h' (i - a.length) (by omega) ?_
    rwa [List.drop_append, List.drop_eq_nil_of_le hge, List.nil_append] at hocc

theorem Passes.suffix (h : Passes n (a ++ a') b) : Passes n a' b := by
  intro i hi hocc
  refine h (a.length + i) (by rw [List.length_append]; omega) ?_
  rw [List.append_assoc, ← List.drop_drop, List.drop_left]
  exact hocc

/-- What follows the next occurrence does not matter. -/
theorem Passes.beyond (h : Passes n a n) (b : List α) : Passes n a (n ++ b) := by
  intro i hi hocc
  refine h i hi ?_
  rw [← List.append_assoc, List.drop_append_of_le_length (by rw [List.length_append]; omega)] at hocc
  refine List.prefix_of_prefix_length_le hocc (List.prefix_append _ b) ?_
  rw [List.length_drop, List.length_append]
  omega

/-- A literal is passed over when no tail of it agrees with the needle. -/
theorem passes_literal (h : ∀ i < a.length, ¬ n <+: a.drop i ∧ ¬ a.drop i <+: n) (b : List α) : Passes n a b := by
  intro i hi hocc
  rcases occurs_or_overhangs hi.le hocc with hin | hover
  · exact (h i hi).1 hin
  · exact (h i hi).2 hover

/-- A piece without the key is passed over when the next character can only follow the key. -/
theorem passes_free (hkey : k <:+: n) (hfree : ¬ k <:+: a)
    (hnext : ∀ j < n.length, 0 < j → n[j]? = some c → k <:+: n.take j) (b : List α) : Passes n a (c :: b) := by
  intro i hi hocc
  rcases occurs_or_overhangs hi.le hocc with hin | hover
  · exact hfree (infix_iff_drop.2 ⟨i, hin⟩ |> hkey.trans)
  · have hlen : (a.drop i).length = a.length - i := List.length_drop
    have htake : a.drop i = n.take (a.length - i) := by
      rw [← hlen]
      exact List.prefix_iff_eq_take.1 hover
    have hcut : (a ++ c :: b).drop i = a.drop i ++ c :: b := List.drop_append_of_le_length hi.le
    rw [hcut] at hocc
    rcases Nat.lt_or_ge (a.length - i) n.length with hlt | hge
    · have hat : n[a.length - i]? = some c := by
        obtain ⟨t, ht⟩ := hocc
        have hleft : (n ++ t)[a.length - i]? = n[a.length - i]? := List.getElem?_append_left hlt
        rw [← hleft, ht, List.getElem?_append_right hlen.le, hlen, Nat.sub_self]
        rfl
      have hin := hnext _ hlt (by omega) hat
      rw [← htake] at hin
      exact hfree (hin.trans (List.drop_suffix i a).isInfix)
    · rw [List.take_of_length_le hge] at htake
      exact hfree (hkey.trans (htake ▸ (List.drop_suffix i a).isInfix))

/-- A piece without the needle's first character is passed over. -/
theorem passes_head {rest : List α} (h : c ∉ a) (b : List α) : Passes (c :: rest) a b := by
  intro i hi hocc
  rw [List.drop_append_of_le_length hi.le, List.drop_eq_getElem_cons hi, List.cons_append,
    List.cons_prefix_cons] at hocc
  exact h (hocc.1 ▸ List.getElem_mem hi)

section Free

/-- A character outside the key separates two pieces free of it. -/
theorem free_append_cons (hc : c ∉ k) (ha : ¬ k <:+: a) (hb : ¬ k <:+: b) : ¬ k <:+: a ++ c :: b := by
  intro h
  obtain ⟨i, hi⟩ := infix_iff_drop.1 h
  rcases Nat.lt_or_ge a.length i with hlt | hge
  · refine hb (infix_iff_drop.2 ⟨i - a.length - 1, ?_⟩)
    rw [List.drop_append, List.drop_eq_nil_of_le hlt.le, List.nil_append] at hi
    obtain ⟨j, hj⟩ := Nat.exists_eq_add_of_lt hlt
    have hsub : i - a.length = j + 1 := by omega
    rw [hsub, List.drop_succ_cons] at hi
    rw [hsub]
    exact hi
  · rw [List.drop_append_of_le_length hge] at hi
    rcases List.prefix_or_prefix_of_prefix hi (List.prefix_append (a.drop i) _) with hin | hover
    · exact ha (infix_iff_drop.2 ⟨i, hin⟩)
    · obtain ⟨t, rfl⟩ := hover
      rw [List.prefix_append_right_inj] at hi
      cases t with
      | nil => exact ha (infix_iff_drop.2 ⟨i, by rw [List.append_nil]⟩)
      | cons x t =>
        obtain rfl := (List.cons_prefix_cons.1 hi).1
        exact hc (by simp)

/-- A piece of characters outside the key is free of it. -/
theorem free_of_disjoint (hk : k ≠ []) (h : ∀ x ∈ s, x ∉ k) : ¬ k <:+: s := by
  intro hin
  obtain ⟨x, rest, rfl⟩ := List.exists_cons_of_ne_nil hk
  exact h x (hin.subset (by simp)) (by simp)

/-- Escaping with characters outside the key makes no new key. -/
theorem prefix_of_flatMap {f : α → List α} (hf : ∀ c, f c = [c] ∨ (f c ≠ [] ∧ ∀ x ∈ f c, x ∉ k))
    (h : k <+: s.flatMap f) : k <+: s := by
  induction k generalizing s with
  | nil => exact List.nil_prefix
  | cons x k ih =>
    cases s with
    | nil => simp at h
    | cons c s =>
      rw [List.flatMap_cons] at h
      rcases hf c with hc | ⟨hne, hout⟩
      · rw [hc, List.singleton_append, List.cons_prefix_cons] at h
        refine List.cons_prefix_cons.2 ⟨h.1, ih (fun c => ?_) h.2⟩
        rcases hf c with hsame | ⟨hne, hout⟩
        · exact .inl hsame
        · exact .inr ⟨hne, fun y hy hmem => hout y hy (List.mem_cons_of_mem x hmem)⟩
      · obtain ⟨y, rest, hy⟩ := List.exists_cons_of_ne_nil hne
        rw [hy, List.cons_append, List.cons_prefix_cons] at h
        exact absurd (by simp [h.1]) (hout y (by simp [hy]))

theorem infix_of_flatMap {f : α → List α} (hf : ∀ c, f c = [c] ∨ (f c ≠ [] ∧ ∀ x ∈ f c, x ∉ k))
    (h : k <:+: s.flatMap f) : k <:+: s := by
  induction s with
  | nil => simpa using h
  | cons c s ih =>
    rw [List.flatMap_cons] at h
    rcases hf c with hc | ⟨hne, hout⟩
    · rw [hc, List.singleton_append, List.infix_cons_iff] at h
      rcases h with hstart | hin
      · refine (prefix_of_flatMap hf (s := c :: s) ?_).isInfix
        rwa [List.flatMap_cons, hc, List.singleton_append]
      · exact (ih hin).trans (List.suffix_cons c s).isInfix
    · obtain ⟨i, hi⟩ := infix_iff_drop.1 h
      rcases Nat.lt_or_ge i (f c).length with hlt | hge
      · cases k with
        | nil => exact List.nil_infix
        | cons x k =>
          rw [List.drop_append_of_le_length hlt.le, List.drop_eq_getElem_cons hlt, List.cons_append,
            List.cons_prefix_cons] at hi
          exact absurd (by simp [hi.1]) (hout _ (List.getElem_mem hlt))
      · rw [List.drop_append, List.drop_eq_nil_of_le hge, List.nil_append] at hi
        exact (ih (infix_iff_drop.2 ⟨_, hi⟩)).trans (List.suffix_cons c s).isInfix

end Free

section Search
variable [DecidableEq α]

theorem memmem_eq_some {i : ℕ} (hn : n ≠ []) (hat : n <+: s.drop i) (hfirst : ∀ j < i, ¬ n <+: s.drop j) :
    memmem s n = some i := by
  cases hfind : memmem s n with
  | none => exact absurd hat (memmem_none hfind i)
  | some j =>
    obtain ⟨hj, -, hbefore⟩ := memmem_some hn hfind
    rcases Nat.lt_trichotomy i j with hlt | rfl | hgt
    · exact absurd hat (hbefore i hlt)
    · rfl
    · exact absurd hj (hfirst j hgt)

/-- The search ends at the needle after what it passes over. -/
theorem memmem_passes (hn : n ≠ []) (h : Passes n a (n ++ b)) : memmem (a ++ (n ++ b)) n = some a.length := by
  refine memmem_eq_some hn ?_ h
  rw [List.drop_left]
  exact List.prefix_append n b

theorem memmem_passes_none (hn : n ≠ []) (h : Passes n a []) : memmem a n = none := by
  cases hfind : memmem a n with
  | none => rfl
  | some i =>
    obtain ⟨hat, hfit, -⟩ := memmem_some hn hfind
    have hpos := List.length_pos_iff.2 hn
    exact absurd (by rwa [List.append_nil]) (h i (by omega))

/-- A search that passes over `a` ends behind it. -/
theorem le_of_memmem {i : ℕ} (hn : n ≠ []) (h : Passes n a b) (hfind : memmem (a ++ b) n = some i) :
    a.length ≤ i := by
  by_contra hlt
  exact h i (by omega) (memmem_some hn hfind).1

/-- A needle found stays found when the text goes on. -/
theorem memmem_append {i : ℕ} (hn : n ≠ []) (h : memmem s n = some i) (y : List α) : memmem (s ++ y) n = some i := by
  obtain ⟨hat, hfit, hfirst⟩ := memmem_some hn h
  refine memmem_eq_some hn ?_ fun j hj => ?_
  · rw [List.drop_append_of_le_length (by omega)]
    exact hat.trans (List.prefix_append _ _)
  · exact not_prefix_before hat hj (by omega) (hfirst j hj) fun _ => rfl

/-- A needle found within the front of a text is found in the front alone. -/
theorem memmem_of_append {i : ℕ} {y : List α} (hn : n ≠ []) (h : memmem (s ++ y) n = some i)
    (hi : i + n.length ≤ s.length) : memmem s n = some i := by
  obtain ⟨hat, -, hfirst⟩ := memmem_some hn h
  refine memmem_eq_some hn ?_ fun j hj hocc => ?_
  · rw [List.drop_append_of_le_length (by omega)] at hat
    refine List.prefix_of_prefix_length_le hat (List.prefix_append _ y) ?_
    rw [List.length_drop]
    omega
  · refine hfirst j hj ?_
    rw [List.drop_append_of_le_length (by omega)]
    exact hocc.trans (List.prefix_append _ y)

/-- The first occurrence is not behind any other. -/
theorem exists_memmem_le {i : ℕ} (hn : n ≠ []) (hat : n <+: s.drop i) : ∃ j ≤ i, memmem s n = some j := by
  cases hfind : memmem s n with
  | none => exact absurd hat (memmem_none hfind i)
  | some j =>
    refine ⟨j, ?_, rfl⟩
    by_contra hlt
    exact (memmem_some hn hfind).2.2 i (by omega) hat

/-- A tail that keeps every beginning of the needle finds it at the same place when the text
goes on. -/
theorem memmem_kept {front kept : List α} (hn : n ≠ []) (hnone : memmem (front ++ kept) n = none)
    (hkeeps : ∀ t, t <:+ front ++ kept → t <+: n → t ≠ n → t <:+ kept) (y : List α) :
    memmem (front ++ kept ++ y) n = (memmem (kept ++ y) n).map (front.length + ·) := by
  have habsent := memmem_none hnone
  have hdrop : ∀ i, (front ++ kept ++ y).drop (front.length + i) = (kept ++ y).drop i := fun i => by
    rw [List.append_assoc, ← List.drop_drop, List.drop_left]
  have hin : ∀ i, n <+: (front ++ kept ++ y).drop i → front.length ≤ i := fun i hi => by
    by_contra hlt
    have hwithin : i < (front ++ kept).length := by
      rw [List.length_append]
      omega
    rcases occurs_or_overhangs hwithin.le hi with hin | hover
    · exact habsent i hin
    · have hne : (front ++ kept).drop i ≠ n := fun heq => habsent i (heq ▸ List.prefix_refl _)
      have := (hkeeps _ (List.drop_suffix i _) hover hne).length_le
      rw [List.length_drop, List.length_append] at this
      omega
  cases hfind : memmem (kept ++ y) n with
  | some i =>
    obtain ⟨hat, hfit, hfirst⟩ := memmem_some hn hfind
    refine memmem_eq_some hn ((hdrop i).symm ▸ hat) fun j hj hocc => ?_
    obtain ⟨k, rfl⟩ := Nat.exists_eq_add_of_le (hin j hocc)
    rw [hdrop] at hocc
    exact hfirst k (Nat.lt_of_add_lt_add_left hj) hocc
  | none =>
    cases hwhole : memmem (front ++ kept ++ y) n with
    | none => rfl
    | some j =>
      obtain ⟨hat, -, -⟩ := memmem_some hn hwhole
      obtain ⟨k, rfl⟩ := Nat.exists_eq_add_of_le (hin j hat)
      rw [hdrop] at hat
      exact absurd hat (memmem_none hfind k)

end Search

section Begin

/-- A marker found stays the first one found when the text goes on. -/
theorem find_append {β : Type*} [DecidableEq α] {l : List β} {f : β → List α} {a : β} {x : List α}
    (horder : (l.map f).Pairwise fun a b => b <+: a → a = b) (h : l.find? (fun b => (f b).isPrefixOf x) = some a)
    (y : List α) : l.find? (fun b => (f b).isPrefixOf (x ++ y)) = some a := by
  obtain ⟨hin, front, back, rfl, hfront⟩ := List.find?_eq_some_iff_append.1 h
  rw [List.isPrefixOf_iff_prefix] at hin
  have hlong : f a <+: x ++ y := hin.trans (List.prefix_append x y)
  refine List.find?_eq_some_iff_append.2 ⟨List.isPrefixOf_iff_prefix.2 hlong, front, back, rfl, fun b hb => ?_⟩
  rw [Bool.not_eq_true', Bool.eq_false_iff, Ne, List.isPrefixOf_iff_prefix]
  intro hb'
  have hshort : ¬ f b <+: x := by
    have := hfront b hb
    rwa [Bool.not_eq_true', Bool.eq_false_iff, Ne, List.isPrefixOf_iff_prefix] at this
  rcases List.prefix_or_prefix_of_prefix hb' hlong with hba | hab
  · exact hshort (hba.trans hin)
  · rw [List.map_append, List.map_cons, List.pairwise_append] at horder
    have heq := horder.2.2 (f b) (List.mem_map_of_mem hb) (f a) (List.mem_cons_self ..) hab
    exact hshort (heq ▸ hin)

/-- Of two pieces without `c`, each with a `c` behind it, one begins the other only if they are
the same. -/
theorem eq_of_closed_prefix {x y s t : List α} (hx : c ∉ x) (hy : c ∉ y) (h : x ++ c :: s <+: y ++ c :: t) : x = y := by
  induction x generalizing y with
  | nil =>
    cases y with
    | nil => rfl
    | cons d y =>
      obtain ⟨rfl, -⟩ := List.cons_prefix_cons.1 h
      exact absurd (List.mem_cons_self ..) hy
  | cons d x ih =>
    cases y with
    | nil =>
      obtain ⟨rfl, -⟩ := List.cons_prefix_cons.1 h
      exact absurd (List.mem_cons_self ..) hx
    | cons e y =>
      obtain ⟨rfl, htail⟩ := List.cons_prefix_cons.1 h
      rw [ih (fun hc => hx (List.mem_cons_of_mem _ hc)) (fun hc => hy (List.mem_cons_of_mem _ hc)) htail]

end Begin
end Hipscope.Text
