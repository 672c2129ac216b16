import Hipscope.Lists.Traverse
import Hipscope.Tokenizer.ChunkOrder

/-! Runs of the merge loop: each popped entry is dropped or makes the merge the plain loop
makes next, so the priority-queue encoder returns what the plain encoder returns. -/
namespace Hipscope.Tokenizer

section Step
variable {merges : List TokenId} {ranks : PairRanks} {n : ℕ} {s : ChunkState} {L : List (ℕ × TokenId)}

private theorem map_symbols_adjacent (L : List (ℕ × TokenId)) :
    (adjacent (L.map Prod.snd)).filterMap (fun pair => ranks.lookup pair) = (adjacent L).filterMap (slotRank ranks) := by
  rw [adjacent_map, List.filterMap_map]
  rfl

/-- Without a queued entry no pair has a rule. -/
theorem Tracks.bestRank_none (h : Tracks ranks n (fun _ => False) s L) (hheap : s.heap = []) :
    bestRank (fun pair => ranks.lookup pair) (L.map Prod.snd) = none := by
  rw [bestRank, map_symbols_adjacent, List.min?_eq_none_iff, List.filterMap_eq_nil_iff]
  intro x hx
  by_contra hne
  obtain ⟨rank, hrank⟩ := Option.ne_none_iff_exists'.1 hne
  obtain ⟨g, -, hmem⟩ := h.queued x hx (fun h => h) rank hrank
  rw [hheap] at hmem
  cases hmem

/-- The rank of the least entry is the lowest rank of a pair. -/
theorem Tracks.bestRank_least (h : Tracks ranks n (fun _ => False) s L) {e : Entry}
    (he : e ∈ s.heap.argmin Entry.key) {x : (ℕ × TokenId) × (ℕ × TokenId)} (hx : x ∈ adjacent L)
    (hrank : slotRank ranks x = some e.rank) :
    bestRank (fun pair => ranks.lookup pair) (L.map Prod.snd) = some e.rank := by
  rw [bestRank, map_symbols_adjacent, List.min?_eq_some_iff]
  refine ⟨List.mem_filterMap.2 ⟨x, hx, hrank⟩, fun rank hmem => ?_⟩
  obtain ⟨y, hy, hyrank⟩ := List.mem_filterMap.1 hmem
  exact (h.least he hy hyrank).1

/-- What the plain loop does in one round. -/
def PlainStep (merges : List TokenId) (ranks : PairRanks) (xs ys : List TokenId) : Prop :=
  ∃ rank, bestRank (fun pair => ranks.lookup pair) xs = some rank ∧
    mergeFirst (fun pair => ranks.lookup pair) rank (merges.getD rank 0) xs = ys

/-- The least entry is the leftmost pair of its rank, so the plain loop replaces that pair. -/
theorem Tracks.plainStep {P S : List (ℕ × TokenId)} {l r : ℕ} {a b result : TokenId}
    (h : Tracks ranks n (fun _ => False) s (P ++ (l, a) :: (r, b) :: S)) {e : Entry}
    (he : e ∈ s.heap.argmin Entry.key) (hleft : e.left = l) (hrank : ranks.lookup (a, b) = some e.rank)
    (hresult : merges[e.rank]? = some result) :
    PlainStep merges ranks ((P ++ (l, a) :: (r, b) :: S).map Prod.snd) ((P ++ (l, result) :: S).map Prod.snd) := by
  have hpair : ((l, a), (r, b)) ∈ adjacent (P ++ (l, a) :: (r, b) :: S) := mem_adjacent_iff.2 ⟨P, S, rfl⟩
  refine ⟨e.rank, h.bestRank_least he hpair hrank, ?_⟩
  rw [List.getD_eq_getElem?_getD, hresult, Option.getD_some]
  simp only [List.map_append, List.map_cons]
  refine mergeFirst_append result hrank ?_ _
  intro pair hpair' hbest
  have hmap : P.map Prod.snd ++ [a] = (P ++ [(l, a)]).map Prod.snd := by simp
  rw [hmap, adjacent_map] at hpair'
  obtain ⟨y, hy, rfl⟩ := List.mem_map.1 hpair'
  have hy' : y ∈ adjacent (P ++ (l, a) :: (r, b) :: S) := by
    have := adjacent_left hy ((r, b) :: S)
    rwa [List.append_assoc] at this
  have hle := (h.least he hy' hbest).2 rfl
  -- the pair lies before slot `l`
  obtain ⟨P', S', hsplit⟩ := mem_adjacent_iff.1 hy
  have hincr : ((P ++ [(l, a)]).map Prod.fst).Pairwise (· < ·) := by
    refine h.increasing.sublist (List.Sublist.map _ ?_)
    exact (List.Sublist.refl P).append (List.singleton_sublist.2 List.mem_cons_self)
  have hlast : y.1.1 < l := by
    have hin : (l, a) ∈ y.2 :: S' := by
      have hget : (P ++ [(l, a)]).getLast? = some (l, a) := by simp
      rw [hsplit, List.getLast?_append_cons, List.getLast?_cons_cons] at hget
      exact List.mem_of_getLast? hget
    rw [hsplit, List.map_append, List.map_cons] at hincr
    have := (List.pairwise_cons.1 (List.pairwise_append.1 hincr).2.1).1 l
    exact this (List.mem_map.2 ⟨(l, a), hin, rfl⟩)
  omega

/-- One popped entry: it is dropped, or the list makes the next step of the plain loop. -/
theorem Tracks.popStep (h : Tracks ranks n (fun _ => False) s L) (hn : n < 2 ^ 31)
    (hresults : ∀ pair rank, ranks.lookup pair = some rank → rank < merges.length) {e : Entry}
    (he : e ∈ s.heap.argmin Entry.key) :
    ∃ s' L', Tokenizer.popStep merges ranks { s with heap := s.heap.erase e } e = some s' ∧
      Tracks ranks n (fun _ => False) s' L' ∧ headSlot L' = headSlot L ∧
      ((L' = L ∧ s'.heap.length + 1 = s.heap.length) ∨
        (L'.length + 1 = L.length ∧ s'.heap.length ≤ s.heap.length + 1 ∧
          PlainStep merges ranks (L.map Prod.snd) (L'.map Prod.snd))) := by
  have hmem : e ∈ s.heap := List.argmin_mem he
  have hlen : (s.heap.erase e).length + 1 = s.heap.length := by
    rw [List.length_erase_of_mem hmem]
    have := List.length_pos_of_mem hmem
    omega
  obtain ⟨g, hg, hle⟩ := h.old e hmem
  have hlt : e.left < n := h.lengths.2.2.2.2 ▸ (List.getElem?_eq_some_iff.1 hg).1
  have hdead : s.dead[e.left]? = some (s.dead.get ⟨e.left, h.lengths.2.2.2.1.symm ▸ hlt⟩) := List.getElem?_eq_getElem _
  generalize s.dead.get ⟨e.left, h.lengths.2.2.2.1.symm ▸ hlt⟩ = dead at hdead
  simp only [Tokenizer.popStep, hdead, hg, Option.bind_eq_bind, Option.bind_some]
  by_cases hstale : dead = true ∨ g ≠ e.gen
  · rw [if_pos hstale]
    refine ⟨_, L, rfl, h.drop_stale ?_, rfl, .inl ⟨rfl, hlen⟩⟩
    rcases hstale with hd | hne
    · exact .inl (by rw [hdead, hd]; simp)
    · exact .inr (by rw [hg]; simpa using hne)
  · rw [if_neg hstale]
    simp only [not_or, Bool.not_eq_true, not_not] at hstale
    obtain ⟨hd, rfl⟩ := hstale
    obtain ⟨x, hx, hleft, hrank⟩ := h.valid e hmem (by rw [hdead, hd]) hg
    obtain ⟨P, S, hL⟩ := mem_adjacent_iff.1 hx
    obtain ⟨⟨l, a⟩, ⟨r, b⟩⟩ := x
    obtain ⟨hsyml, hsymr, hnext, -⟩ := h.at_pair hx
    simp only at hleft hsyml hsymr hnext hL
    subst hL
    rw [slotRank] at hrank
    rw [← hleft, hnext, Option.bind_some, if_neg (by omega), hsyml, Option.bind_some, Int.toNat_natCast, hsymr,
      Option.bind_some, if_pos hrank]
    have hrlt := hresults _ _ hrank
    obtain ⟨s', habsorb, htracks, hheap⟩ := absorb_spec (h.drop_valid hx hleft.symm) hn (List.getElem?_eq_getElem hrlt)
    refine ⟨s', _, habsorb, htracks, ?_, .inr ⟨?_, ?_, ?_⟩⟩
    · cases P <;> rfl
    · simp only [List.length_append, List.length_cons]
      omega
    · simp only at hheap
      omega
    · exact h.plainStep he hleft.symm hrank (List.getElem?_eq_getElem hrlt)

end Step

section Loop
variable {merges : List TokenId} {ranks : PairRanks} {n : ℕ}

/-- The loop ends with the list of the plain loop. A pop that drops an entry costs one round,
a merge two: it queues at most two pairs and frees three. -/
theorem mergeLoop_spec (hn : n < 2 ^ 31)
    (hresults : ∀ pair rank, ranks.lookup pair = some rank → rank < merges.length) (rounds : ℕ) :
    ∀ {s : ChunkState} {L : List (ℕ × TokenId)} {plain : ℕ}, Tracks ranks n (fun _ => False) s L →
      s.heap.length + 3 * L.length < rounds → L.length ≤ plain →
      ∃ s' L', mergeLoop merges ranks rounds s = some s' ∧ Tracks ranks n (fun _ => False) s' L' ∧
        headSlot L' = headSlot L ∧ L'.length ≤ L.length ∧
        L'.map Prod.snd = plainMerges merges ranks plain (L.map Prod.snd) := by
  induction rounds with
  | zero => intro s L plain _ hlt; omega
  | succ rounds ih =>
    intro s L plain h hlt hplain
    rw [mergeLoop]
    cases hmin : s.heap.argmin Entry.key with
    | none =>
      refine ⟨s, L, rfl, h, rfl, Nat.le_refl _, ?_⟩
      have hnone := h.bestRank_none (List.argmin_eq_none.1 hmin)
      cases plain with
      | zero => rfl
      | succ plain => rw [plainMerges, hnone]
    | some e =>
      obtain ⟨s₁, L₁, hpop, htracks, hhead, hstep⟩ := h.popStep hn hresults hmin
      change ∃ s' L', (popStep merges ranks { s with heap := s.heap.erase e } e).bind (mergeLoop merges ranks rounds) =
        some s' ∧ _
      rw [hpop, Option.bind_some]
      rcases hstep with ⟨rfl, hlen⟩ | ⟨hlen, hheap, rank, hbest, hmerge⟩
      · exact ih htracks (by omega) hplain
      · cases plain with
        | zero => omega
        | succ plain =>
          obtain ⟨s', L', hloop, htracks', hhead', hle, hsyms⟩ := ih htracks (by omega) (show L₁.length ≤ plain by omega)
          refine ⟨s', L', hloop, htracks', hhead'.trans hhead, by omega, ?_⟩
          rw [plainMerges, hbest, hsyms]
          exact congrArg _ hmerge.symm

/-- The walk reads the list off the links. -/
theorem walk_linked {s : ChunkState} (rounds : ℕ) : ∀ {p : ℤ} {L : List (ℕ × TokenId)}, Linked s p L →
    L.length < rounds → walk s rounds (headSlot L) = some (L.map Prod.snd) := by
  induction rounds with
  | zero => intro p L _ hlt; omega
  | succ rounds ih =>
    intro p L h hlt
    cases L with
    | nil => rw [headSlot, walk, if_pos (by omega)]; rfl
    | cons q L =>
      obtain ⟨i, a⟩ := q
      obtain ⟨hsym, -, hnext, -, hrest⟩ := h
      rw [headSlot, walk, if_neg (by omega), Int.toNat_natCast, hsym, hnext]
      simp only [Option.bind_eq_bind, Option.bind_some]
      rw [ih hrest (by simpa using hlt)]
      rfl

end Loop

section Seeding
variable {ranks : PairRanks} {syms : List TokenId}

/-- The slots of a list of symbols, from slot `k` on. -/
def slotsFrom : ℕ → List TokenId → List (ℕ × TokenId)
  | _, [] => []
  | k, a :: rest => (k, a) :: slotsFrom (k + 1) rest

@[simp] theorem slotsFrom_snd (k : ℕ) (xs : List TokenId) : (slotsFrom k xs).map Prod.snd = xs := by
  induction xs generalizing k with
  | nil => rfl
  | cons a xs ih => rw [slotsFrom, List.map_cons, ih]

@[simp] theorem slotsFrom_length (k : ℕ) (xs : List TokenId) : (slotsFrom k xs).length = xs.length := by
  have := congrArg List.length (slotsFrom_snd k xs)
  rwa [List.length_map] at this

theorem slotsFrom_fst (k : ℕ) (xs : List TokenId) : (slotsFrom k xs).map Prod.fst = List.range' k xs.length := by
  induction xs generalizing k with
  | nil => rfl
  | cons a xs ih => rw [slotsFrom, List.map_cons, ih, List.length_cons, List.range'_succ]

private theorem slotsFrom_getElem? (k i : ℕ) (xs : List TokenId) :
    (slotsFrom k xs)[i]? = xs[i]?.map fun a => (k + i, a) := by
  induction xs generalizing k i with
  | nil => rfl
  | cons a xs ih =>
    cases i with
    | zero => rfl
    | succ i =>
      rw [slotsFrom, List.getElem?_cons_succ, List.getElem?_cons_succ, ih, Nat.add_right_comm]
      rfl

private theorem asI32_of_lt {n : ℕ} (hn : n < 2 ^ 31) : asI32 n = n := by
  change Int.bmod n 4294967296 = n
  rw [Int.bmod_def]
  omega

private theorem i32Range_of_lt {n : ℕ} (hn : n < 2 ^ 31) : i32Range n = (List.range n).map Int.ofNat := by
  rw [i32Range, asI32_of_lt hn, Int.toNat_natCast]

private theorem linked_from (hn : syms.length < 2 ^ 31) (rest : List TokenId) :
    ∀ {k : ℕ}, (∀ i : ℕ, rest[i]? = syms[k + i]?) →
      Linked (initialState syms) ((k : ℤ) - 1) (slotsFrom k rest) := by
  induction rest with
  | nil => intro k _; trivial
  | cons a rest ih =>
    intro k hrest
    have hk : syms[k]? = some a := by simpa using (hrest 0).symm
    have hlt : k < syms.length := (List.getElem?_eq_some_iff.1 hk).1
    have hlink : Linked (initialState syms) (((k + 1 : ℕ) : ℤ) - 1) (slotsFrom (k + 1) rest) := by
      apply ih
      intro i
      have := hrest (i + 1)
      rwa [List.getElem?_cons_succ, ← Nat.add_assoc, Nat.add_right_comm] at this
    refine ⟨hk, ?_, ?_, ?_, ?_⟩
    · simp [initialState, i32Range_of_lt hn, hlt]
    · simp only [initialState, i32Range_of_lt hn, asI32_of_lt hn, List.getElem?_map, List.getElem?_range hlt,
        Option.map_some, Option.some.injEq, Int.ofNat_eq_natCast]
      cases rest with
      | nil =>
        have hend : syms[k + 1]? = none := by simpa using (hrest 1).symm
        have := List.getElem?_eq_none_iff.1 hend
        rw [if_neg (by omega)]
        rfl
      | cons b rest =>
        have hnext : syms[k + 1]? = some b := by simpa using (hrest 1).symm
        have := (List.getElem?_eq_some_iff.1 hnext).1
        rw [if_pos (by omega)]
        rfl
    · simp [initialState, hlt]
    · simpa using hlink

theorem initialState_tracks (hn : syms.length < 2 ^ 31) :
    Tracks ranks syms.length (fun y => 0 ≤ y.1.1) (initialState syms) (slotsFrom 0 syms) := by
  refine ⟨?_, ?_, ?_, ?_, ?_, ?_, ?_⟩
  · exact linked_from hn syms fun i => by rw [Nat.zero_add]
  · rw [slotsFrom_fst]
    exact List.pairwise_lt_range'
  · simp [initialState, i32Range_of_lt hn]
  · intro i g hg
    have hzero : g = 0 := by
      have := List.mem_of_getElem? hg
      exact List.eq_of_mem_replicate this
    rw [hzero, slotsFrom_length, Nat.zero_add]
  · intro e he
    cases he
  · intro x hx hnot
    exact absurd (Nat.zero_le _) hnot
  · intro e he
    cases he

/-- Slot `i` and its right neighbour. -/
private theorem exists_slot_pair {i : ℕ} (hi : i + 1 < syms.length) :
    ∃ x ∈ adjacent (slotsFrom 0 syms), x.1.1 = i ∧ x.2.1 = i + 1 := by
  have hget : ∀ j < syms.length, (slotsFrom 0 syms)[j]? = some (j, syms.getD j 0) := by
    intro j hj
    rw [slotsFrom_getElem?, List.getD_eq_getElem?_getD, List.getElem?_eq_getElem hj, Nat.zero_add]
    rfl
  refine ⟨((i, syms.getD i 0), (i + 1, syms.getD (i + 1) 0)), ?_, rfl, rfl⟩
  refine List.mem_iff_getElem?.2 ⟨i, ?_⟩
  rw [adjacent, List.getElem?_zip_eq_some, List.getElem?_tail]
  exact ⟨hget i (by omega), hget (i + 1) hi⟩

theorem seeded_tracks (hn : syms.length < 2 ^ 31) (k : ℕ) (hk : k < syms.length) :
    ∃ s, (List.range k).foldlM (fun s i => pushPair ranks s i (i + 1)) (initialState syms) = some s ∧
      Tracks ranks syms.length (fun y => k ≤ y.1.1) s (slotsFrom 0 syms) ∧ s.heap.length ≤ k := by
  induction k with
  | zero => exact ⟨_, rfl, initialState_tracks hn, Nat.le_refl 0⟩
  | succ k ih =>
    obtain ⟨s, hfold, htracks, hlen⟩ := ih (by omega)
    obtain ⟨x, hx, hleft, hright⟩ := exists_slot_pair hk
    obtain ⟨s', hpush, htracks', hlen'⟩ := htracks.push hx
    refine ⟨s', ?_, htracks'.mono ?_, by omega⟩
    · rw [List.range_succ, List.foldlM_append, hfold]
      rw [hleft, hright] at hpush
      simpa using hpush
    · rintro y hy ⟨hle, hne⟩
      by_contra hlt
      exact hne (htracks.pair_unique hx hy (by omega))

/-- All pairs are queued before the loop. -/
theorem seeded_all (ranks : PairRanks) (hn : syms.length < 2 ^ 31) (htwo : 1 < syms.length) :
    ∃ s, (List.range (syms.length - 1)).foldlM (fun s i => pushPair ranks s i (i + 1)) (initialState syms) = some s ∧
      Tracks ranks syms.length (fun _ => False) s (slotsFrom 0 syms) ∧ s.heap.length ≤ syms.length - 1 := by
  obtain ⟨s, hfold, htracks, hlen⟩ := seeded_tracks hn (syms.length - 1) (by omega)
  refine ⟨s, hfold, htracks.mono fun y hy hle => ?_, hlen⟩
  obtain ⟨i, hi⟩ := List.mem_iff_getElem?.1 hy
  rw [adjacent, List.getElem?_zip_eq_some, List.getElem?_tail, slotsFrom_getElem?, slotsFrom_getElem?] at hi
  obtain ⟨hi₁, hi₂⟩ := hi
  obtain ⟨a, -, ha⟩ := Option.map_eq_some_iff.1 hi₁
  obtain ⟨b, hb, -⟩ := Option.map_eq_some_iff.1 hi₂
  have := (List.getElem?_eq_some_iff.1 hb).1
  rw [← ha] at hle
  simp only at hle
  omega

end Seeding

section Chunk
variable {tokenToId : List Char → Option TokenId} {rules : List (List Char × List Char)} {merges : List TokenId}
  {ranks : PairRanks} {ids : List TokenId}

/-- The tokens a chunk starts with. -/
theorem seed_chunk (hids : ids.length = 256) (chunkBytes : List UInt8) :
    (chunkBytes.mapM fun b => ids[b.toNat]?) = some (chunkBytes.map fun b => ids.getD b.toNat 0) := by
  refine Lists.mapM_some fun b _ => ?_
  have hlt : b.toNat < ids.length := hids ▸ b.toNat_lt
  rw [List.getD_eq_getElem?_getD, List.getElem?_eq_getElem hlt, Option.getD_some]

private theorem plainMerges_short {syms : List TokenId} (h : syms.length ≤ 1) (rounds : ℕ) :
    plainMerges merges ranks rounds syms = syms := by
  cases rounds with
  | zero => rfl
  | succ rounds =>
    have hnone : bestRank (fun pair => ranks.lookup pair) syms = none := by
      match syms, h with
      | [], _ => rfl
      | [a], _ => rfl
    rw [plainMerges, hnone]

/-- With a token for every byte and a result for every rank, the two encoders agree. -/
theorem encodeGpt2Chunk_plain (hresults : ∀ pair rank, ranks.lookup pair = some rank → rank < merges.length)
    (hids : ids.length = 256) (chunkBytes : List UInt8) (hlen : chunkBytes.length < 2 ^ 31) :
    encodeGpt2Chunk merges ranks ids chunkBytes = some (plainEncode merges ranks ids chunkBytes) := by
  rw [encodeGpt2Chunk, plainEncode, seed_chunk hids]
  generalize hsyms : (chunkBytes.map fun b => ids.getD b.toNat 0) = syms
  have hn : syms.length = chunkBytes.length := by rw [← hsyms, List.length_map]
  rw [← hn] at hlen ⊢
  simp only [Option.bind_eq_bind, Option.bind_some]
  by_cases hshort : syms.length ≤ 1
  · rw [if_pos hshort, plainMerges_short hshort]
  · rw [if_neg hshort]
    obtain ⟨seeded, hfold, htracks, hheap⟩ := seeded_all ranks hlen (by omega)
    rw [hfold, Option.bind_some]
    obtain ⟨s, L, hloop, htracks', hhead, hle, hplain⟩ := mergeLoop_spec hlen hresults (4 * syms.length) htracks
      (by rw [slotsFrom_length]; omega) (Nat.le_of_eq (slotsFrom_length 0 syms))
    rw [hloop, Option.bind_some]
    rw [slotsFrom_snd] at hplain
    rw [← hplain]
    have hzero : headSlot L = 0 := by
      rw [hhead]
      match syms, hshort with
      | a :: rest, _ => rfl
    match L, hzero with
    | (i, a) :: rest, hzero =>
      have hi : i = 0 := by simpa [headSlot] using hzero
      subst hi
      obtain ⟨-, hprev, -, hdead, -⟩ := htracks'.linked
      have hrange : List.range syms.length = 0 :: (List.range (syms.length - 1)).map Nat.succ := by
        rw [← List.range_succ_eq_map]
        congr 1
        omega
      have hfind : findHead s (List.range syms.length) = some (some 0) := by
        rw [hrange, findHead, hprev]
        simp [hdead]
      rw [hfind]
      simp only [Option.bind_some]
      have hwalk := walk_linked (syms.length + 1) htracks'.linked (by rw [slotsFrom_length] at hle; omega)
      exact hwalk

/-- The priority-queue encoder returns the tokens of the plain encoder, and does not panic:
in particular the rank of every live popped pair is the popped rank. -/
theorem encodeGpt2Chunk_eq_plainEncode (htables : resolveMerges rules tokenToId = .ok (merges, ranks))
    (hids : buildByteToId tokenToId = .ok ids) (chunkBytes : List UInt8) (hlen : chunkBytes.length < 2 ^ 31) :
    encodeGpt2Chunk merges ranks ids chunkBytes = some (plainEncode merges ranks ids chunkBytes) :=
  encodeGpt2Chunk_plain (fun _ _ => (resolveMerges_ok htables).rank_lt) (buildByteToId_length hids) chunkBytes hlen

/-- The bytes and one merged token. -/
def smallVocab (s : List Char) : Option TokenId :=
  match s with
  | [c] => (gpt2CharToByte c).map fun b => b.toNat.toUInt32
  | ['a', 'b'] => some 256
  | _ => none

private theorem smallVocab_bytes : buildByteToId smallVocab = .ok ((List.range 256).map Nat.toUInt32) := by
  decide +kernel

private theorem smallVocab_merges : resolveMerges [(['a'], ['b'])] smallVocab = .ok ([256], [((97, 98), 0)]) := by
  decide +kernel

theorem encodeGpt2Chunk_eq_plainEncode_small :
    encodeGpt2Chunk [256] [((97, 98), 0)] ((List.range 256).map Nat.toUInt32) [98, 97, 98, 97] =
      some (plainEncode [256] [((97, 98), 0)] ((List.range 256).map Nat.toUInt32) [98, 97, 98, 97]) :=
  encodeGpt2Chunk_eq_plainEncode smallVocab_merges smallVocab_bytes _ (by decide)

private theorem pushPair_no_rules {s : ChunkState} {l r : ℕ} (hl : l < s.syms.length) (hr : r < s.syms.length) :
    pushPair [] s l r = some s := by
  rw [pushPair, List.getElem?_eq_getElem hl, List.getElem?_eq_getElem hr]
  rfl

private theorem foldlM_no_rules {s : ChunkState} (k : ℕ) (hk : k < s.syms.length) :
    (List.range k).foldlM (fun s i => pushPair [] s i (i + 1)) s = some s := by
  induction k with
  | zero => rfl
  | succ k ih =>
    rw [List.range_succ, List.foldlM_append, ih (by omega)]
    have := pushPair_no_rules (l := k) (r := k + 1) (by omega) hk
    simpa using this

/-- The links of a chunk of `2 ^ 31` bytes are empty: reading the first one panics. -/
theorem encodeGpt2Chunk_long (hids : ids.length = 256) {chunkBytes : List UInt8}
    (hlen : chunkBytes.length = 2 ^ 31) : encodeGpt2Chunk [] [] ids chunkBytes = none := by
  rw [encodeGpt2Chunk, seed_chunk hids]
  generalize hsyms : (chunkBytes.map fun b => ids.getD b.toNat 0) = syms
  have hn : syms.length = 2 ^ 31 := by rw [← hsyms, List.length_map, hlen]
  simp only [Option.bind_eq_bind, Option.bind_some]
  rw [if_neg (by omega), foldlM_no_rules (syms.length - 1) (show syms.length - 1 < syms.length by omega),
    Option.bind_some]
  have hloop : mergeLoop [] [] (4 * syms.length) (initialState syms) = some (initialState syms) := by
    rw [show 4 * syms.length = (4 * syms.length - 1) + 1 by omega, mergeLoop]
    rfl
  have hrange : List.range syms.length = 0 :: (List.range (syms.length - 1)).map Nat.succ := by
    rw [← List.range_succ_eq_map]
    congr 1
    omega
  have hprev : (initialState syms).prev = [] := by
    have hwrap : asI32 syms.length = -2147483648 := by
      rw [hn]
      rfl
    simp [initialState, i32Range, hwrap]
  rw [hloop, Option.bind_some, hrange, findHead, hprev]
  rfl

theorem long_chunk_differs : ∃ (rules : List (List Char × List Char)) (tokenToId : List Char → Option TokenId)
    (merges : List TokenId) (ranks : PairRanks) (ids : List TokenId) (chunkBytes : List UInt8),
    resolveMerges rules tokenToId = .ok (merges, ranks) ∧ buildByteToId tokenToId = .ok ids ∧
      encodeGpt2Chunk merges ranks ids chunkBytes ≠ some (plainEncode merges ranks ids chunkBytes) := by
  refine ⟨[], smallVocab, [], [], _, List.replicate (2 ^ 31) 97, rfl, smallVocab_bytes, ?_⟩
  rw [encodeGpt2Chunk_long (buildByteToId_length smallVocab_bytes) List.length_replicate]
  intro h
  cases h

end Chunk
end Hipscope.Tokenizer
