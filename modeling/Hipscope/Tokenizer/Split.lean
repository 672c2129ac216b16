import Hipscope.Lists.Traverse
import Hipscope.Tokenizer.RoundTrip

/-! Where the special tokens of a text are: the loop over sorted tokens finds the leftmost, and
at its place the longest, of which the first listed. -/
namespace Hipscope.Tokenizer
open Text

inductive Piece where
  | stretch (s : List Char)
  | special (id : TokenId)
  deriving DecidableEq, Repr

/-- The longest special token the text begins with; of equal ones the first listed. -/
def longestSpecial (specials : List (List Char × TokenId)) (text : List Char) : Option (List Char × TokenId) :=
  specials.find? fun st => st.1.isPrefixOf text &&
    specials.all fun other => !other.1.isPrefixOf text || decide (other.1.length ≤ st.1.length)

def flush (pending : List Char) : List Piece := if pending = [] then [] else [.stretch pending]

/-- The text from left to right; `skip` characters of the last special token are still to be
passed over, `pending` was read since. -/
def splitFrom (specials : List (List Char × TokenId)) : ℕ → List Char → List Char → List Piece
  | _, pending, [] => flush pending
  | skip + 1, pending, _ :: rest => splitFrom specials skip pending rest
  | 0, pending, c :: rest =>
    match longestSpecial specials (c :: rest) with
    | some st => flush pending ++ .special st.2 :: splitFrom specials (st.1.length - 1) [] rest
    | none => splitFrom specials 0 (pending ++ [c]) rest

/-- Without special tokens the text is one stretch. -/
def splitAtSpecials (specials : List (List Char × TokenId)) (text : List Char) : List Piece :=
  if specials = [] then [.stretch text] else splitFrom specials 0 [] text

def Piece.ids (u : CharClasses) (t : Tokenizer) : Piece → Option (List TokenId)
  | stretch s => t.encodeRaw u s
  | special id => some [id]

/-- The pieces one behind the other; `none` if encoding one of them panics. -/
def encodePieces (u : CharClasses) (t : Tokenizer) : List Piece → Option (List TokenId)
  | [] => some []
  | piece :: pieces => do
    let ids ← piece.ids u t
    let rest ← encodePieces u t pieces
    some (ids ++ rest)

section Longest
variable {specials : List (List Char × TokenId)} {text : List Char} {st : List Char × TokenId}

private theorem byteLen_le_of_length_le {a b : List Char} (ha : a <+: text) (hb : b <+: text) :
    byteLen a ≤ byteLen b ↔ a.length ≤ b.length := by
  have hmono : ∀ {a b : List Char}, a <+: b → byteLen a ≤ byteLen b := by
    rintro a b ⟨t, rfl⟩
    rw [byteLen, byteLen, utf8Bytes_append, List.length_append]
    exact Nat.le_add_right _ _
  have hstrict : ∀ {a b : List Char}, a <+: b → byteLen b ≤ byteLen a → a = b := by
    rintro a b ⟨t, rfl⟩ hle
    rw [byteLen, byteLen, utf8Bytes_append, List.length_append] at hle
    have hnil : t = [] := by
      cases t with
      | nil => rfl
      | cons c t =>
        rw [utf8Bytes_cons, List.length_append] at hle
        have := List.length_pos_iff.2 (String.utf8EncodeChar_ne_nil (c := c))
        omega
    rw [hnil, List.append_nil]
  constructor
  · intro hle
    rcases List.prefix_or_prefix_of_prefix ha hb with h | h
    · exact h.length_le
    · rw [hstrict h hle]
  · intro hle
    exact hmono (List.prefix_of_prefix_length_le ha hb hle)

/-- Sorting keeps the order of tokens of one length. -/
private theorem filter_sortSpecials {p : List Char × TokenId → Bool} (specials : List (List Char × TokenId))
    (h : ∀ a ∈ specials, ∀ b ∈ specials, p a → p b → byteLen a.1 = byteLen b.1) :
    (sortSpecials specials).filter p = specials.filter p := by
  have hpairwise : (specials.filter p).Pairwise fun a b => decide (byteLen b.1 ≤ byteLen a.1) = true := by
    refine List.pairwise_of_forall_mem_list fun a ha b hb => ?_
    rw [List.mem_filter] at ha hb
    rw [decide_eq_true_eq, h a ha.1 b hb.1 ha.2 hb.2]
  have hsub : (specials.filter p).Sublist (sortSpecials specials) := by
    refine List.sublist_mergeSort ?_ ?_ hpairwise List.filter_sublist
    · intro a b c hab hbc
      rw [decide_eq_true_eq] at hab hbc ⊢
      omega
    · intro a b
      rw [Bool.or_eq_true, decide_eq_true_eq, decide_eq_true_eq]
      omega
  have hfilter := hsub.filter p
  rw [List.filter_filter] at hfilter
  simp only [Bool.and_self] at hfilter
  refine (hfilter.eq_of_length ?_).symm
  exact ((List.mergeSort_perm specials _).filter p).length_eq.symm

theorem matchSpecial_sorted (specials : List (List Char × TokenId)) (text : List Char) :
    matchSpecial (sortSpecials specials) text = longestSpecial specials text := by
  obtain ⟨q, hq⟩ : ∃ q : List Char × TokenId → Bool, q = fun st => st.1.isPrefixOf text &&
      specials.all fun other => !other.1.isPrefixOf text || decide (other.1.length ≤ st.1.length) := ⟨_, rfl⟩
  have hiff : ∀ st, q st = true ↔ st.1 <+: text ∧ ∀ other ∈ specials, other.1 <+: text → other.1.length ≤ st.1.length := by
    intro st
    simp only [hq, Bool.and_eq_true, List.isPrefixOf_iff_prefix, List.all_eq_true, Bool.or_eq_true, Bool.not_eq_true',
      ← Bool.not_eq_true, decide_eq_true_eq, imp_iff_not_or]
  have hlongest : (sortSpecials specials).find? q = longestSpecial specials text := by
    rw [longestSpecial, ← hq, ← List.head?_filter, ← List.head?_filter, filter_sortSpecials]
    intro a ha b hb hqa hqb
    rw [hiff] at hqa hqb
    have hle := (byteLen_le_of_length_le hqa.1 hqb.1).2 (hqb.2 a ha hqa.1)
    have hge := (byteLen_le_of_length_le hqb.1 hqa.1).2 (hqa.2 b hb hqb.1)
    omega
  rw [← hlongest, matchSpecial]
  cases hfind : (sortSpecials specials).find? fun st => st.1.isPrefixOf text with
  | none =>
    refine (List.find?_eq_none.2 fun st hst hqst => ?_).symm
    exact List.find?_eq_none.1 hfind st hst (List.isPrefixOf_iff_prefix.2 ((hiff st).1 hqst).1)
  | some st =>
    obtain ⟨hin, front, back, hsplit, hfront⟩ := List.find?_eq_some_iff_append.1 hfind
    have hsorted : (sortSpecials specials).Pairwise fun a b => decide (byteLen b.1 ≤ byteLen a.1) = true := by
      refine List.pairwise_mergeSort ?_ ?_ specials
      · intro a b c hab hbc
        rw [decide_eq_true_eq] at hab hbc ⊢
        omega
      · intro a b
        rw [Bool.or_eq_true, decide_eq_true_eq, decide_eq_true_eq]
        omega
    have hqst : q st = true := by
      rw [hiff]
      refine ⟨List.isPrefixOf_iff_prefix.1 hin, fun other hother hother' => ?_⟩
      rw [← mem_sortSpecials, hsplit, List.mem_append, List.mem_cons] at hother
      rcases hother with hmem | rfl | hmem
      · have := hfront other hmem
        rw [Bool.not_eq_true', Bool.eq_false_iff, Ne, List.isPrefixOf_iff_prefix] at this
        exact absurd hother' this
      · exact le_rfl
      · rw [hsplit, List.pairwise_append, List.pairwise_cons] at hsorted
        have hle := of_decide_eq_true (hsorted.2.1.1 other hmem)
        exact (byteLen_le_of_length_le hother' (List.isPrefixOf_iff_prefix.1 hin)).1 hle
    refine (List.find?_eq_some_iff_append.2 ⟨hqst, front, back, hsplit, fun a ha => ?_⟩).symm
    have := hfront a ha
    rw [Bool.not_eq_true', Bool.eq_false_iff] at this ⊢
    intro hqa
    exact this (List.isPrefixOf_iff_prefix.2 ((hiff a).1 hqa).1)

end Longest

section Next
variable {specials : List (List Char × TokenId)} {remaining : List Char}

private theorem foldl_next {α : Type} {l : List α} (found : α → Option ℕ) {f : ℕ → α → ℕ} (next : ℕ)
    (hnone : ∀ next a, found a = none → f next a = next) (hsome : ∀ next a pos, found a = some pos → f next a = min pos next) :
    l.foldl f next ≤ next ∧ (∀ a ∈ l, ∀ pos, found a = some pos → l.foldl f next ≤ pos) ∧
      (l.foldl f next = next ∨ ∃ a ∈ l, found a = some (l.foldl f next)) := by
  induction l generalizing next with
  | nil => exact ⟨le_rfl, fun _ h => absurd h List.not_mem_nil, .inl rfl⟩
  | cons a l ih =>
    obtain ⟨hle, hall, hat⟩ := ih (f next a)
    have hstep : f next a ≤ next ∧ (∀ pos, found a = some pos → f next a ≤ pos) ∧
        (f next a = next ∨ found a = some (f next a)) := by
      cases hfind : found a with
      | none =>
        rw [hnone next a hfind]
        exact ⟨le_rfl, fun _ h => (by cases h), .inl rfl⟩
      | some pos =>
        rw [hsome next a pos hfind]
        refine ⟨Nat.min_le_right .., fun _ h => Option.some.inj h ▸ Nat.min_le_left .., ?_⟩
        rcases Nat.le_total pos next with h | h
        · rw [Nat.min_eq_left h]
          exact .inr rfl
        · exact .inl (Nat.min_eq_right h)
    rw [List.foldl_cons]
    refine ⟨hle.trans hstep.1, fun b hb pos hpos => ?_, ?_⟩
    · rcases List.mem_cons.1 hb with rfl | hb
      · exact hle.trans (hstep.2.1 pos hpos)
      · exact hall b hb pos hpos
    · rcases hat with heq | ⟨b, hb, hfind⟩
      · rw [heq]
        rcases hstep.2.2 with hsame | hfind
        · exact .inl hsame
        · exact .inr ⟨a, List.mem_cons_self .., hfind⟩
      · exact .inr ⟨b, List.mem_cons_of_mem _ hb, hfind⟩

private theorem nextSpecial_least (specials : List (List Char × TokenId)) (remaining : List Char) :
    nextSpecial specials remaining ≤ remaining.length ∧
      (∀ st ∈ specials, ∀ pos, memmem remaining st.1 = some pos → nextSpecial specials remaining ≤ pos) ∧
      (nextSpecial specials remaining = remaining.length ∨
        ∃ st ∈ specials, memmem remaining st.1 = some (nextSpecial specials remaining)) := by
  refine foldl_next (fun st : List Char × TokenId => memmem remaining st.1) _ (fun next st h => ?_) fun next st pos h => ?_
  · simp only [h]
  · simp only [h]
    split
    · exact (Nat.min_eq_left (by omega)).symm
    · exact (Nat.min_eq_right (by omega)).symm

/-- Up to the next special token none begins, and there one does, or the text ends. -/
theorem nextSpecial_spec (remaining : List Char) (hnonempty : ∀ st ∈ specials, st.1 ≠ []) :
    (∀ j < nextSpecial specials remaining, matchSpecial specials (remaining.drop j) = none) ∧
      nextSpecial specials remaining ≤ remaining.length := by
  obtain ⟨hle, hall, -⟩ := nextSpecial_least specials remaining
  refine ⟨fun j hj => List.find?_eq_none.2 fun st hst hin => ?_, hle⟩
  rw [List.isPrefixOf_iff_prefix] at hin
  cases hfind : memmem remaining st.1 with
  | none => exact memmem_none hfind j hin
  | some pos =>
    have hpos : pos ≤ j := by
      by_contra hlt
      exact (memmem_some (hnonempty st hst) hfind).2.2 j (Nat.lt_of_not_le hlt) hin
    have := hall st hst pos hfind
    omega

theorem nextSpecial_stops (hnonempty : ∀ st ∈ specials, st.1 ≠ []) :
    remaining.drop (nextSpecial specials remaining) = [] ∨
      (matchSpecial specials (remaining.drop (nextSpecial specials remaining))).isSome := by
  obtain ⟨-, -, hat⟩ := nextSpecial_least specials remaining
  rcases hat with hend | ⟨st, hst, hfind⟩
  · exact .inl (List.drop_eq_nil_of_le hend.ge)
  · refine .inr (List.find?_isSome.2 ⟨st, hst, ?_⟩)
    exact List.isPrefixOf_iff_prefix.2 (memmem_some (hnonempty st hst) hfind).1

end Next

section Scan
variable {specials : List (List Char × TokenId)} {pending text : List Char} {st : List Char × TokenId} {k : ℕ}

private theorem splitFrom_skip (hk : k ≤ text.length) :
    splitFrom specials k pending text = splitFrom specials 0 pending (text.drop k) := by
  induction text generalizing k with
  | nil =>
    obtain rfl := Nat.le_zero.1 hk
    rfl
  | cons c text ih =>
    cases k with
    | zero => rfl
    | succ k =>
      rw [splitFrom, ih (Nat.le_of_succ_le_succ hk)]
      rfl

/-- A special token closes the stretch before it. -/
private theorem splitFrom_special (hne : text ≠ []) (hst : st.1 ≠ []) (hmatch : longestSpecial specials text = some st) :
    splitFrom specials 0 pending text =
      flush pending ++ .special st.2 :: splitFrom specials 0 [] (text.drop st.1.length) := by
  have hin : st.1 <+: text := by
    have := List.find?_some hmatch
    rw [Bool.and_eq_true] at this
    exact List.isPrefixOf_iff_prefix.1 this.1
  cases text with
  | nil => exact absurd rfl hne
  | cons c text =>
    have hlen := hin.length_le
    have hpos := List.length_pos_iff.2 hst
    rw [List.length_cons] at hlen
    rw [splitFrom, hmatch]
    simp only
    rw [splitFrom_skip (by omega), ← List.drop_succ_cons (a := c), Nat.sub_add_cancel hpos]

/-- Where no special token begins, the stretch grows. -/
private theorem splitFrom_stretch (h : ∀ j < k, longestSpecial specials (text.drop j) = none) (hk : k ≤ text.length) :
    splitFrom specials 0 pending text = splitFrom specials 0 (pending ++ text.take k) (text.drop k) := by
  induction k generalizing pending text with
  | zero => rw [List.take_zero, List.append_nil, List.drop_zero]
  | succ k ih =>
    cases text with
    | nil => exact absurd hk (Nat.not_succ_le_zero k)
    | cons c text =>
      have hnone : longestSpecial specials (c :: text) = none := h 0 (Nat.succ_pos k)
      have hrest : ∀ j < k, longestSpecial specials (text.drop j) = none := fun j hj => h (j + 1) (Nat.succ_lt_succ hj)
      rw [splitFrom, hnone]
      simp only
      rw [ih hrest (Nat.le_of_succ_le_succ hk), List.take_succ_cons, List.drop_succ_cons, List.append_assoc,
        List.singleton_append]

/-- What is pending is a stretch of its own when the text ends or a special token begins. -/
private theorem splitFrom_flush (hnonempty : ∀ st ∈ specials, st.1 ≠ [])
    (h : text = [] ∨ (longestSpecial specials text).isSome) :
    splitFrom specials 0 pending text = flush pending ++ splitFrom specials 0 [] text := by
  rcases h with rfl | h
  · have hnil : ∀ pending, splitFrom specials 0 pending [] = flush pending := fun _ => by rw [splitFrom]
    rw [hnil, hnil]
    exact (List.append_nil _).symm
  · obtain ⟨st, hst⟩ := Option.isSome_iff_exists.1 h
    have hmem := hnonempty st (List.mem_of_find?_eq_some hst)
    have hne : text ≠ [] := by
      rintro rfl
      have := List.find?_some hst
      rw [Bool.and_eq_true] at this
      exact hmem (List.prefix_nil.1 (List.isPrefixOf_iff_prefix.1 this.1))
    rw [splitFrom_special hne hmem hst, splitFrom_special hne hmem hst]
    rfl

end Scan

section Loop
variable {u : CharClasses} {t : Tokenizer} {specials : List (List Char × TokenId)} {remaining : List Char}

theorem encodePieces_append (a b : List Piece) :
    encodePieces u t (a ++ b) = (encodePieces u t a).bind fun ids => (encodePieces u t b).bind fun rest =>
      some (ids ++ rest) := by
  induction a with
  | nil =>
    rw [List.nil_append, encodePieces]
    cases encodePieces u t b <;> rfl
  | cons piece a ih =>
    rw [List.cons_append, encodePieces, encodePieces, ih]
    cases piece.ids u t with
    | none => rfl
    | some ids =>
      cases encodePieces u t a with
      | none => rfl
      | some ids' =>
        cases encodePieces u t b with
        | none => rfl
        | some rest => simp only [Option.bind_eq_bind, Option.bind_some, List.append_assoc]

private theorem encodePieces_flush (segment : List Char) :
    encodePieces u t (flush segment) = if segment ≠ [] then t.encodeRaw u segment else some [] := by
  rw [flush]
  by_cases h : segment = []
  · rw [if_pos h, if_neg (not_not.2 h)]
    rfl
  · rw [if_neg h, if_pos h, encodePieces, encodePieces, Piece.ids]
    cases t.encodeRaw u segment with
    | none => rfl
    | some ids => simp only [Option.bind_eq_bind, Option.bind_some, List.append_nil]

/-- Without an empty special token the loop gives the pieces of the text. -/
theorem encodeLoop_split (hspecials : t.specialTokens = sortSpecials specials) (hnonempty : ∀ st ∈ specials, st.1 ≠ [])
    {rounds : ℕ} (hrounds : remaining.length < rounds) :
    t.encodeLoop u rounds remaining = encodePieces u t (splitFrom specials 0 [] remaining) := by
  have hsorted : ∀ st ∈ t.specialTokens, st.1 ≠ [] := by
    rw [hspecials]
    exact fun st hst => hnonempty st (mem_sortSpecials.1 hst)
  induction rounds generalizing remaining with
  | zero => exact absurd hrounds (Nat.not_lt_zero _)
  | succ rounds ih =>
    rw [Tokenizer.encodeLoop]
    by_cases hne : remaining = []
    · subst hne
      rw [if_pos rfl]
      rfl
    have hlen := List.length_pos_iff.2 hne
    rw [if_neg hne]
    cases hmatch : matchSpecial t.specialTokens remaining with
    | some st =>
      have hst := hsorted st (matchSpecial_some hmatch).1
      have hlongest : longestSpecial specials remaining = some st := by
        rw [← matchSpecial_sorted, ← hspecials, hmatch]
      have hpos := List.length_pos_iff.2 hst
      simp only
      rw [splitFrom_special hne hst hlongest, flush, if_pos rfl, List.nil_append, encodePieces, Piece.ids,
        ih (by rw [List.length_drop]; omega)]
      rfl
    | none =>
      have hpos := nextSpecial_pos hmatch hne
      obtain ⟨hnone, hle⟩ := nextSpecial_spec remaining hsorted
      have hstop : remaining.drop (nextSpecial t.specialTokens remaining) = [] ∨
          (longestSpecial specials (remaining.drop (nextSpecial t.specialTokens remaining))).isSome := by
        rw [← matchSpecial_sorted, ← hspecials]
        exact nextSpecial_stops hsorted
      have hnone' : ∀ j < nextSpecial t.specialTokens remaining, longestSpecial specials (remaining.drop j) = none := by
        intro j hj
        rw [← matchSpecial_sorted, ← hspecials]
        exact hnone j hj
      simp only
      rw [splitFrom_stretch hnone' hle, List.nil_append, splitFrom_flush hnonempty hstop, encodePieces_append,
        encodePieces_flush, ih (by rw [List.length_drop]; omega)]
      split <;> rfl

/-- Consumed by special tokens, the text has no other piece. -/
private theorem encodeLoop_consumed (hspecials : t.specialTokens = sortSpecials specials)
    (h : Consumed t.specialTokens remaining) :
    ∃ rounds, t.encodeLoop u rounds remaining = encodePieces u t (splitFrom specials 0 [] remaining) := by
  induction h with
  | done => exact ⟨1, rfl⟩
  | @step remaining st hne hmatch hst _ ih =>
    obtain ⟨rounds, hrest⟩ := ih
    have hlongest : longestSpecial specials remaining = some st := by
      rw [← matchSpecial_sorted, ← hspecials, hmatch]
    refine ⟨rounds + 1, ?_⟩
    rw [Tokenizer.encodeLoop, if_neg hne, hmatch]
    simp only
    rw [splitFrom_special hne hst hlongest, flush, if_pos rfl, List.nil_append, encodePieces, Piece.ids, hrest]
    rfl

end Loop

section Encode
variable {u : CharClasses} {t : Tokenizer} {tok : HfJson} {text : List Char}

/-- The added tokens of a file, in its order. -/
def HfJson.specials (tok : HfJson) : List (List Char × TokenId) :=
  (addedEntries tok.addedTokens).map fun e => (e.1, UInt32.ofNat e.2)

/-- Encoding ends, with the pieces of the text one behind the other. -/
def EncodesPieces (u : CharClasses) (t : Tokenizer) (specials : List (List Char × TokenId)) (text : List Char) : Prop :=
  ∃ rounds ids, t.encode u rounds text = some (t.bosTokens text ++ ids) ∧
    encodePieces u t (splitAtSpecials specials text) = some ids

theorem fromHfJson_specials (h : fromHfJson tok = .ok t) : t.specialTokens = sortSpecials tok.specials := by
  simp only [fromHfJson, bind, Except.bind] at h
  repeat' split at h
  all_goals first
    | cases h; rfl
    | cases h

private theorem encode_eq (rounds : ℕ) (text : List Char) :
    t.encode u rounds text = (if t.specialTokens = [] then t.encodeRaw u text else t.encodeLoop u rounds text).map
      (t.bosTokens text ++ ·) := by
  rw [Tokenizer.encode]
  split
  · cases t.encodeRaw u text <;> rfl
  · cases t.encodeLoop u rounds text <;> rfl

private theorem encodePieces_stretch {pieces : List Piece} {ids : List TokenId} (h : encodePieces u t pieces = some ids)
    {s : List Char} (hs : Piece.stretch s ∈ pieces) : (t.encodeRaw u s).isSome := by
  induction pieces generalizing ids with
  | nil => exact absurd hs List.not_mem_nil
  | cons piece pieces ih =>
    rw [encodePieces] at h
    obtain ⟨first, hfirst, h⟩ := Option.bind_eq_some_iff.1 h
    obtain ⟨rest, hrest, -⟩ := Option.bind_eq_some_iff.1 h
    rcases List.mem_cons.1 hs with rfl | hs
    · exact Option.isSome_iff_exists.2 ⟨first, hfirst⟩
    · exact ih hrest hs

private theorem encodePieces_isSome {pieces : List Piece}
    (h : ∀ s, Piece.stretch s ∈ pieces → (t.encodeRaw u s).isSome) : (encodePieces u t pieces).isSome := by
  induction pieces with
  | nil => rfl
  | cons piece pieces ih =>
    obtain ⟨rest, hrest⟩ := Option.isSome_iff_exists.1 (ih fun s hs => h s (List.mem_cons_of_mem _ hs))
    have hfirst : ∃ ids, piece.ids u t = some ids := by
      cases piece with
      | stretch s => exact Option.isSome_iff_exists.1 (h s (List.mem_cons_self ..))
      | special id => exact ⟨[id], rfl⟩
    obtain ⟨ids, hids⟩ := hfirst
    rw [encodePieces, hids, hrest]
    rfl

/-- A tokenizer read from a file encodes by the leftmost, longest special tokens exactly when none
of them is empty, or the text is consumed before the empty one is reached, and every stretch can
be encoded. -/
theorem encode_pieces_iff (hbuild : fromHfJson tok = .ok t) (u : CharClasses) (text : List Char) :
    EncodesPieces u t tok.specials text ↔
      ((∀ st ∈ t.specialTokens, st.1 ≠ []) ∨ Consumed t.specialTokens text) ∧
        ∀ s, Piece.stretch s ∈ splitAtSpecials tok.specials text → (t.encodeRaw u s).isSome := by
  have hspecials := fromHfJson_specials hbuild
  have hnil : t.specialTokens = [] ↔ tok.specials = [] := by
    rw [hspecials, ← List.length_eq_zero_iff, sortSpecials, List.length_mergeSort, List.length_eq_zero_iff]
  constructor
  · rintro ⟨rounds, ids, hencode, hpieces⟩
    refine ⟨?_, fun s hs => encodePieces_stretch hpieces hs⟩
    by_contra hnot
    simp only [not_or, not_forall, not_not] at hnot
    obtain ⟨⟨st, hst, hempty⟩, hconsumed⟩ := hnot
    rw [encode_eq, if_neg (List.ne_nil_of_mem hst), loop_stuck ⟨st, hst, hempty⟩ rounds hconsumed] at hencode
    cases hencode
  · rintro ⟨hends, hraw⟩
    obtain ⟨ids, hids⟩ := Option.isSome_iff_exists.1 (encodePieces_isSome hraw)
    by_cases hnone : t.specialTokens = []
    · refine ⟨0, ids, ?_, hids⟩
      rw [splitAtSpecials, if_pos (hnil.1 hnone), encodePieces, encodePieces, Piece.ids] at hids
      obtain ⟨raw, hraw, hids⟩ := Option.bind_eq_some_iff.1 hids
      rw [Option.bind_eq_bind, Option.bind_some, List.append_nil] at hids
      rw [encode_eq, if_pos hnone, hraw, hids]
      rfl
    · have hloop : ∃ rounds, t.encodeLoop u rounds text = encodePieces u t (splitFrom tok.specials 0 [] text) := by
        rcases hends with hnonempty | hconsumed
        · refine ⟨text.length + 1, encodeLoop_split hspecials (fun st hst => ?_) (Nat.lt_succ_self _)⟩
          exact hnonempty st (hspecials ▸ mem_sortSpecials.2 hst)
        · exact encodeLoop_consumed hspecials hconsumed
      obtain ⟨rounds, hloop⟩ := hloop
      refine ⟨rounds, ids, ?_, hids⟩
      rw [splitAtSpecials, if_neg (fun h => hnone (hnil.2 h))] at hids
      rw [encode_eq, if_neg hnone, hloop, hids]
      rfl

private theorem fromHfJson_tables (h : fromHfJson tok = .ok t) :
    ∃ rules, Resolved (fun s => t.tokenToId.lookup s) rules t.merges t.mergePairRank ∧
      (t.isGpt2Bpe = true → ∃ ids, t.byteToId = some ids ∧ buildByteToId (fun s => t.tokenToId.lookup s) = .ok ids) := by
  simp only [fromHfJson, bind, Except.bind] at h
  split at h
  · cases h
  · split at h
    · cases h
    · split at h
      · cases h
      · split at h
        · cases h
        · next htables =>
          cases h
          exact ⟨_, resolveTables_ok htables⟩

/-- A stretch below `2 ^ 31` bytes can be encoded by every tokenizer read from a file. -/
theorem encodeRaw_isSome (hbuild : fromHfJson tok = .ok t) {s : List Char} (hlen : (utf8Bytes s).length < 2 ^ 31) :
    (t.encodeRaw u s).isSome := by
  obtain ⟨rules, hresolved, hbytes⟩ := fromHfJson_tables hbuild
  rw [Tokenizer.encodeRaw]
  split
  · next hgpt =>
    obtain ⟨ids, hids, hbuilt⟩ := hbytes hgpt
    have hchunks : (((gpt2PretokPattern u).findIter s).mapM fun m =>
        t.byteToId.bind fun byteToId => encodeGpt2Chunk t.merges t.mergePairRank byteToId (utf8Bytes m)).isSome := by
      refine Lists.mapM_isSome fun m hm => ?_
      have hin : m <:+: s := by
        obtain ⟨before, after, hsplit⟩ := List.append_of_mem hm
        have hall := pretok_flatten u s
        rw [hsplit, List.flatten_append, List.flatten_cons] at hall
        exact ⟨before.flatten, after.flatten, by rw [← hall, List.append_assoc]⟩
      have := utf8Bytes_le_of_infix hin
      rw [hids, Option.bind_some, encodeGpt2Chunk_plain (fun _ _ => hresolved.rank_lt) (buildByteToId_length hbuilt)
        (utf8Bytes m) (by omega)]
      rfl
    obtain ⟨chunks, hchunks⟩ := Option.isSome_iff_exists.1 hchunks
    rw [Tokenizer.encodeGpt2Bpe, hchunks]
    rfl
  · rfl

/-- A special token between two stretches. -/
theorem encode_pieces_iff_small : ∃ t, fromHfJson (byteJson "<s>".toList) = .ok t ∧
    EncodesPieces asciiClasses t (byteJson "<s>".toList).specials "a<s>b".toList := by
  obtain ⟨t, hbuild, -, -, hspecials⟩ := byteJson_build "<s>".toList
  refine ⟨t, hbuild, (encode_pieces_iff hbuild _ _).2 ⟨.inl ?_, fun s hs => encodeRaw_isSome hbuild ?_⟩⟩
  · rw [hspecials]
    intro st hst
    rw [List.mem_singleton.1 hst]
    exact List.cons_ne_nil _ _
  · have hpieces : splitAtSpecials (byteJson "<s>".toList).specials "a<s>b".toList =
        [.stretch ['a'], .special 257, .stretch ['b']] := rfl
    rw [hpieces] at hs
    simp only [List.mem_cons, Piece.stretch.injEq, reduceCtorEq, List.not_mem_nil, or_false, false_or] at hs
    rcases hs with rfl | rfl <;> decide

/-- An added token with empty content is matched at every place for ever. -/
theorem empty_added_token_never_ends : ∃ (tok : HfJson) (t : Tokenizer) (text : List Char),
    fromHfJson tok = .ok t ∧ (∀ rounds, t.encode asciiClasses rounds text = none) ∧
      ¬ EncodesPieces asciiClasses t tok.specials text := by
  obtain ⟨t, hbuild, -, -, hspecials⟩ := byteJson_build []
  have hnot : ¬ Consumed t.specialTokens ['a'] := by
    intro h
    cases h with
    | step hne hmatch hst hrest =>
      rw [hspecials] at hmatch
      cases hmatch
      exact hst rfl
  have hnone : ∀ rounds, t.encode asciiClasses rounds ['a'] = none := by
    intro rounds
    have hempty : ∃ st ∈ t.specialTokens, st.1 = [] := ⟨([], 257), by rw [hspecials]; exact List.mem_singleton_self _, rfl⟩
    rw [encode_eq, if_neg (by rw [hspecials]; exact List.cons_ne_nil _ _), loop_stuck hempty rounds hnot]
    rfl
  refine ⟨byteJson [], t, ['a'], hbuild, hnone, fun h => ?_⟩
  obtain ⟨rounds, ids, hencode, -⟩ := h
  rw [hnone] at hencode
  cases hencode

end Encode
end Hipscope.Tokenizer
