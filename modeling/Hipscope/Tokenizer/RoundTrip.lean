import Hipscope.Tokenizer.Build
import Hipscope.Tokenizer.ChunkRuns

/-! Decoding undoes encoding: the pre-tokenization pattern covers the text, merging two tokens
keeps their bytes, and special tokens stand for themselves. An empty special token is matched
for ever. -/
namespace Hipscope.Tokenizer
open Hipscope.Text Pattern

section Pretok
variable (u : CharClasses)

/-- Every character begins a match: of a letter, number, punctuation or white-space run. -/
theorem pretok_covers (c : Char) (s : List Char) : ∃ r, r ∈ (gpt2PretokPattern u).remainders (c :: s) := by
  refine ⟨s, mem_alt_right ?_⟩
  by_cases hletter : u.isLetter c = true
  · exact mem_alt_left (mem_seq (self_mem_rep _ _ _) (tail_mem_rep hletter (Nat.le_refl 1) (by simp) s))
  refine mem_alt_right ?_
  by_cases hnumber : u.isNumber c = true
  · exact mem_alt_left (tail_mem_rep hnumber (Nat.le_refl 1) (by simp) s)
  refine mem_alt_right ?_
  by_cases hspace : u.isSpace c = true
  · exact mem_alt_right (mem_alt_right (tail_mem_rep hspace (Nat.le_refl 1) (by simp) s))
  · refine mem_alt_left (mem_seq (self_mem_rep _ _ _) (mem_seq (tail_mem_rep ?_ (Nat.le_refl 1) (by simp) s) (self_mem_rep _ _ _)))
    simp [hspace, hletter, hnumber]

theorem pretok_flatten (text : List Char) : ((gpt2PretokPattern u).findIter text).flatten = text :=
  findIter_flatten (p := gpt2PretokPattern u) Nat.one_pos (pretok_covers u) text

end Pretok

section Decode
variable {t : Tokenizer}

@[simp] theorem decodeBytes_nil : t.decodeBytes [] = [] := rfl

variable {rules : List (List Char × List Char)}

theorem utf8Bytes_le_of_infix {a b : List Char} (h : a <:+: b) : (utf8Bytes a).length ≤ (utf8Bytes b).length := by
  obtain ⟨x, y, rfl⟩ := h
  rw [utf8Bytes_append, utf8Bytes_append, List.length_append, List.length_append]
  omega

end Decode

section Specials
variable {t : Tokenizer} {rules : List (List Char × List Char)} {u : CharClasses}
  {specials : List (List Char × TokenId)} {remaining : List Char}

theorem matchSpecial_some {st : List Char × TokenId} (h : matchSpecial specials remaining = some st) :
    st ∈ specials ∧ ∃ rest, remaining = st.1 ++ rest := by
  refine ⟨List.mem_of_find?_eq_some h, ?_⟩
  have hp := List.find?_some h
  obtain ⟨rest, hrest⟩ := List.isPrefixOf_iff_prefix.1 hp
  exact ⟨rest, hrest.symm⟩

private theorem foldl_pos {α : Type} {f : ℕ → α → ℕ} {l : List α} {next : ℕ}
    (hf : ∀ next, ∀ a ∈ l, 0 < next → 0 < f next a) (hpos : 0 < next) : 0 < l.foldl f next := by
  induction l generalizing next with
  | nil => exact hpos
  | cons a l ih =>
    rw [List.foldl_cons]
    exact ih (fun next b hb => hf next b (List.mem_cons_of_mem a hb)) (hf next a (List.mem_cons_self ..) hpos)

/-- Where no special token starts, the next one is further on. -/
theorem nextSpecial_pos (h : matchSpecial specials remaining = none) (hne : remaining ≠ []) :
    0 < nextSpecial specials remaining := by
  refine foldl_pos (fun next st hst hpos => ?_) (List.length_pos_iff.2 hne)
  have hnot : ¬ st.1 <+: remaining := by
    have := List.find?_eq_none.1 h st hst
    intro hp
    exact this (List.isPrefixOf_iff_prefix.2 hp)
  split
  · rename_i pos hfound
    split
    · refine Nat.pos_of_ne_zero ?_
      rintro rfl
      have hsome : st.1 ≠ [] := fun h => hnot (h ▸ List.nil_prefix)
      exact hnot (by simpa using (memmem_some hsome hfound).1)
    · exact hpos
  · exact hpos

/-- The text is special tokens only, none of them empty, when the first one that matches is
taken each time. -/
inductive Consumed (specials : List (List Char × TokenId)) : List Char → Prop where
  | done : Consumed specials []
  | step {remaining : List Char} {st : List Char × TokenId} (hne : remaining ≠ [])
      (hmatch : matchSpecial specials remaining = some st) (hst : st.1 ≠ [])
      (hrest : Consumed specials (remaining.drop st.1.length)) : Consumed specials remaining

/-- Once only the empty special token matches, the loop never ends. -/
theorem loop_stuck (hempty : ∃ st ∈ t.specialTokens, st.1 = []) (rounds : ℕ) :
    ∀ {remaining : List Char}, ¬ Consumed t.specialTokens remaining → t.encodeLoop u rounds remaining = none := by
  induction rounds with
  | zero => intro remaining _; rfl
  | succ rounds ih =>
    intro remaining hnot
    have hne : remaining ≠ [] := fun h => hnot (h ▸ .done)
    obtain ⟨st₀, hst₀, hnil⟩ := hempty
    have hsome : (matchSpecial t.specialTokens remaining).isSome := by
      rw [matchSpecial, List.find?_isSome]
      exact ⟨st₀, hst₀, by rw [hnil]; rfl⟩
    obtain ⟨st, hmatch⟩ := Option.isSome_iff_exists.1 hsome
    have hrest : t.encodeLoop u rounds (remaining.drop st.1.length) = none := by
      refine ih fun hconsumed => hnot ?_
      by_cases hst : st.1 = []
      · rwa [hst, List.length_nil, List.drop_zero] at hconsumed
      · exact .step hne hmatch hst hconsumed
    rw [Tokenizer.encodeLoop, if_neg hne, hmatch]
    simp only [hrest, Option.bind_eq_bind, Option.bind_none]

end Specials

section Build
variable {t : Tokenizer} {src : Source}

/-- The token entries of a source, with their ids. -/
def HfJson.tokens (tok : HfJson) : List (List Char × ℕ) :=
  (((tok.model.bind fun model => model.vocab).getD []).filterMap fun e => e.2.map fun id => (e.1, id)) ++
    addedEntries tok.addedTokens

def Source.tokens : Source → List (List Char × ℕ)
  | gguf tables => (tables.tokens.getD []).zipIdx
  | hfJson tok => tok.tokens
  | hfq md =>
    match md.tokenizer with
    | some tok => tok.tokens
    | none => ((md.ggufMeta.bind fun tables => tables.tokens).getD []).zipIdx

def HfJson.rules (tok : HfJson) : List (List Char × List Char) :=
  ((tok.model.map fun model => model.merges).getD []).filterMap HfMerge.pair

def Source.rules : Source → List (List Char × List Char)
  | gguf tables => tables.merges.filterMap splitMerge
  | hfJson tok => tok.rules
  | hfq md =>
    match md.tokenizer with
    | some tok => tok.rules
    | none => ((md.ggufMeta.map fun tables => tables.merges).getD []).filterMap splitMerge

private theorem lookup_filter_ne {token s : List Char} (h : s ≠ token) (table : StringTable) :
    (table.filter fun e => e.1 ≠ token).lookup s = table.lookup s := by
  induction table with
  | nil => rfl
  | cons e table ih =>
    rw [List.filter_cons]
    by_cases he : e.1 = token
    · have hse : (s == e.1) = false := by simpa [he] using h
      rw [if_neg (by simpa using he), ih, List.lookup_cons, hse]
    · rw [if_pos (by simpa using he), List.lookup_cons, List.lookup_cons, ih]

theorem lookup_insertToken (table : StringTable) (token s : List Char) (id : TokenId) :
    (insertToken table token id).lookup s = if s = token then some id else table.lookup s := by
  rw [insertToken, List.lookup_cons]
  by_cases h : s = token
  · simp [h]
  · have hne : (s == token) = false := by simpa using h
    rw [hne, if_neg h]
    exact lookup_filter_ne h table

theorem mem_sortSpecials {specials : List (List Char × TokenId)} {st : List Char × TokenId} :
    st ∈ sortSpecials specials ↔ st ∈ specials :=
  (List.mergeSort_perm _ _).mem_iff

theorem readAll_table (entries : List (List Char × ℕ)) (vocab : List (List Char)) (table : StringTable) :
    (entries.foldl readToken (vocab, table)).2 =
      insertAll table (entries.map fun e => (e.1, UInt32.ofNat e.2)) := by
  induction entries generalizing vocab table with
  | nil => rfl
  | cons e entries ih => exact ih _ _

theorem resolveTables_ok {rules : List (List Char × List Char)} {table : StringTable} {isGpt2 : Bool}
    {tables : List TokenId × PairRanks × Option (List TokenId)} (h : resolveTables rules table isGpt2 = .ok tables) :
    Resolved (fun s => table.lookup s) rules tables.1 tables.2.1 ∧ (isGpt2 = true →
      ∃ ids, tables.2.2 = some ids ∧ buildByteToId (fun s => table.lookup s) = .ok ids) := by
  simp only [resolveTables, bind, Except.bind] at h
  split at h
  · cases h
  · rename_i resolved hresolved
    split at h
    · split at h
      · cases h
      · rename_i ids hids
        cases h
        exact ⟨resolveMerges_ok hresolved, fun _ => ⟨ids, rfl, hids⟩⟩
    · rename_i hnot
      cases h
      exact ⟨resolveMerges_ok hresolved, fun h => absurd h hnot⟩

def gThe : List Char := "Ġthe".toList

/-- A vocabulary of the bytes, one longer token and one added token. -/
def byteJson (added : List Char) : HfJson where
  model := some ⟨some ((List.range 256).map (fun n => ([byteToGpt2Char (UInt8.ofNat n)], some n)) ++ [(gThe, some 256)]), []⟩
  addedTokens := [(some added, some 257)]
  normalizer := none
  preTokenizer := none

def byteEntries : List (List Char × ℕ) :=
  (List.range 256).map (fun n => ([byteToGpt2Char (UInt8.ofNat n)], n)) ++ [(gThe, 256)]

private theorem lookup_insertAll_isSome (entries : List (List Char × TokenId)) (table : StringTable)
    {e : List Char × TokenId} (h : e ∈ entries) : ((insertAll table entries).lookup e.1).isSome := by
  induction entries using List.reverseRecOn with
  | nil => cases h
  | append_singleton entries last ih =>
    rw [insertAll, List.foldl_append, List.foldl_cons, List.foldl_nil, lookup_insertToken]
    split
    · rfl
    · rename_i hne
      rcases List.mem_append.1 h with h | h
      · exact ih h
      · obtain rfl := List.mem_singleton.1 h
        exact absurd rfl hne

private theorem vocabEntries_some (entries : List (List Char × ℕ)) :
    vocabEntries (entries.map fun e => (e.1, some e.2)) = .ok entries := by
  induction entries with
  | nil => rfl
  | cons e entries ih =>
    rw [List.map_cons, vocabEntries, ih]
    rfl

theorem byteJson_build (added : List Char) : ∃ t, fromHfJson (byteJson added) = .ok t ∧ t.isGpt2Bpe = true ∧
    t.addBos = false ∧ t.specialTokens = [(added, 257)] := by
  have hvocab : (byteJson added).model = some ⟨some (byteEntries.map fun e => (e.1, some e.2)), []⟩ := by
    simp [byteJson, byteEntries, Function.comp_def]
  have hadded : addedEntries (byteJson added).addedTokens = [(added, 257)] := rfl
  obtain ⟨table, htable⟩ : ∃ table, table = insertAll [] ((byteEntries ++ [(added, 257)]).map
    fun (e : List Char × ℕ) => (e.1, UInt32.ofNat e.2)) := ⟨_, rfl⟩
  have hmem : ∀ e ∈ byteEntries, (table.lookup e.1).isSome := by
    intro e he
    rw [htable]
    exact lookup_insertAll_isSome _ [] (e := (e.1, UInt32.ofNat e.2))
      (List.mem_map.2 ⟨e, List.mem_append_left _ he, rfl⟩)
  have hthe : (table.lookup "Ġthe".toList).isSome := hmem (gThe, 256) (List.mem_append_right _ List.mem_cons_self)
  have hbyte : ∀ b, (table.lookup [byteToGpt2Char b]).isSome := by
    intro b
    refine hmem ([byteToGpt2Char b], b.toNat) (List.mem_append_left _ (List.mem_map.2 ⟨b.toNat, ?_, ?_⟩))
    · exact List.mem_range.2 b.toNat_lt
    · rw [UInt8.ofNat_toNat]
  have hbytes : ∃ ids, buildByteToId (fun s => table.lookup s) = .ok ids := buildByteToId_complete hbyte
  obtain ⟨ids, hids⟩ := hbytes
  simp only [fromHfJson, hvocab, okOr, bind, Except.bind, vocabEntries_some, hadded, readAll_table, ← htable, hthe,
    Bool.true_or, resolveTables, List.filterMap_nil, resolveMerges, resolveMergesFrom, hids, if_true]
  exact ⟨_, rfl, rfl, rfl, List.mergeSort_singleton _⟩

def asciiClasses : CharClasses where
  isLetter c := c.isAlpha
  isNumber c := c.isDigit
  isSpace c := c.isWhitespace
  folds a b := a = b.toLower

end Build
end Hipscope.Tokenizer
