import Mathlib.Data.String.Basic
import Hipscope.Bytes.Delimited
import Hipscope.Redline.Ir
import Hipscope.Tokenizer.Build

/-! What the signature of a tokenizer identifies: the strings and ids it hashes, but none of
the merge rules, the kind or the prefix flags that encoding also reads. -/
namespace Hipscope.Tokenizer
open Bytes
open Redline (toLeBytes toLeBytes_inj toLeBytes_length)

def mixByte (h : UInt64) (b : UInt8) : UInt64 := (h ^^^ b.toUInt64) * 0x100000001b3

def mix (h : UInt64) (bytes : List UInt8) : UInt64 := mixByte (bytes.foldl mixByte h) 0xff

def idBytes (id : TokenId) : List UInt8 := toLeBytes 4 id.toNat

def signature (t : Tokenizer) : UInt64 :=
  let h := t.vocab.foldl (fun h tok => mix h (utf8Bytes tok)) 0xcbf29ce484222325
  let h := t.specialTokens.foldl (fun h st => mix (mix h (utf8Bytes st.1)) (idBytes st.2)) h
  mix (mix (mix h (idBytes t.bosId)) (idBytes t.eosId)) (idBytes (t.eotId.getD 0xffffffff))

/-- A word and its end mark. -/
def marked (bytes : List UInt8) : List UInt8 := bytes ++ [0xff]

def fedToken (tok : List Char) : List UInt8 := marked (utf8Bytes tok)

def fedId (id : TokenId) : List UInt8 := marked (idBytes id)

/-- The bytes the signature feeds to its hash. -/
def fed (t : Tokenizer) : List UInt8 :=
  t.vocab.flatMap fedToken ++ (t.specialTokens.flatMap (fun st => fedToken st.1 ++ fedId st.2) ++
    (fedId t.bosId ++ (fedId t.eosId ++ fedId (t.eotId.getD 0xffffffff))))

section Hash

private theorem mix_marked (h : UInt64) (bytes : List UInt8) : mix h bytes = (marked bytes).foldl mixByte h := by
  rw [marked, List.foldl_append]
  rfl

private theorem foldl_flatMap {α : Type} (encode : α → List UInt8) (step : UInt64 → α → UInt64)
    (hstep : ∀ h a, step h a = (encode a).foldl mixByte h) (xs : List α) (h : UInt64) :
    xs.foldl step h = (xs.flatMap encode).foldl mixByte h := by
  induction xs generalizing h with
  | nil => rfl
  | cons a xs ih => rw [List.foldl_cons, ih, List.flatMap_cons, List.foldl_append, hstep]

/-- The signature is the hash of the fed bytes. -/
theorem signature_eq (t : Tokenizer) : t.signature = t.fed.foldl mixByte 0xcbf29ce484222325 := by
  have hvocab := foldl_flatMap fedToken (fun h tok => mix h (utf8Bytes tok)) fun h tok => mix_marked h _
  have hspecials := foldl_flatMap (fun st => fedToken st.1 ++ fedId st.2)
    (fun h (st : List Char × TokenId) => mix (mix h (utf8Bytes st.1)) (idBytes st.2)) fun h st => by
      rw [mix_marked, mix_marked, List.foldl_append]
      rfl
  rw [signature, fed, hvocab, hspecials]
  simp only [mix_marked, List.foldl_append, fedId]

theorem signature_eq_of_fed_eq {t v : Tokenizer} (h : t.fed = v.fed) : t.signature = v.signature := by
  rw [signature_eq, signature_eq, h]

end Hash

section Words

private theorem ofNat_ne_mark {n : ℕ} (h : n < 255) : UInt8.ofNat n ≠ 0xff := by
  intro heq
  have := congrArg UInt8.toNat heq
  rw [UInt8.toNat_ofNat_of_lt' (show n < 256 by omega)] at this
  change n = 255 at this
  omega

/-- The end mark is no byte of a UTF-8 text. -/
theorem mark_notMem (s : List Char) : (0xff : UInt8) ∉ utf8Bytes s := by
  intro h
  obtain ⟨c, -, hc⟩ := List.mem_flatMap.1 h
  simp only [String.utf8EncodeChar] at hc
  split at hc
  · rw [List.mem_singleton] at hc
    exact ofNat_ne_mark (by omega) hc.symm
  · split at hc
    · simp only [List.mem_cons, List.not_mem_nil, or_false] at hc
      rcases hc with hc | hc <;> exact ofNat_ne_mark (by omega) hc.symm
    · split at hc
      · simp only [List.mem_cons, List.not_mem_nil, or_false] at hc
        rcases hc with hc | hc | hc <;> exact ofNat_ne_mark (by omega) hc.symm
      · simp only [List.mem_cons, List.not_mem_nil, or_false] at hc
        rcases hc with hc | hc | hc | hc <;> exact ofNat_ne_mark (by omega) hc.symm

theorem utf8Bytes_injective : Function.Injective utf8Bytes := by
  intro a b h
  have hstring : String.ofList a = String.ofList b := by
    rw [← String.toByteArray_inj, String.toByteArray_ofList, String.toByteArray_ofList]
    exact congrArg List.toByteArray h
  have := congrArg String.toList hstring
  rwa [String.toList_ofList, String.toList_ofList] at this

private theorem token_determines : Determines (fun _ => True) fedToken id :=
  determines_of_mark (fun s _ => mark_notMem s) fun _ _ _ _ h => utf8Bytes_injective h

private theorem id_determines : Determines (fun _ => True) fedId id := by
  refine determines_of_length 5 (fun id _ => ?_) fun a b _ _ h => ?_
  · rw [fedId, marked, List.length_append, idBytes, toLeBytes_length]
    rfl
  · rw [fedId, fedId, marked, marked, List.append_cancel_right_eq] at h
    exact UInt32.toNat_inj.1 (@toLeBytes_inj 4 _ _ a.toNat_lt b.toNat_lt h)

private theorem special_determines :
    Determines (fun _ => True) (fun st : List Char × TokenId => fedToken st.1 ++ fedId st.2) fun st => (st.1, st.2) :=
  (token_determines.comp Prod.fst).append (id_determines.comp Prod.snd)

end Words

/-- With vocabularies of one length the fed bytes give back the strings, the special tokens and
the beginning-of-sequence id. -/
theorem fed_determines {t v : Tokenizer} (h : t.fed = v.fed) (hlen : t.vocab.length = v.vocab.length) :
    t.vocab = v.vocab ∧ t.specialTokens = v.specialTokens ∧ t.bosId = v.bosId := by
  obtain ⟨hvocab, hrest⟩ := token_determines.sequence (fun _ _ => trivial) (fun _ _ => trivial) hlen h
  have hids : ∀ w : Tokenizer,
      (fedId w.bosId ++ (fedId w.eosId ++ fedId (w.eotId.getD 0xffffffff))).length = 15 := by
    intro w
    simp [fedId, marked, idBytes]
  obtain ⟨hspecials, hrest⟩ := special_determines.before (fun st _ => by simp [fedToken, marked])
    (fun _ _ => trivial) (fun _ _ => trivial) ((hids t).trans (hids v).symm) hrest
  obtain ⟨hbos, -⟩ := id_determines trivial trivial hrest
  refine ⟨?_, ?_, hbos⟩
  · simpa using hvocab
  · simpa using hspecials

section Encode
variable {u : CharClasses} {t v : Tokenizer}

/-- What encoding reads besides the hashed data: the kind, the flags, and the tables of its kind. -/
structure SameTables (t v : Tokenizer) : Prop where
  isGpt2Bpe : t.isGpt2Bpe = v.isGpt2Bpe
  addBos : t.addBos = v.addBos
  gpt2 : t.isGpt2Bpe = true →
    t.merges = v.merges ∧ (∀ pair, t.mergePairRank.lookup pair = v.mergePairRank.lookup pair) ∧ t.byteToId = v.byteToId
  sentencepiece : t.isGpt2Bpe = false →
    (∀ s, t.tokenToId.lookup s = v.tokenToId.lookup s) ∧ t.spDummyPrefix = v.spDummyPrefix

section Chunk
variable {ranks ranks' : PairRanks} {merges : List TokenId}

private theorem pushPair_congr (h : ∀ pair, ranks.lookup pair = ranks'.lookup pair) : pushPair ranks = pushPair ranks' := by
  funext s l r
  simp only [pushPair, h]

private theorem absorb_congr (h : ∀ pair, ranks.lookup pair = ranks'.lookup pair) :
    absorb merges ranks = absorb merges ranks' := by
  have hslots : pushSlots ranks = pushSlots ranks' := by
    funext s l r
    rw [pushSlots, pushSlots, pushPair_congr h]
  funext s rank l r
  simp only [absorb, hslots]

private theorem popStep_congr (h : ∀ pair, ranks.lookup pair = ranks'.lookup pair) :
    popStep merges ranks = popStep merges ranks' := by
  funext s e
  simp only [popStep, absorb_congr h, h]

private theorem mergeLoop_congr (h : ∀ pair, ranks.lookup pair = ranks'.lookup pair) (rounds : ℕ) :
    mergeLoop merges ranks rounds = mergeLoop merges ranks' rounds := by
  induction rounds with
  | zero => rfl
  | succ rounds ih =>
    funext s
    simp only [mergeLoop, popStep_congr h, ih]

/-- The chunk encoder sees the rank table through its lookups. -/
theorem encodeGpt2Chunk_congr (h : ∀ pair, ranks.lookup pair = ranks'.lookup pair) :
    encodeGpt2Chunk merges ranks = encodeGpt2Chunk merges ranks' := by
  funext byteToId chunkBytes
  simp only [encodeGpt2Chunk, pushPair_congr h, mergeLoop_congr h]

end Chunk

private theorem mem_keys_iff {table : StringTable} {s : List Char} :
    s ∈ table.map Prod.fst ↔ (table.lookup s).isSome := by
  rw [List.lookup_isSome_iff, List.mem_map]
  constructor
  · rintro ⟨e, he, rfl⟩
    exact ⟨e, he, beq_self_eq_true _⟩
  · rintro ⟨e, he, heq⟩
    exact ⟨e, he, (eq_of_beq heq).symm⟩

/-- So is the longest key. -/
theorem maxTokChars_congr {table table' : StringTable} (h : ∀ s, table.lookup s = table'.lookup s) :
    maxTokChars table = maxTokChars table' := by
  have hmem : ∀ n, n ∈ table.map (fun e => e.1.length) ↔ n ∈ table'.map fun e => e.1.length := by
    intro n
    have hkeys : ∀ s, s ∈ table.map Prod.fst ↔ s ∈ table'.map Prod.fst := by
      intro s
      rw [mem_keys_iff, mem_keys_iff, h]
    have hsplit : ∀ tbl : StringTable, n ∈ tbl.map (fun e => e.1.length) ↔ ∃ s ∈ tbl.map Prod.fst, s.length = n := by
      intro tbl
      simp
    rw [hsplit, hsplit]
    simp only [hkeys]
  rw [maxTokChars, maxTokChars]
  congr 1
  cases hmax : (table.map fun e => e.1.length).max? with
  | none =>
    rw [List.max?_eq_none_iff] at hmax
    have : (table'.map fun e => e.1.length) = [] := by
      refine List.eq_nil_iff_forall_not_mem.2 fun n hn => ?_
      rw [← hmem, hmax] at hn
      cases hn
    rw [this]
    rfl
  | some n =>
    rw [List.max?_eq_some_iff] at hmax
    symm
    rw [List.max?_eq_some_iff]
    exact ⟨(hmem n).1 hmax.1, fun b hb => hmax.2 b ((hmem b).2 hb)⟩

theorem SameTables.encodeRaw (h : SameTables t v) : t.encodeRaw u = v.encodeRaw u := by
  funext text
  rw [Tokenizer.encodeRaw, Tokenizer.encodeRaw, ← h.isGpt2Bpe]
  cases hkind : t.isGpt2Bpe with
  | true =>
    obtain ⟨hmerges, hranks, hbytes⟩ := h.gpt2 hkind
    rw [if_pos rfl, if_pos rfl, encodeGpt2Bpe, encodeGpt2Bpe, hmerges, hbytes, encodeGpt2Chunk_congr hranks]
  | false =>
    obtain ⟨hstrings, hbegins⟩ := h.sentencepiece hkind
    have hlookup : (fun s => t.tokenToId.lookup s) = fun s => v.tokenToId.lookup s := funext hstrings
    rw [if_neg (by decide), if_neg (by decide), encodeSentencepiece, encodeSentencepiece, hbegins, hlookup,
      maxTokChars_congr hstrings]

theorem SameTables.encodeLoop (h : SameTables t v) (hspecials : t.specialTokens = v.specialTokens) (rounds : ℕ) :
    t.encodeLoop u rounds = v.encodeLoop u rounds := by
  induction rounds with
  | zero => rfl
  | succ rounds ih =>
    funext remaining
    rw [Tokenizer.encodeLoop, Tokenizer.encodeLoop, hspecials, ih, h.encodeRaw]

/-- Equal fed bytes mean equal encodings when the vocabularies have one length and the tables
the signature leaves out agree. -/
theorem encode_eq_of_fed_eq (hfed : t.fed = v.fed) (hlen : t.vocab.length = v.vocab.length) (htables : SameTables t v)
    (u : CharClasses) (rounds : ℕ) (text : List Char) : t.encode u rounds text = v.encode u rounds text := by
  obtain ⟨hvocab, hspecials, hbos⟩ := fed_determines hfed hlen
  rw [Tokenizer.encode, Tokenizer.encode, bosTokens, bosTokens, htables.addBos, hvocab, hbos, hspecials,
    htables.encodeRaw, htables.encodeLoop hspecials]

/-- A SentencePiece vocabulary of two tokens, with or without the dummy prefix. -/
def prefixGguf (addSpacePrefix : Bool) : GgufTables where
  tokens := some [['▁', 'a'], ['a']]
  merges := []
  bosTokenId := none
  eosTokenId := none
  model := none
  addSpacePrefix := some addSpacePrefix

def prefixTokenizer (addSpacePrefix : Bool) : Tokenizer where
  vocab := [['▁', 'a'], ['a']]
  tokenToId := [(['a'], 1), (['▁', 'a'], 0)]
  merges := []
  mergePairRank := []
  byteToId := none
  specialTokens := []
  bosId := 1
  addBos := false
  eosId := 2
  eotId := none
  isGpt2Bpe := false
  spDummyPrefix := addSpacePrefix

private theorem prefixGguf_build (addSpacePrefix : Bool) :
    fromGguf (prefixGguf addSpacePrefix) = .ok (prefixTokenizer addSpacePrefix) := by
  cases addSpacePrefix <;> decide +kernel

/-- The dummy prefix is not part of the signature: `a` is token 0 with it and token 1 without. -/
theorem same_fed_different_encoding : ∃ (src src' : Source) (t v : Tokenizer) (text : List Char),
    src.build = .ok t ∧ src'.build = .ok v ∧ t.fed = v.fed ∧ t.signature = v.signature ∧
      ∀ u rounds, t.encode u rounds text = some [0] ∧ v.encode u rounds text = some [1] :=
  ⟨.gguf (prefixGguf true), .gguf (prefixGguf false), prefixTokenizer true, prefixTokenizer false, ['a'],
    prefixGguf_build true, prefixGguf_build false, rfl, signature_eq_of_fed_eq rfl, fun _ _ => ⟨rfl, rfl⟩⟩

/-- SentencePiece encoding does not read the merge tables. -/
def mergesTokenizer : Tokenizer := { prefixTokenizer true with merges := [0] }

theorem encode_eq_of_fed_eq_small :
    (prefixTokenizer true).encode ⟨Char.isAlpha, Char.isDigit, Char.isWhitespace, fun a b => a = b⟩ 1 ['a', 'b', ' ', 'a'] =
      mergesTokenizer.encode ⟨Char.isAlpha, Char.isDigit, Char.isWhitespace, fun a b => a = b⟩ 1 ['a', 'b', ' ', 'a'] :=
  encode_eq_of_fed_eq rfl rfl ⟨rfl, rfl, fun h => absurd h (by decide), fun _ => ⟨fun _ => rfl, rfl⟩⟩ _ _ _

end Encode
end Hipscope.Tokenizer
