import Mathlib.Data.List.Sort
import Hipscope.Tokenizer.Encode

/-! The constructors of a tokenizer, from parsed GGUF tables and from a parsed `tokenizer.json`. -/
namespace Hipscope.Tokenizer

/-- The tokenizer fields of GGUF metadata; tokens that are no strings are read as empty. -/
structure GgufTables where
  tokens : Option (List (List Char))
  merges : List (List Char)
  bosTokenId : Option TokenId
  eosTokenId : Option TokenId
  model : Option (List Char)
  addSpacePrefix : Option Bool
  deriving DecidableEq, Repr

/-- A merge rule as written in `tokenizer.json`. -/
inductive HfMerge where
  | text (s : List Char)
  | parts (xs : List (Option (List Char)))
  | other
  deriving DecidableEq, Repr

structure HfModel where
  /-- Entries in the order they are iterated; an id that is no unsigned integer is `none`. -/
  vocab : Option (List (List Char × Option ℕ))
  merges : List HfMerge
  deriving DecidableEq, Repr

inductive Normalizer where
  | prepend
  | sequence (normalizers : List Normalizer)
  | other

inductive PreTokenizer where
  | metaspace (prependScheme : Option (List Char)) (addPrefixSpace : Option Bool)
  | sequence (pretokenizers : List PreTokenizer)
  | other

structure HfJson where
  model : Option HfModel
  addedTokens : List (Option (List Char) × Option ℕ)
  normalizer : Option Normalizer
  preTokenizer : Option PreTokenizer

/-- HFQ metadata: one of the two sources, and the fields that override it. -/
structure HfqMetadata where
  tokenizer : Option HfJson
  ggufMeta : Option GgufTables
  bosTokenId : Option ℕ
  eosTokenId : Option ℕ
  addBosToken : Option Bool
  architecture : Option (List Char)

/-- `splitn(2, ' ')` with both parts present. -/
def splitMerge (s : List Char) : Option (List Char × List Char) :=
  if ' ' ∈ s then some (s.takeWhile fun c => c ≠ ' ', (s.dropWhile fun c => c ≠ ' ').drop 1) else none

def HfMerge.pair : HfMerge → Option (List Char × List Char)
  | text s => splitMerge s
  | parts [some a, some b] => some (a, b)
  | _ => none

mutual
def normalizerPrepends : Normalizer → Bool
  | .prepend => true
  | .sequence ns => anyNormalizerPrepends ns
  | .other => false

def anyNormalizerPrepends : List Normalizer → Bool
  | [] => false
  | n :: ns => normalizerPrepends n || anyNormalizerPrepends ns
end

mutual
def pretokenizerPrepends : PreTokenizer → Bool
  | .metaspace (some scheme) _ => scheme = "always".toList || scheme = "first".toList
  | .metaspace none addPrefixSpace => addPrefixSpace.getD true
  | .sequence ps => anyPretokenizerPrepends ps
  | .other => false

def anyPretokenizerPrepends : List PreTokenizer → Bool
  | [] => false
  | p :: ps => pretokenizerPrepends p || anyPretokenizerPrepends ps
end

/-- Whether a dummy prefix is wanted; a file that declares neither stage wants one. -/
def spDummyPrefixFromHfJson (tok : HfJson) : Bool :=
  match tok.normalizer, tok.preTokenizer with
  | none, none => true
  | n, p => (n.map normalizerPrepends).getD false || (p.map pretokenizerPrepends).getD false

def byteLen (token : List Char) : ℕ := (utf8Bytes token).length

/-- The pattern of a special token in a GGUF vocabulary. -/
def isSpecialPattern (tok : List Char) : Bool :=
  (['<', '|'].isPrefixOf tok && ['|', '>'].isSuffixOf tok) ||
    (['<'].isPrefixOf tok && ['>'].isSuffixOf tok && 3 < byteLen tok && !tok.contains ' ')

/-- Longest first; equal lengths keep their order. -/
def sortSpecials (specials : List (List Char × TokenId)) : List (List Char × TokenId) :=
  specials.mergeSort fun a b => decide (byteLen b.1 ≤ byteLen a.1)

/-- Tokens with their places; the place is kept in 32 bits. -/
def numbered (vocab : List (List Char)) : List (List Char × TokenId) :=
  vocab.zipIdx.map fun e => (e.1, UInt32.ofNat e.2)

def insertAll (table : StringTable) (entries : List (List Char × TokenId)) : StringTable :=
  entries.foldl (fun table e => insertToken table e.1 e.2) table

def endoftext : List Char := "<|endoftext|>".toList
def imEnd : List Char := "<|im_end|>".toList

/-- Merge tables, and for GPT-2 the byte table. -/
def resolveTables (rules : List (List Char × List Char)) (tokenToId : StringTable) (isGpt2Bpe : Bool) :
    Except TokenizerError (List TokenId × PairRanks × Option (List TokenId)) := do
  let (merges, ranks) ← resolveMerges rules (fun s => tokenToId.lookup s)
  if isGpt2Bpe then
    let byteToId ← buildByteToId (fun s => tokenToId.lookup s)
    .ok (merges, ranks, some byteToId)
  else .ok (merges, ranks, none)

def fromGguf (gguf : GgufTables) : Except TokenizerError Tokenizer := do
  let vocab ← okOr gguf.tokens (.metadataMissing "tokenizer.ggml.tokens")
  let tokenToId := insertAll [] (numbered vocab)
  let bosId := gguf.bosTokenId.getD 1
  let eosId := gguf.eosTokenId.getD 2
  let eotId :=
    match tokenToId.lookup endoftext, tokenToId.lookup imEnd with
    | some et, some ie => if et ≠ eosId ∧ ie = eosId then some et else if et ≠ eosId then some et else none
    | some et, none => if et ≠ eosId then some et else none
    | none, _ => none
  let isGpt2Bpe := decide (gguf.model.getD "llama".toList = "gpt2".toList)
  let (merges, ranks, byteToId) ← resolveTables (gguf.merges.filterMap splitMerge) tokenToId isGpt2Bpe
  .ok { vocab := vocab
        tokenToId := tokenToId
        merges := merges
        mergePairRank := ranks
        byteToId := byteToId
        specialTokens := sortSpecials ((numbered vocab).filter fun e => isSpecialPattern e.1)
        bosId := bosId
        addBos := false
        eosId := eosId
        eotId := eotId
        isGpt2Bpe := isGpt2Bpe
        spDummyPrefix := gguf.addSpacePrefix.getD true }

/-- Write a token at its id, growing the vocabulary with empty strings. -/
def writeToken (vocab : List (List Char)) (id : ℕ) (token : List Char) : List (List Char) :=
  (vocab ++ List.replicate (id + 1 - vocab.length) []).set id token

/-- The vocabulary and the string table while tokens are read. -/
abbrev ReadTables := List (List Char) × StringTable

def readToken (tables : ReadTables) (e : List Char × ℕ) : ReadTables :=
  (writeToken tables.1 (UInt32.ofNat e.2).toNat e.1, insertToken tables.2 e.1 (UInt32.ofNat e.2))

/-- Entries of the vocabulary map; an id that is no unsigned integer is an error. -/
def vocabEntries : List (List Char × Option ℕ) → Except TokenizerError (List (List Char × ℕ))
  | [] => .ok []
  | (token, id) :: rest => do
    let id ← okOr id (.metadataMissing "model.vocab[*]: non-integer id")
    let rest ← vocabEntries rest
    .ok ((token, id) :: rest)

/-- Added tokens with a content and an id; others are passed over. -/
def addedEntries (added : List (Option (List Char) × Option ℕ)) : List (List Char × ℕ) :=
  added.filterMap fun e => e.1.bind fun content => e.2.map fun id => (content, id)

def fromHfJson (tok : HfJson) : Except TokenizerError Tokenizer := do
  let model ← okOr tok.model (.metadataMissing "model")
  let vocabMap ← okOr model.vocab (.metadataMissing "model.vocab")
  let entries ← vocabEntries vocabMap
  let added := addedEntries tok.addedTokens
  let tables := (entries ++ added).foldl readToken (List.replicate (vocabMap.length + 100) [], [])
  let tokenToId := tables.2
  let bosId := ((tokenToId.lookup endoftext).or (tokenToId.lookup "<s>".toList)).getD 1
  let eosId :=
    (((tokenToId.lookup imEnd).or (tokenToId.lookup endoftext)).or (tokenToId.lookup "</s>".toList)).getD 2
  let eotId :=
    match tokenToId.lookup endoftext with
    | some et => if et ≠ eosId then some et else none
    | none => none
  let nGpt2 := (tokenToId.filter fun e => ['Ġ'].isPrefixOf e.1).length
  let nSp := (tokenToId.filter fun e => ['▁'].isPrefixOf e.1).length
  let isGpt2Bpe := (tokenToId.lookup "Ġthe".toList).isSome || ((tokenToId.lookup ['Ġ']).isSome && nSp < nGpt2)
  let (merges, ranks, byteToId) ← resolveTables (model.merges.filterMap HfMerge.pair) tokenToId isGpt2Bpe
  .ok { vocab := tables.1
        tokenToId := tokenToId
        merges := merges
        mergePairRank := ranks
        byteToId := byteToId
        specialTokens := sortSpecials (added.map fun e => (e.1, UInt32.ofNat e.2))
        bosId := bosId
        addBos := false
        eosId := eosId
        eotId := eotId
        isGpt2Bpe := isGpt2Bpe
        spDummyPrefix := spDummyPrefixFromHfJson tok }

/-- An id of the generation configuration, if the vocabulary has it. -/
def overrideId (vocab : List (List Char)) (id : Option ℕ) (old : TokenId) : TokenId :=
  match id with
  | some id => if id < vocab.length then UInt32.ofNat id else old
  | none => old

def fromHfqMetadata (md : HfqMetadata) : Except TokenizerError Tokenizer :=
  match md.tokenizer with
  | some tok => do
    let t ← fromHfJson tok
    let isLfm := md.architecture = some "lfm2".toList ∨ md.architecture = some "lfm2_moe".toList
    .ok { t with
      bosId := overrideId t.vocab md.bosTokenId t.bosId
      eosId := overrideId t.vocab md.eosTokenId t.eosId
      addBos := md.addBosToken.getD (if isLfm then true else t.addBos) }
  | none =>
    match md.ggufMeta with
    | some gguf => fromGguf gguf
    | none => .error (.metadataMissing "tokenizer | gguf_meta")

/-- What a tokenizer is built from. -/
inductive Source where
  | gguf (tables : GgufTables)
  | hfJson (tok : HfJson)
  | hfq (md : HfqMetadata)

def Source.build : Source → Except TokenizerError Tokenizer
  | gguf tables => fromGguf tables
  | hfJson tok => fromHfJson tok
  | hfq md => fromHfqMetadata md

end Hipscope.Tokenizer
