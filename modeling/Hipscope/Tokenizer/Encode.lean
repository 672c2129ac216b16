import Hipscope.Text.Chars
import Hipscope.Text.Search
import Hipscope.Text.Regex
import Hipscope.Tokenizer.Chunk

/-! Encoding and decoding of a whole text: special tokens first, then byte-pair encoding of
pre-tokenized chunks, or the greedy SentencePiece lookup. -/
namespace Hipscope.Tokenizer
open Hipscope.Text

/-- The character classes that come from the Unicode tables of the regex engine. -/
structure CharClasses where
  isLetter : Char → Bool
  isNumber : Char → Bool
  isSpace : Char → Bool
  /-- Equal up to case. -/
  folds : Char → Char → Bool

section Pretok
variable (u : CharClasses)
open Pattern

def isNewline (c : Char) : Bool := c = '\r' || c = '\n'

/-- An apostrophe and the letters, in either case. -/
def contraction : List Char → Pattern Char
  | [] => one fun c => c = '\''
  | c :: rest => seq (contraction rest) (one (u.folds c))

/-- `(?i:'s|'t|'re|'ve|'m|'ll|'d)`; the letters are listed last first. -/
def contractions : Pattern Char :=
  alt (contraction u ['s']) (alt (contraction u ['t']) (alt (contraction u ['e', 'r']) (alt (contraction u ['e', 'v'])
    (alt (contraction u ['m']) (alt (contraction u ['l', 'l']) (contraction u ['d']))))))

/-- `[^\r\n\p{L}\p{N}]?\p{L}+` -/
def letterRun : Pattern Char :=
  seq (rep (fun c => !isNewline c && !u.isLetter c && !u.isNumber c) 0 (some 1)) (rep u.isLetter 1 none)

/-- `\p{N}{1,3}` -/
def digitRun : Pattern Char := rep u.isNumber 1 (some 3)

/-- ` ?[^\s\p{L}\p{N}]+[\r\n]*` -/
def punctuationRun : Pattern Char :=
  seq (rep (fun c => c = ' ') 0 (some 1))
    (seq (rep (fun c => !u.isSpace c && !u.isLetter c && !u.isNumber c) 1 none) (rep isNewline 0 none))

/-- `\s*[\r\n]+` -/
def newlineRun : Pattern Char := seq (rep u.isSpace 0 none) (rep isNewline 1 none)

/-- `\s+` -/
def spaceRun : Pattern Char := rep u.isSpace 1 none

def gpt2PretokPattern : Pattern Char :=
  alt (contractions u) (alt (letterRun u) (alt (digitRun u) (alt (punctuationRun u) (alt (newlineRun u) (spaceRun u)))))

end Pretok

end Hipscope.Tokenizer

namespace Hipscope
open Hipscope.Tokenizer Hipscope.Text

/-- A map from strings to token ids, each string once. -/
abbrev StringTable := List (List Char × TokenId)

structure Tokenizer where
  vocab : List (List Char)
  tokenToId : StringTable
  merges : List TokenId
  mergePairRank : PairRanks
  byteToId : Option (List TokenId)
  specialTokens : List (List Char × TokenId)
  bosId : TokenId
  addBos : Bool
  eosId : TokenId
  eotId : Option TokenId
  isGpt2Bpe : Bool
  spDummyPrefix : Bool
  deriving DecidableEq, Repr

namespace Tokenizer

def insertToken (table : StringTable) (token : List Char) (id : TokenId) : StringTable :=
  (token, id) :: table.filter fun e => e.1 ≠ token

def spaceMark : Char := '▁'

/-- The longest of the first `k` beginnings of the text that is a token. -/
def greedyLongest (lookup : List Char → Option TokenId) (text : List Char) : ℕ → Option (ℕ × TokenId)
  | 0 => none
  | k + 1 =>
    match lookup (text.take (k + 1)) with
    | some id => some (k + 1, id)
    | none => greedyLongest lookup text k

/-- The greedy scan; `skip` characters of the last token are still to be passed over. -/
def greedyScan (lookup : List Char → Option TokenId) (maxTokChars : ℕ) : ℕ → List Char → List TokenId
  | _, [] => []
  | skip + 1, _ :: rest => greedyScan lookup maxTokChars skip rest
  | 0, c :: rest =>
    match greedyLongest lookup (c :: rest) (min maxTokChars (rest.length + 1)) with
    | some (k, id) => id :: greedyScan lookup maxTokChars (k - 1) rest
    | none =>
      match lookup [c] with
      | some id => id :: greedyScan lookup maxTokChars 0 rest
      | none => greedyScan lookup maxTokChars 0 rest

def maxTokChars (table : StringTable) : ℕ := ((table.map fun e => e.1.length).max?).getD 1

def encodeSentencepiece (t : Tokenizer) (text : List Char) : List TokenId :=
  let spText := (if t.spDummyPrefix then [spaceMark] else []) ++ text.map fun c => if c = ' ' then spaceMark else c
  greedyScan (fun s => t.tokenToId.lookup s) (maxTokChars t.tokenToId) 0 spText

/-- Every pre-tokenized chunk on its own; `none` is a panic. -/
def encodeGpt2Bpe (u : CharClasses) (t : Tokenizer) (text : List Char) : Option (List TokenId) := do
  let chunks ← ((gpt2PretokPattern u).findIter text).mapM fun m =>
    t.byteToId.bind fun byteToId => encodeGpt2Chunk t.merges t.mergePairRank byteToId (utf8Bytes m)
  some chunks.flatten

def encodeRaw (u : CharClasses) (t : Tokenizer) (text : List Char) : Option (List TokenId) :=
  if t.isGpt2Bpe then encodeGpt2Bpe u t text else some (encodeSentencepiece t text)

/-- The first special token the text starts with. -/
def matchSpecial (specials : List (List Char × TokenId)) (remaining : List Char) : Option (List Char × TokenId) :=
  specials.find? fun st => st.1.isPrefixOf remaining

/-- Where the next special token starts, or the end of the text. -/
def nextSpecial (specials : List (List Char × TokenId)) (remaining : List Char) : ℕ :=
  specials.foldl (fun next st =>
    match memmem remaining st.1 with
    | some pos => if pos < next then pos else next
    | none => next) remaining.length

/-- Special tokens and the segments between them; `none` is a panic, or that the rounds did
not suffice. -/
def encodeLoop (u : CharClasses) (t : Tokenizer) : ℕ → List Char → Option (List TokenId)
  | 0, _ => none
  | rounds + 1, remaining =>
    if remaining = [] then some []
    else
      match matchSpecial t.specialTokens remaining with
      | some (st, id) => do
        let rest ← encodeLoop u t rounds (remaining.drop st.length)
        some (id :: rest)
      | none => do
        let next := nextSpecial t.specialTokens remaining
        let segment := remaining.take next
        let ids ← if segment ≠ [] then encodeRaw u t segment else some []
        let rest ← encodeLoop u t rounds (remaining.drop next)
        some (ids ++ rest)

/-- The beginning-of-sequence token, unless the text already begins with its string. -/
def bosTokens (t : Tokenizer) (text : List Char) : List TokenId :=
  if t.addBos then
    let bosStr := t.vocab[t.bosId.toNat]?.getD []
    if bosStr = [] ∨ ¬ bosStr.isPrefixOf text then [t.bosId] else []
  else []

def encode (u : CharClasses) (t : Tokenizer) (rounds : ℕ) (text : List Char) : Option (List TokenId) := do
  let ids ← if t.specialTokens = [] then encodeRaw u t text else encodeLoop u t rounds text
  some (bosTokens t text ++ ids)

def decodeChar (c : Char) : List UInt8 :=
  if c = 'Ġ' then [0x20]
  else if c = 'Ċ' then [0x0a]
  else if c = 'ĉ' then [0x09]
  else if c.toNat < 128 then [UInt8.ofNat c.toNat]
  else
    match gpt2CharToByte c with
    | some b => [b]
    | none => String.utf8EncodeChar c

def isHexDigit (c : Char) : Bool := c.isDigit || ('a' ≤ c && c ≤ 'f') || ('A' ≤ c && c ≤ 'F')

def hexDigit (c : Char) : ℕ :=
  if c.isDigit then c.toNat - 48 else if 'a' ≤ c then c.toNat - 87 else c.toNat - 55

def hexValue (hex : List Char) : ℕ := hex.foldl (fun n c => 16 * n + hexDigit c) 0

/-- `<0xHH>` stands for a byte; what was read of anything else stays, except that the closing
bracket of a number over 255 is lost. -/
def decodeHexEscapes : ℕ → List Char → List UInt8
  | 0, _ => []
  | _ + 1, [] => []
  | rounds + 1, '<' :: '0' :: x :: rest =>
    if x = 'x' ∨ x = 'X' then
      let hex := rest.takeWhile isHexDigit
      match rest.dropWhile isHexDigit with
      | '>' :: rest' =>
        if hex = [] then utf8Bytes ['<', '0', x] ++ decodeHexEscapes rounds ('>' :: rest')
        else if hexValue hex < 256 then UInt8.ofNat (hexValue hex) :: decodeHexEscapes rounds rest'
        else utf8Bytes ('<' :: '0' :: x :: hex) ++ decodeHexEscapes rounds rest'
      | rest' => utf8Bytes ('<' :: '0' :: x :: hex) ++ decodeHexEscapes rounds rest'
    else utf8Bytes ['<', '0'] ++ decodeHexEscapes rounds (x :: rest)
  | rounds + 1, c :: rest => String.utf8EncodeChar c ++ decodeHexEscapes rounds rest

def decodeToken (isGpt2Bpe : Bool) (tok : List Char) : List UInt8 :=
  if isGpt2Bpe then tok.flatMap decodeChar
  else
    let decoded := tok.map fun c => if c = spaceMark then ' ' else c
    decodeHexEscapes decoded.length decoded

/-- The bytes of the tokens; an unknown id gives nothing. -/
def decodeBytes (t : Tokenizer) (tokens : List TokenId) : List UInt8 :=
  tokens.flatMap fun id => decodeToken t.isGpt2Bpe (t.vocab[id.toNat]?.getD [])

end Tokenizer
end Hipscope
