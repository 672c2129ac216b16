import Mathlib.Data.List.Basic
import Mathlib.Algebra.Group.Nat.Defs

/-! Tables of a GPT-2 style tokenizer: bytes as characters, and merge rules by token id. -/
namespace Hipscope.Tokenizer

abbrev TokenId := UInt32

/-- Which operand of a merge rule is missing. -/
inductive Side where
  | left
  | right
  deriving DecidableEq, Repr

inductive TokenizerError where
  | metadataMissing (field : String)
  | malformedJson
  | missingByteSymbol (byte : UInt8) (char : Char)
  | missingMergeOperand (rank : ℕ) (left right : List Char) (missingSide : Side)
  | missingMergeResult (rank : ℕ) (expected : List Char)
  deriving DecidableEq, Repr

/-- Bytes that stand for themselves as characters. -/
def gpt2Printable (b : ℕ) : Bool :=
  (0x21 ≤ b && b ≤ 0x7e) || (0xa1 ≤ b && b ≤ 0xac) || (0xae ≤ b && b ≤ 0xff)

/-- The other bytes in order; their places count from code point 256. -/
def gpt2OffsetToByte : List ℕ := (List.range 256).filter fun b => !gpt2Printable b

def gpt2ByteToOffset (b : ℕ) : ℕ := gpt2OffsetToByte.idxOf b

def byteToGpt2Char (b : UInt8) : Char :=
  if gpt2Printable b.toNat then Char.ofNat b.toNat else Char.ofNat (256 + gpt2ByteToOffset b.toNat)

def gpt2CharToByte (c : Char) : Option UInt8 :=
  if gpt2Printable c.toNat then some (UInt8.ofNat c.toNat)
  else if 256 ≤ c.toNat ∧ c.toNat < 256 + 68 then gpt2OffsetToByte[c.toNat - 256]?.map UInt8.ofNat
  else none

/-- Rank of each pair that has a rule. -/
abbrev PairRanks := List ((TokenId × TokenId) × ℕ)

def okOr {α ε : Type} (value : Option α) (err : ε) : Except ε α :=
  match value with
  | some a => .ok a
  | none => .error err

/-- The first rank of a pair is kept. -/
def orInsert (ranks : PairRanks) (pair : TokenId × TokenId) (rank : ℕ) : PairRanks :=
  match ranks.lookup pair with
  | some _ => ranks
  | none => ranks ++ [(pair, rank)]

/-- The rules from rank `rank` on, after those already resolved. -/
def resolveMergesFrom (tokenToId : List Char → Option TokenId) :
    ℕ → List (List Char × List Char) → List TokenId × PairRanks →
      Except TokenizerError (List TokenId × PairRanks)
  | _, [], tables => .ok tables
  | rank, (l, r) :: rest, (merges, ranks) => do
    let left ← okOr (tokenToId l) (.missingMergeOperand rank l r .left)
    let right ← okOr (tokenToId r) (.missingMergeOperand rank l r .right)
    let result ← okOr (tokenToId (l ++ r)) (.missingMergeResult rank (l ++ r))
    resolveMergesFrom tokenToId (rank + 1) rest
      (merges ++ [result], orInsert ranks (left, right) (rank % 2 ^ 32))

def resolveMerges (mergesStrings : List (List Char × List Char)) (tokenToId : List Char → Option TokenId) :
    Except TokenizerError (List TokenId × PairRanks) :=
  resolveMergesFrom tokenToId 0 mergesStrings ([], [])

/-- The token of each byte's character, for the bytes from `b` on. -/
def byteIdsFrom (tokenToId : List Char → Option TokenId) : ℕ → ℕ → Except TokenizerError (List TokenId)
  | 0, _ => .ok []
  | count + 1, b => do
    let ch := byteToGpt2Char (UInt8.ofNat b)
    let id ← okOr (tokenToId [ch]) (.missingByteSymbol (UInt8.ofNat b) ch)
    let rest ← byteIdsFrom tokenToId count (b + 1)
    .ok (id :: rest)

def buildByteToId (tokenToId : List Char → Option TokenId) : Except TokenizerError (List TokenId) :=
  byteIdsFrom tokenToId 256 0

section Spec
variable {tokenToId : List Char → Option TokenId}

theorem okOr_ok {α ε : Type} {value : Option α} {err : ε} {a : α} (h : okOr value err = .ok a) : value = some a := by
  cases value with
  | none => cases h
  | some b => cases h; rfl

theorem lookup_orInsert (ranks : PairRanks) (pair other : TokenId × TokenId) (rank : ℕ) :
    (orInsert ranks pair rank).lookup other =
      (ranks.lookup other).or (if other = pair then some rank else none) := by
  rw [orInsert]
  cases hpair : ranks.lookup pair with
  | some known =>
    by_cases heq : other = pair
    · simp [heq, hpair]
    · simp [heq]
  | none =>
    rw [List.lookup_append]
    congr 1
    by_cases heq : other = pair
    · simp [heq]
    · have hne : (other == pair) = false := by simpa using heq
      simp [List.lookup_cons, hne, heq]

/-- The rule names the pair by its operands' tokens. -/
def Names (tokenToId : List Char → Option TokenId) (rule : List Char × List Char) (pair : TokenId × TokenId) : Prop :=
  tokenToId rule.1 = some pair.1 ∧ tokenToId rule.2 = some pair.2

/-- The tables agree with the rules: one result per rule, a ranked pair is named by the rule of
that rank and by none before it, and every pair a rule names is ranked. -/
structure Resolved (tokenToId : List Char → Option TokenId) (rules : List (List Char × List Char))
    (merges : List TokenId) (ranks : PairRanks) : Prop where
  length : merges.length = rules.length
  results : ∀ (i : ℕ) l r, rules[i]? = some (l, r) →
    ∃ id, merges[i]? = some id ∧ tokenToId (l ++ r) = some id
  ranked : ∀ pair rank, ranks.lookup pair = some rank →
    ∃ (i : ℕ) (rule : List Char × List Char), rank = i % 2 ^ 32 ∧ rules[i]? = some rule ∧
    Names tokenToId rule pair ∧ ∀ j < i, ∀ rule', rules[j]? = some rule' → ¬ Names tokenToId rule' pair
  complete : ∀ rule ∈ rules, ∀ pair, Names tokenToId rule pair → (ranks.lookup pair).isSome

theorem Resolved.nil : Resolved tokenToId [] [] [] where
  length := rfl
  results i l r h := by simp at h
  ranked pair rank h := by simp at h
  complete rule h := by simp at h

theorem Resolved.snoc {rules : List (List Char × List Char)} {merges : List TokenId} {ranks : PairRanks}
    {l r : List Char} {left right result : TokenId} (h : Resolved tokenToId rules merges ranks)
    (hleft : tokenToId l = some left) (hright : tokenToId r = some right) (hresult : tokenToId (l ++ r) = some result) :
    Resolved tokenToId (rules ++ [(l, r)]) (merges ++ [result])
      (orInsert ranks (left, right) (rules.length % 2 ^ 32)) := by
  have hnamed : Names tokenToId (l, r) (left, right) := ⟨hleft, hright⟩
  refine ⟨by simp [h.length], ?_, ?_, ?_⟩
  · intro i l' r' hi
    rcases Nat.lt_trichotomy i rules.length with hlt | rfl | hgt
    · rw [List.getElem?_append_left hlt] at hi
      rw [List.getElem?_append_left (h.length ▸ hlt)]
      exact h.results i l' r' hi
    · rw [List.getElem?_append_right (Nat.le_refl _)] at hi
      rw [List.getElem?_append_right (Nat.le_of_eq h.length), h.length]
      simp only [Nat.sub_self, List.getElem?_cons_zero, Option.some.injEq, Prod.mk.injEq] at hi ⊢
      obtain ⟨rfl, rfl⟩ := hi
      exact ⟨result, rfl, hresult⟩
    · rw [List.getElem?_eq_none (by rw [List.length_append, List.length_singleton]; omega)] at hi
      cases hi
  · intro pair rank hlookup
    rw [lookup_orInsert] at hlookup
    cases hold : ranks.lookup pair with
    | some known =>
      rw [hold] at hlookup
      cases hlookup
      obtain ⟨i, rule, hrank, hi, hnames, hfirst⟩ := h.ranked pair rank hold
      have hlt : i < rules.length := (List.getElem?_eq_some_iff.1 hi).1
      refine ⟨i, rule, hrank, by rwa [List.getElem?_append_left hlt], hnames, fun j hj rule' hj' => ?_⟩
      rw [List.getElem?_append_left (Nat.lt_trans hj hlt)] at hj'
      exact hfirst j hj rule' hj'
    | none =>
      simp only [hold, Option.none_or] at hlookup
      split at hlookup
      · rename_i heq
        subst heq
        cases hlookup
        refine ⟨rules.length, (l, r), rfl, by simp, hnamed, fun j hj rule' hj' hnames => ?_⟩
        rw [List.getElem?_append_left hj] at hj'
        have := h.complete rule' (List.mem_of_getElem? hj') _ hnames
        simp [hold] at this
      · cases hlookup
  · intro rule hrule pair hnames
    rw [lookup_orInsert, Option.isSome_or]
    rcases List.mem_append.1 hrule with hrule | hrule
    · simp [h.complete rule hrule pair hnames]
    · obtain rfl := List.mem_singleton.1 hrule
      obtain ⟨h₁, h₂⟩ := hnames
      have hpair : pair = (left, right) := by
        rw [hleft, Option.some.injEq] at h₁
        rw [hright, Option.some.injEq] at h₂
        exact Prod.ext h₁.symm h₂.symm
      simp [hpair]

private theorem resolveMergesFrom_ok (rest : List (List Char × List Char)) :
    ∀ {done : List (List Char × List Char)} {merges : List TokenId} {ranks : PairRanks} {tables},
      Resolved tokenToId done merges ranks →
      resolveMergesFrom tokenToId done.length rest (merges, ranks) = .ok tables →
      Resolved tokenToId (done ++ rest) tables.1 tables.2 := by
  induction rest with
  | nil =>
    intro done merges ranks tables h hok
    cases hok
    rwa [List.append_nil]
  | cons rule rest ih =>
    obtain ⟨l, r⟩ := rule
    intro done merges ranks tables h hok
    simp only [resolveMergesFrom, bind, Except.bind] at hok
    split at hok
    · cases hok
    · rename_i left hleft
      split at hok
      · cases hok
      · rename_i right hright
        split at hok
        · cases hok
        · rename_i result hresult
          have hsnoc := h.snoc (okOr_ok hleft) (okOr_ok hright) (okOr_ok hresult)
          have := ih hsnoc (by simpa using hok)
          rwa [List.append_assoc] at this

theorem resolveMerges_ok {rules : List (List Char × List Char)} {merges : List TokenId} {ranks : PairRanks}
    (h : resolveMerges rules tokenToId = .ok (merges, ranks)) : Resolved tokenToId rules merges ranks :=
  resolveMergesFrom_ok rules Resolved.nil h

/-- Every rank the table holds has a result. -/
theorem Resolved.rank_lt {rules : List (List Char × List Char)} {merges : List TokenId} {ranks : PairRanks}
    (h : Resolved tokenToId rules merges ranks) {pair : TokenId × TokenId} {rank : ℕ}
    (hrank : ranks.lookup pair = some rank) : rank < merges.length := by
  obtain ⟨i, rule, rfl, hi, -, -⟩ := h.ranked pair rank hrank
  have hlt : i < rules.length := (List.getElem?_eq_some_iff.1 hi).1
  have := Nat.mod_le i (2 ^ 32)
  rw [h.length]
  omega

private theorem byteIdsFrom_ok (count : ℕ) : ∀ {b : ℕ} {ids : List TokenId},
    byteIdsFrom tokenToId count b = .ok ids →
      ids.length = count ∧ ∀ i < count, ∃ id, ids[i]? = some id ∧
        tokenToId [byteToGpt2Char (UInt8.ofNat (b + i))] = some id := by
  induction count with
  | zero =>
    intro b ids h
    cases h
    exact ⟨rfl, fun i hi => absurd hi (Nat.not_lt_zero i)⟩
  | succ count ih =>
    intro b ids h
    simp only [byteIdsFrom, bind, Except.bind] at h
    split at h
    · cases h
    · rename_i id hid
      split at h
      · cases h
      · rename_i rest hrest
        cases h
        obtain ⟨hlen, hids⟩ := ih hrest
        refine ⟨by simp [hlen], fun i hi => ?_⟩
        cases i with
        | zero => exact ⟨id, rfl, okOr_ok hid⟩
        | succ i =>
          obtain ⟨id', hget, htoken⟩ := hids i (Nat.lt_of_succ_lt_succ hi)
          exact ⟨id', by simpa using hget, by rwa [Nat.add_assoc, Nat.add_comm 1] at htoken⟩

theorem buildByteToId_length {ids : List TokenId} (h : buildByteToId tokenToId = .ok ids) : ids.length = 256 :=
  (byteIdsFrom_ok 256 h).1

private theorem byteIdsFrom_complete (h : ∀ b, (tokenToId [byteToGpt2Char b]).isSome) (count b : ℕ) :
    ∃ ids, byteIdsFrom tokenToId count b = .ok ids := by
  induction count generalizing b with
  | zero => exact ⟨[], rfl⟩
  | succ count ih =>
    obtain ⟨id, hid⟩ := Option.isSome_iff_exists.1 (h (UInt8.ofNat b))
    obtain ⟨rest, hrest⟩ := ih (b + 1)
    exact ⟨id :: rest, by rw [byteIdsFrom, hid, hrest]; rfl⟩

/-- A vocabulary with every byte's character has a byte table. -/
theorem buildByteToId_complete (h : ∀ b, (tokenToId [byteToGpt2Char b]).isSome) :
    ∃ ids, buildByteToId tokenToId = .ok ids :=
  byteIdsFrom_complete h 256 0

end Spec
end Hipscope.Tokenizer
