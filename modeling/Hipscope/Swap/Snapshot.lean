import Hipscope.Bytes.Reader
import Hipscope.Redline.Ir

/-! The serialised form of one session's captured state. `none` is a panic: a
read past the end, an overflowing cursor or an allocation that is too large. -/
namespace Hipscope.Swap
open Bytes Redline

inductive SwapError where
  | stamp (message : String)
  | corrupt (message : String)
  | io (message : String)
  | gpu (message : String)
  deriving DecidableEq, Repr

/-- A vector never occupies more than `isize::MAX` bytes. -/
@[ext] structure Vec (size : ℕ) (α : Type) where
  data : List α
  fits : size * data.length < 2 ^ 63
  deriving DecidableEq

def Vec.collect {α : Type} (size : ℕ) (data : List α) : Option (Vec size α) :=
  if h : size * data.length < 2 ^ 63 then some ⟨data, h⟩ else none

structure SnapshotStamp where
  modelHash : UInt64
  kvDtypeTag : UInt32
  perPosBytes : UInt32
  nFaLayers : UInt32
  dnLayoutVersion : UInt32
  cap : UInt32
  dnBytes : UInt64
  deriving DecidableEq

structure SlotSnapshot where
  stamp : SnapshotStamp
  seqLen : UInt64
  tokens : Vec 4 UInt32
  payload : Vec 1 UInt8
  checksum : UInt64
  deriving DecidableEq

/-- "HIPF_SW1" as big-endian ASCII. -/
def magic : UInt64 := 0x484950465F535731

def version : UInt32 := 1

def headerLen : ℕ := 8 + 4 + 8 + 4 + 4 + 4 + 4 + 4 + 8 + 8 + 8 + 8 + 8

def SlotSnapshot.toBytes (s : SlotSnapshot) : List UInt8 :=
  toLeBytes 8 magic.toNat ++ (toLeBytes 4 version.toNat ++ (toLeBytes 8 s.stamp.modelHash.toNat ++
    (toLeBytes 4 s.stamp.kvDtypeTag.toNat ++ (toLeBytes 4 s.stamp.perPosBytes.toNat ++
    (toLeBytes 4 s.stamp.nFaLayers.toNat ++ (toLeBytes 4 s.stamp.dnLayoutVersion.toNat ++
    (toLeBytes 4 s.stamp.cap.toNat ++ (toLeBytes 8 s.stamp.dnBytes.toNat ++ (toLeBytes 8 s.seqLen.toNat ++
    (toLeBytes 8 s.tokens.data.length ++ (toLeBytes 8 s.checksum.toNat ++
    (toLeBytes 8 s.payload.data.length ++
    (s.tokens.data.flatMap (fun t => toLeBytes 4 t.toNat) ++ s.payload.data)))))))))))))

/-- The number with the given little-endian bytes. -/
def ofLeBytes : List UInt8 → ℕ
  | [] => 0
  | b :: rest => b.toNat + 256 * ofLeBytes rest

def u64At (bytes : List UInt8) (o : ℕ) : Option (UInt64 × ℕ) := do
  let (word, o) ← sliceAt bytes o 8
  some (UInt64.ofNat (ofLeBytes word), o)

def u32At (bytes : List UInt8) (o : ℕ) : Option (UInt32 × ℕ) := do
  let (word, o) ← sliceAt bytes o 4
  some (UInt32.ofNat (ofLeBytes word), o)

/-- The header fields behind magic and version. -/
structure Fields where
  stamp : SnapshotStamp
  seqLen : UInt64
  nTokens : UInt64
  checksum : UInt64
  payloadLen : UInt64

def fieldsAt (bytes : List UInt8) (o : ℕ) : Option (Fields × ℕ) := do
  let (modelHash, o) ← u64At bytes o
  let (kvDtypeTag, o) ← u32At bytes o
  let (perPosBytes, o) ← u32At bytes o
  let (nFaLayers, o) ← u32At bytes o
  let (dnLayoutVersion, o) ← u32At bytes o
  let (cap, o) ← u32At bytes o
  let (dnBytes, o) ← u64At bytes o
  let (seqLen, o) ← u64At bytes o
  let (nTokens, o) ← u64At bytes o
  let (checksum, o) ← u64At bytes o
  let (payloadLen, o) ← u64At bytes o
  some (⟨⟨modelHash, kvDtypeTag, perPosBytes, nFaLayers, dnLayoutVersion, cap, dnBytes⟩,
    seqLen, nTokens, checksum, payloadLen⟩, o)

def tokensAt (bytes : List UInt8) : ℕ → ℕ → Option (List UInt32 × ℕ)
  | 0, o => some ([], o)
  | n + 1, o => do
    let (token, o) ← u32At bytes o
    let (tokens, o) ← tokensAt bytes n o
    some (token :: tokens, o)

def saturatingMul (x y : ℕ) : ℕ := min (x * y) (2 ^ 64 - 1)

/-- The length the header claims, if it is a `usize`. -/
def claimedLen (o : ℕ) (fields : Fields) : Option ℕ := do
  let tokensEnd ← addUsize o (saturatingMul fields.nTokens.toNat 4)
  addUsize tokensEnd fields.payloadLen.toNat

/-- Tokens and payload, read at the lengths the header gives. -/
def bodyAt (bytes : List UInt8) (o : ℕ) (fields : Fields) : Option SlotSnapshot := do
  let (tokens, o) ← tokensAt bytes fields.nTokens.toNat o
  let tokens ← Vec.collect 4 tokens
  let (payload, _) ← sliceAt bytes o fields.payloadLen.toNat
  let payload ← Vec.collect 1 payload
  some ⟨fields.stamp, fields.seqLen, tokens, payload, fields.checksum⟩

/-- What the header claims is checked before anything is read at its lengths. -/
def checkedBodyAt (bytes : List UInt8) (o : ℕ) (fields : Fields) : Option (Except SwapError SlotSnapshot) :=
  let length := bytes.length
  match claimedLen o fields with
  | none => some (.error (.corrupt "header lengths overflow"))
  | some need =>
    if length < need then
      some (.error (.corrupt s!"buffer is {length} bytes, header claims {need}"))
    else (bodyAt bytes o fields).map .ok

def fromBytes (buffer : Vec 1 UInt8) : Option (Except SwapError SlotSnapshot) :=
  let bytes := buffer.data
  let length := bytes.length
  if length < headerLen then
    some (.error (.corrupt s!"buffer is {length} bytes, shorter than the {headerLen}-byte header"))
  else do
    let (found, o) ← u64At bytes 0
    if found ≠ magic then
      some (.error (.corrupt "bad magic"))
    else do
      let (found, o) ← u32At bytes o
      if found ≠ version then
        some (.error (.stamp s!"snapshot version {found} != {version}"))
      else do
        let (fields, o) ← fieldsAt bytes o
        checkedBodyAt bytes o fields

section Words
variable {bytes : List UInt8} {o o' : ℕ}

theorem ofLeBytes_toLeBytes (width n : ℕ) : ofLeBytes (toLeBytes width n) = n % 256 ^ width := by
  induction width generalizing n with
  | zero => simp [toLeBytes, ofLeBytes, Nat.mod_one]
  | succ width ih =>
    have hlow : (UInt8.ofNat (n % 256)).toNat = n % 256 := by
      rw [UInt8.toNat_ofNat']
      exact Nat.mod_mod_of_dvd n (dvd_refl 256)
    rw [toLeBytes, ofLeBytes, ih, hlow, pow_succ', Nat.mod_mul]

private theorem toLeBytes_ofLeBytes (word : List UInt8) : toLeBytes word.length (ofLeBytes word) = word := by
  induction word with
  | nil => rfl
  | cons b word ih =>
    have hb : b.toNat < 256 := b.toNat_lt
    have hlow : (b.toNat + 256 * ofLeBytes word) % 256 = b.toNat := by omega
    have hhigh : (b.toNat + 256 * ofLeBytes word) / 256 = ofLeBytes word := by omega
    rw [List.length_cons, ofLeBytes, toLeBytes, hlow, hhigh, ih, UInt8.ofNat_toNat]

private theorem ofLeBytes_lt (word : List UInt8) : ofLeBytes word < 256 ^ word.length := by
  have h := congrArg ofLeBytes (toLeBytes_ofLeBytes word)
  rw [ofLeBytes_toLeBytes] at h
  exact h ▸ Nat.mod_lt _ (by positivity)

theorem word_iff (hfits : bytes.length < 2 ^ 64) {width n : ℕ} (hn : n < 256 ^ width) :
    (∃ word, sliceAt bytes o width = some (word, o') ∧ ofLeBytes word = n) ↔
      Consumes bytes o (toLeBytes width n) o' := by
  simp only [sliceAt_eq_some_iff hfits]
  constructor
  · rintro ⟨word, ⟨rfl, h⟩, rfl⟩
    rw [toLeBytes_ofLeBytes]
    exact h
  · intro h
    exact ⟨_, ⟨toLeBytes_length width n, h⟩, by rw [ofLeBytes_toLeBytes, Nat.mod_eq_of_lt hn]⟩

theorem u64At_eq_some_iff (hfits : bytes.length < 2 ^ 64) {v : UInt64} :
    u64At bytes o = some (v, o') ↔ Consumes bytes o (toLeBytes 8 v.toNat) o' := by
  rw [← word_iff hfits v.toNat_lt]
  simp only [u64At, Option.bind_eq_bind, Option.bind_eq_some_iff, Prod.exists, Option.some.injEq, Prod.mk.injEq]
  constructor
  · rintro ⟨word, stop, h, rfl, rfl⟩
    refine ⟨word, h, (Nat.mod_eq_of_lt ?_).symm⟩
    have hlt := ofLeBytes_lt word
    rw [((sliceAt_eq_some_iff hfits).mp h).1] at hlt
    exact hlt
  · rintro ⟨word, h, hword⟩
    exact ⟨word, o', h, by rw [hword, UInt64.ofNat_toNat], rfl⟩

theorem u32At_eq_some_iff (hfits : bytes.length < 2 ^ 64) {v : UInt32} :
    u32At bytes o = some (v, o') ↔ Consumes bytes o (toLeBytes 4 v.toNat) o' := by
  rw [← word_iff hfits v.toNat_lt]
  simp only [u32At, Option.bind_eq_bind, Option.bind_eq_some_iff, Prod.exists, Option.some.injEq, Prod.mk.injEq]
  constructor
  · rintro ⟨word, stop, h, rfl, rfl⟩
    refine ⟨word, h, (Nat.mod_eq_of_lt ?_).symm⟩
    have hlt := ofLeBytes_lt word
    rw [((sliceAt_eq_some_iff hfits).mp h).1] at hlt
    exact hlt
  · rintro ⟨word, h, hword⟩
    exact ⟨word, o', h, by rw [hword, UInt32.ofNat_toNat], rfl⟩

theorem u64At_isSome (hfits : bytes.length < 2 ^ 64) (h : o + 8 ≤ bytes.length) :
    ∃ v, u64At bytes o = some (v, o + 8) := by
  obtain ⟨word, -, hword⟩ := sliceAt_isSome hfits h
  exact ⟨_, by rw [u64At, hword]; rfl⟩

theorem u32At_isSome (hfits : bytes.length < 2 ^ 64) (h : o + 4 ≤ bytes.length) :
    ∃ v, u32At bytes o = some (v, o + 4) := by
  obtain ⟨word, -, hword⟩ := sliceAt_isSome hfits h
  exact ⟨_, by rw [u32At, hword]; rfl⟩

end Words

section Parts
variable {bytes : List UInt8} {o o' : ℕ}

def Fields.toBytes (fields : Fields) : List UInt8 :=
  toLeBytes 8 fields.stamp.modelHash.toNat ++ (toLeBytes 4 fields.stamp.kvDtypeTag.toNat ++
    (toLeBytes 4 fields.stamp.perPosBytes.toNat ++ (toLeBytes 4 fields.stamp.nFaLayers.toNat ++
    (toLeBytes 4 fields.stamp.dnLayoutVersion.toNat ++ (toLeBytes 4 fields.stamp.cap.toNat ++
    (toLeBytes 8 fields.stamp.dnBytes.toNat ++ (toLeBytes 8 fields.seqLen.toNat ++
    (toLeBytes 8 fields.nTokens.toNat ++ (toLeBytes 8 fields.checksum.toNat ++
    toLeBytes 8 fields.payloadLen.toNat)))))))))

private theorem fieldsAt_eq_some_iff (hfits : bytes.length < 2 ^ 64) {fields : Fields} :
    fieldsAt bytes o = some (fields, o') ↔ Consumes bytes o fields.toBytes o' := by
  simp only [fieldsAt, Option.bind_eq_bind, Option.bind_eq_some_iff, Prod.exists, u64At_eq_some_iff hfits,
    u32At_eq_some_iff hfits, Option.some.injEq, Prod.mk.injEq, Fields.toBytes, Consumes.append_iff]
  constructor
  · rintro ⟨_, o₁, h₁, _, o₂, h₂, _, o₃, h₃, _, o₄, h₄, _, o₅, h₅, _, o₆, h₆, _, o₇, h₇, _, o₈, h₈, _, o₉, h₉,
      _, o₁₀, h₁₀, _, o₁₁, h₁₁, rfl, rfl⟩
    exact ⟨o₁, h₁, o₂, h₂, o₃, h₃, o₄, h₄, o₅, h₅, o₆, h₆, o₇, h₇, o₈, h₈, o₉, h₉, o₁₀, h₁₀, h₁₁⟩
  · rintro ⟨o₁, h₁, o₂, h₂, o₃, h₃, o₄, h₄, o₅, h₅, o₆, h₆, o₇, h₇, o₈, h₈, o₉, h₉, o₁₀, h₁₀, h₁₁⟩
    exact ⟨_, o₁, h₁, _, o₂, h₂, _, o₃, h₃, _, o₄, h₄, _, o₅, h₅, _, o₆, h₆, _, o₇, h₇, _, o₈, h₈, _, o₉, h₉,
      _, o₁₀, h₁₀, _, o', h₁₁, rfl, rfl⟩

private theorem fieldsAt_isSome (hfits : bytes.length < 2 ^ 64) (h : o + 68 ≤ bytes.length) :
    ∃ fields, fieldsAt bytes o = some (fields, o + 68) := by
  obtain ⟨_, h₁⟩ := u64At_isSome (o := o) hfits (by omega)
  obtain ⟨_, h₂⟩ := u32At_isSome (o := o + 8) hfits (by omega)
  obtain ⟨_, h₃⟩ := u32At_isSome (o := o + 12) hfits (by omega)
  obtain ⟨_, h₄⟩ := u32At_isSome (o := o + 16) hfits (by omega)
  obtain ⟨_, h₅⟩ := u32At_isSome (o := o + 20) hfits (by omega)
  obtain ⟨_, h₆⟩ := u32At_isSome (o := o + 24) hfits (by omega)
  obtain ⟨_, h₇⟩ := u64At_isSome (o := o + 28) hfits (by omega)
  obtain ⟨_, h₈⟩ := u64At_isSome (o := o + 36) hfits (by omega)
  obtain ⟨_, h₉⟩ := u64At_isSome (o := o + 44) hfits (by omega)
  obtain ⟨_, h₁₀⟩ := u64At_isSome (o := o + 52) hfits (by omega)
  obtain ⟨_, h₁₁⟩ := u64At_isSome (o := o + 60) hfits (by omega)
  simp only [fieldsAt, h₁, h₂, h₃, h₄, h₅, h₆, h₇, h₈, h₉, h₁₀, h₁₁, Option.bind_eq_bind, Option.bind_some]
  exact ⟨_, rfl⟩

private theorem tokensAt_eq_some_iff (hfits : bytes.length < 2 ^ 64) (hin : o ≤ bytes.length) {n : ℕ}
    {tokens : List UInt32} :
    tokensAt bytes n o = some (tokens, o') ↔
      tokens.length = n ∧ Consumes bytes o (tokens.flatMap fun t => toLeBytes 4 t.toNat) o' := by
  induction n generalizing o tokens with
  | zero =>
    rw [tokensAt, Option.some.injEq, Prod.mk.injEq, List.length_eq_zero_iff]
    constructor
    · rintro ⟨rfl, rfl⟩
      exact ⟨rfl, .nil hin⟩
    · rintro ⟨rfl, h⟩
      exact ⟨rfl, h.stop.symm⟩
  | succ n ih =>
    simp only [tokensAt, Option.bind_eq_bind, Option.bind_eq_some_iff, Prod.exists, u32At_eq_some_iff hfits,
      Option.some.injEq, Prod.mk.injEq]
    constructor
    · rintro ⟨token, o₁, hfirst, rest, o₂, hrest, rfl, rfl⟩
      obtain ⟨hlen, hrest⟩ := (ih hfirst.inside).mp hrest
      rw [List.length_cons, hlen, List.flatMap_cons, Consumes.append_iff]
      exact ⟨rfl, o₁, hfirst, hrest⟩
    · rintro ⟨hlen, h⟩
      obtain ⟨token, rest, rfl⟩ := List.exists_cons_of_length_eq_add_one hlen
      rw [List.flatMap_cons, Consumes.append_iff] at h
      obtain ⟨o₁, hfirst, hrest⟩ := h
      exact ⟨token, o₁, hfirst, rest, o', (ih hfirst.inside).mpr ⟨Nat.succ.inj hlen, hrest⟩, rfl, rfl⟩

private theorem tokensAt_isSome (hfits : bytes.length < 2 ^ 64) {n : ℕ} (h : o + 4 * n ≤ bytes.length) :
    ∃ tokens, tokens.length = n ∧ tokensAt bytes n o = some (tokens, o + 4 * n) := by
  induction n generalizing o with
  | zero => exact ⟨[], rfl, rfl⟩
  | succ n ih =>
    obtain ⟨token, hfirst⟩ := u32At_isSome (o := o) hfits (by omega)
    obtain ⟨rest, hlen, hrest⟩ := ih (o := o + 4) (by omega)
    refine ⟨token :: rest, by rw [List.length_cons, hlen], ?_⟩
    rw [tokensAt, hfirst]
    simp only [Option.bind_eq_bind, Option.bind_some, hrest]
    rw [show o + 4 + 4 * n = o + 4 * (n + 1) by omega]

end Parts

section RoundTrip

/-- The header of a snapshot. -/
def SlotSnapshot.fields (s : SlotSnapshot) : Fields :=
  ⟨s.stamp, s.seqLen, UInt64.ofNat s.tokens.data.length, s.checksum, UInt64.ofNat s.payload.data.length⟩

def SlotSnapshot.body (s : SlotSnapshot) : List UInt8 :=
  s.tokens.data.flatMap (fun t => toLeBytes 4 t.toNat) ++ s.payload.data

variable {bytes : List UInt8} {o : ℕ} {fields : Fields} {s : SlotSnapshot}

private theorem nTokens_toNat (s : SlotSnapshot) : s.fields.nTokens.toNat = s.tokens.data.length := by
  have := s.tokens.fits
  exact Nat.mod_eq_of_lt (by omega)

private theorem payloadLen_toNat (s : SlotSnapshot) : s.fields.payloadLen.toNat = s.payload.data.length := by
  have := s.payload.fits
  exact Nat.mod_eq_of_lt (by omega)

private theorem toBytes_eq (s : SlotSnapshot) : s.toBytes =
    toLeBytes 8 magic.toNat ++ (toLeBytes 4 version.toNat ++ (s.fields.toBytes ++ s.body)) := by
  rw [Fields.toBytes, nTokens_toNat, payloadLen_toNat]
  simp only [SlotSnapshot.toBytes, SlotSnapshot.body, SlotSnapshot.fields, List.append_assoc]

private theorem collect_eq_some_iff {α : Type} {size : ℕ} {data : List α} {v : Vec size α} :
    Vec.collect size data = some v ↔ v.data = data := by
  rw [Vec.collect]
  constructor
  · intro h
    split_ifs at h
    cases h
    rfl
  · rintro rfl
    rw [dif_pos v.fits]

private theorem body_length (s : SlotSnapshot) :
    s.body.length = 4 * s.tokens.data.length + s.payload.data.length := by
  rw [SlotSnapshot.body, List.length_append, List.length_flatMap]
  simp
  omega

private theorem bodyAt_eq_some_iff (hfits : bytes.length < 2 ^ 64) (hin : o ≤ bytes.length) :
    bodyAt bytes o fields = some s ↔ fields = s.fields ∧ ∃ stop, Consumes bytes o s.body stop := by
  simp only [bodyAt, Option.bind_eq_bind, Option.bind_eq_some_iff, Prod.exists, tokensAt_eq_some_iff hfits hin,
    sliceAt_eq_some_iff hfits, collect_eq_some_iff, Option.some.injEq]
  constructor
  · rintro ⟨_, o₁, ⟨hn, htokens⟩, tokens, rfl, _, o₂, ⟨hlen, hpayload⟩, payload, rfl, rfl⟩
    refine ⟨?_, o₂, Consumes.append_iff.mpr ⟨o₁, htokens, hpayload⟩⟩
    rw [SlotSnapshot.fields, hn, hlen, UInt64.ofNat_toNat, UInt64.ofNat_toNat]
  · rintro ⟨rfl, stop, h⟩
    obtain ⟨o₁, htokens, hpayload⟩ := Consumes.append_iff.mp h
    exact ⟨_, o₁, ⟨(nTokens_toNat s).symm, htokens⟩, s.tokens, rfl, _, stop, ⟨(payloadLen_toNat s).symm, hpayload⟩,
      s.payload, rfl, rfl⟩

/-- Below half the range of `usize` nothing saturated or wrapped. -/
private theorem claimedLen_eq_some_iff {need : ℕ} (hneed : need < 2 ^ 63) :
    claimedLen o fields = some need ↔ o + 4 * fields.nTokens.toNat + fields.payloadLen.toNat = need := by
  simp only [claimedLen, Option.bind_eq_bind, Option.bind_eq_some_iff, addUsize_eq_some_iff]
  have hmul : fields.nTokens.toNat * 4 < 2 ^ 63 → saturatingMul fields.nTokens.toNat 4 = 4 * fields.nTokens.toNat := by
    intro h
    rw [saturatingMul, Nat.min_eq_left (by omega), Nat.mul_comm]
  constructor
  · rintro ⟨tokensEnd, ⟨rfl, hend⟩, rfl, -⟩
    rw [hmul]
    rw [saturatingMul] at hneed
    omega
  · rintro rfl
    refine ⟨_, ⟨rfl, ?_⟩, ?_, ?_⟩
    · rw [hmul (by omega)]
      omega
    · rw [hmul (by omega)]
    · omega

/-- The claimed length of a body that is there. -/
private theorem claimedLen_of_body (hlen : bytes.length < 2 ^ 63) {stop : ℕ} (h : Consumes bytes o s.body stop) :
    claimedLen o s.fields = some stop := by
  have hstop := h.stop
  rw [body_length] at hstop
  have hin := h.inside
  rw [claimedLen_eq_some_iff (by omega), nTokens_toNat, payloadLen_toNat]
  omega

private theorem checkedBodyAt_eq_ok_iff (hlen : bytes.length < 2 ^ 63) (hin : o ≤ bytes.length) :
    checkedBodyAt bytes o fields = some (.ok s) ↔ fields = s.fields ∧ ∃ stop, Consumes bytes o s.body stop := by
  rw [← bodyAt_eq_some_iff (by omega) hin]
  constructor
  · intro h
    dsimp only [checkedBodyAt] at h
    split at h
    · cases h
    · split_ifs at h
      · cases h
      · obtain ⟨parsed, hbody, hparsed⟩ := Option.map_eq_some_iff.mp h
        cases hparsed
        exact hbody
  · intro h
    obtain ⟨rfl, stop, hbody⟩ := (bodyAt_eq_some_iff (by omega) hin).mp h
    dsimp only [checkedBodyAt]
    rw [claimedLen_of_body hlen hbody]
    dsimp only
    rw [if_neg (Nat.not_lt.mpr hbody.inside), h]
    rfl

private theorem fields_toBytes_length : fields.toBytes.length = 68 := by
  simp [Fields.toBytes]

/-- The decoder accepts a buffer exactly when the encoding is in front of it. -/
theorem fromBytes_eq_ok_iff (b : Vec 1 UInt8) (s : SlotSnapshot) :
    fromBytes b = some (.ok s) ↔ s.toBytes <+: b.data := by
  have hlen : b.data.length < 2 ^ 63 := by have := b.fits; omega
  have hfits : b.data.length < 2 ^ 64 := by omega
  rw [← Consumes.start_iff, toBytes_eq]
  simp only [Consumes.append_iff]
  constructor
  · intro h
    dsimp only [fromBytes] at h
    split_ifs at h
    · cases h
    simp only [Option.bind_eq_bind, Option.bind_eq_some_iff, Prod.exists] at h
    obtain ⟨found, o₁, hmagic, h⟩ := h
    split_ifs at h with hbad
    · cases h
    rw [not_not.mp hbad, u64At_eq_some_iff hfits] at hmagic
    simp only [Option.bind_eq_some_iff, Prod.exists] at h
    obtain ⟨found, o₂, hversion, h⟩ := h
    split_ifs at h with hold
    · cases h
    rw [not_not.mp hold, u32At_eq_some_iff hfits] at hversion
    simp only [Option.bind_eq_some_iff, Prod.exists] at h
    obtain ⟨fields, o₃, hfields, h⟩ := h
    rw [fieldsAt_eq_some_iff hfits] at hfields
    obtain ⟨rfl, stop, hbody⟩ := (checkedBodyAt_eq_ok_iff hlen hfields.inside).mp h
    exact ⟨stop, o₁, hmagic, o₂, hversion, o₃, hfields, hbody⟩
  · rintro ⟨stop, o₁, hmagic, o₂, hversion, o₃, hfields, hbody⟩
    have hheader : ¬b.data.length < headerLen := by
      have h₁ := hmagic.stop
      have h₂ := hversion.stop
      have h₃ := hfields.stop
      rw [toLeBytes_length] at h₁ h₂
      rw [fields_toBytes_length] at h₃
      have hin := hfields.inside
      rw [headerLen]
      omega
    dsimp only [fromBytes]
    rw [if_neg hheader, (u64At_eq_some_iff hfits).mpr hmagic]
    simp only [Option.bind_eq_bind, Option.bind_some, ne_eq, not_true_eq_false, if_false,
      (u32At_eq_some_iff hfits).mpr hversion, (fieldsAt_eq_some_iff hfits).mpr hfields]
    exact (checkedBodyAt_eq_ok_iff hlen hfields.inside).mpr ⟨rfl, stop, hbody⟩

/-- What is inside the claimed length is inside the buffer. -/
private theorem bodyAt_isSome (hlen : bytes.length < 2 ^ 63) {need : ℕ} (hclaimed : claimedLen o fields = some need)
    (hneed : need ≤ bytes.length) : ∃ s, bodyAt bytes o fields = some s := by
  rw [claimedLen_eq_some_iff (by omega)] at hclaimed
  have htokensIn : o + 4 * fields.nTokens.toNat ≤ bytes.length := by omega
  have hpayloadIn : o + 4 * fields.nTokens.toNat + fields.payloadLen.toNat ≤ bytes.length := by omega
  obtain ⟨tokens, hcount, htokens⟩ := tokensAt_isSome (by omega) htokensIn
  obtain ⟨payload, hpayload, hslice⟩ := sliceAt_isSome (by omega) hpayloadIn
  simp only [bodyAt, htokens, Option.bind_eq_bind, Option.bind_some, Vec.collect, hslice]
  rw [dif_pos (by omega), dif_pos (by omega)]
  exact ⟨_, rfl⟩

/-- No header makes the decoder read outside its buffer, overflow or allocate too much. -/
theorem fromBytes_ne_none (b : Vec 1 UInt8) : fromBytes b ≠ none := by
  have hlen : b.data.length < 2 ^ 63 := by have := b.fits; omega
  have hfits : b.data.length < 2 ^ 64 := by omega
  dsimp only [fromBytes]
  split_ifs with hheader
  · simp
  rw [headerLen, Nat.not_lt] at hheader
  obtain ⟨found, hmagic⟩ := u64At_isSome (o := 0) hfits (by omega)
  simp only [hmagic, Option.bind_eq_bind, Option.bind_some]
  split_ifs
  · simp
  obtain ⟨found, hversion⟩ := u32At_isSome (o := 0 + 8) hfits (by omega)
  simp only [hversion, Option.bind_some]
  split_ifs
  · simp
  obtain ⟨fields, hfields⟩ := fieldsAt_isSome (o := 0 + 8 + 4) hfits (by omega)
  simp only [hfields, Option.bind_some, checkedBodyAt]
  split
  · simp
  · rename_i need hclaimed
    split_ifs with hshort
    · simp
    · obtain ⟨s, hbody⟩ := bodyAt_isSome hlen hclaimed (Nat.not_lt.mp hshort)
      rw [hbody]
      simp

private theorem fields_toBytes_inj {fields' : Fields} (h : fields.toBytes = fields'.toBytes) : fields = fields' := by
  have hfits : fields.toBytes.length < 2 ^ 64 := by rw [fields_toBytes_length]; omega
  have hread (f : Fields) (hf : fields.toBytes = f.toBytes) : fieldsAt fields.toBytes 0 = some (f, 68) := by
    rw [fieldsAt_eq_some_iff hfits, hf]
    exact ⟨by rw [fields_toBytes_length], by rw [fields_toBytes_length], by simp [fields_toBytes_length]⟩
  have := (hread fields rfl).symm.trans (hread fields' h)
  simpa using this

/-- An encoding says how long it is, so no other one starts it. -/
private theorem toBytes_length_eq {s' : SlotSnapshot} (h : s'.toBytes <+: s.toBytes) :
    s'.toBytes.length = s.toBytes.length := by
  rw [toBytes_eq, toBytes_eq, List.prefix_append_right_inj, List.prefix_append_right_inj] at h
  obtain ⟨rest, hrest⟩ := h
  rw [List.append_assoc] at hrest
  have hfields := fields_toBytes_inj (List.append_inj hrest (by rw [fields_toBytes_length, fields_toBytes_length])).1
  have hcount := nTokens_toNat s
  have hsize := payloadLen_toNat s
  rw [← hfields, nTokens_toNat] at hcount
  rw [← hfields, payloadLen_toNat] at hsize
  simp only [toBytes_eq, List.length_append, body_length, hcount, hsize, hfields]

/-- Encoding and decoding a snapshot: the decoder inverts the encoder, accepts no proper part of an
encoding, only reads what an encoding starts with, and never panics. -/
theorem snapshot_round_trip :
    (∀ (s : SlotSnapshot) (b : Vec 1 UInt8), b.data = s.toBytes → fromBytes b = some (.ok s)) ∧
    (∀ (s : SlotSnapshot) (b : Vec 1 UInt8), b.data <+: s.toBytes → b.data ≠ s.toBytes →
      ∃ e, fromBytes b = some (.error e)) ∧
    (∀ (b : Vec 1 UInt8) (s : SlotSnapshot), fromBytes b = some (.ok s) → s.toBytes <+: b.data) ∧
    ∀ b : Vec 1 UInt8, fromBytes b ≠ none := by
  refine ⟨?_, ?_, fun b s => (fromBytes_eq_ok_iff b s).mp, fromBytes_ne_none⟩
  · intro s b hb
    rw [fromBytes_eq_ok_iff, hb]
  · intro s b hpart hproper
    cases hparse : fromBytes b with
    | none => exact absurd hparse (fromBytes_ne_none b)
    | some result =>
      cases result with
      | error e => exact ⟨e, rfl⟩
      | ok s' =>
        have hfront := (fromBytes_eq_ok_iff b s').mp hparse
        have hle := hfront.length_le
        rw [toBytes_length_eq (hfront.trans hpart)] at hle
        exact absurd (hpart.eq_of_length_le hle) hproper

def captured : SlotSnapshot := ⟨⟨7, 1, 4, 2, 1, 128, 1⟩, 8, ⟨[4, 65536], by decide⟩, ⟨[3, 255], by decide⟩, 9⟩

theorem captured_round_trip : captured.toBytes.length = 90 ∧
    fromBytes ⟨captured.toBytes, by decide⟩ = some (.ok captured) :=
  ⟨by decide, snapshot_round_trip.1 captured ⟨captured.toBytes, by decide⟩ rfl⟩

end RoundTrip
end Hipscope.Swap
