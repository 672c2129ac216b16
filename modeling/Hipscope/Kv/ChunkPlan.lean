import Hipscope.Bytes.Reader
import Hipscope.Lists.Traverse
import Mathlib.Order.MinMax

/-! Mapping the memory of a key-value cache on demand, in whole pages and up to a reserve. -/
namespace Hipscope.Kv
open Bytes

inductive KvChunkPlanError where
  | zero (field : String)
  | overflow
  | requiredTokens (required max : ℕ)
  | invalidMappedBytes (mapped reserve : ℕ)
  deriving DecidableEq, Repr

structure KvMapGrowth where
  offsetBytes : ℕ
  sizeBytes : ℕ
  tokenCapacity : ℕ
  deriving DecidableEq, Repr

structure KvChunkPlan where
  bytesPerToken : ℕ
  maxTokens : ℕ
  targetChunkTokens : ℕ
  granularity : ℕ
  reserveBytes : ℕ
  growthBytes : ℕ
  deriving DecidableEq, Repr

/-- `ok_or(KvChunkPlanError::Overflow)`. -/
def okOrOverflow : Option ℕ → Except KvChunkPlanError ℕ
  | some n => .ok n
  | none => .error .overflow

def checkedRoundUp (value alignment : ℕ) : Except KvChunkPlanError ℕ :=
  let remainder := value % alignment
  if remainder = 0 then .ok value else okOrOverflow (addUsize value (alignment - remainder))

namespace KvChunkPlan

def new (bytesPerToken maxTokens targetChunkTokens granularity minimumGrowthBytes : ℕ) :
    Except KvChunkPlanError KvChunkPlan :=
  let fields := [("bytes_per_token", bytesPerToken), ("max_tokens", maxTokens), ("target_chunk_tokens", targetChunkTokens),
    ("granularity", granularity), ("minimum_growth_bytes", minimumGrowthBytes)]
  match fields.find? fun field => field.2 == 0 with
  | some field => .error (.zero field.1)
  | none => do
    let logicalBytes ← okOrOverflow (mulUsize bytesPerToken maxTokens)
    let targetBytes ← okOrOverflow (mulUsize bytesPerToken targetChunkTokens)
    let reserveBytes ← checkedRoundUp logicalBytes granularity
    let growthBytes ← checkedRoundUp (max targetBytes minimumGrowthBytes) granularity
    return { bytesPerToken, maxTokens, targetChunkTokens, granularity, reserveBytes, growthBytes }

def mappedBytesForTokens (p : KvChunkPlan) (requiredTokens : ℕ) : Except KvChunkPlanError ℕ :=
  if requiredTokens > p.maxTokens then .error (.requiredTokens requiredTokens p.maxTokens)
  else if requiredTokens = 0 then .ok 0
  else do
    let requiredBytes ← okOrOverflow (mulUsize p.bytesPerToken requiredTokens)
    let mapped ← checkedRoundUp requiredBytes p.growthBytes
    return min mapped p.reserveBytes

def tokenCapacity (p : KvChunkPlan) (mappedBytes : ℕ) : ℕ := min (mappedBytes / p.bytesPerToken) p.maxTokens

def growth (p : KvChunkPlan) (mappedBytes requiredTokens : ℕ) : Except KvChunkPlanError (Option KvMapGrowth) :=
  if mappedBytes > p.reserveBytes ∨ mappedBytes % p.granularity ≠ 0 then
    .error (.invalidMappedBytes mappedBytes p.reserveBytes)
  else do
    let target ← p.mappedBytesForTokens requiredTokens
    if target ≤ mappedBytes then return none
    else return some ⟨mappedBytes, target - mappedBytes, p.tokenCapacity target⟩

end KvChunkPlan

section RoundUp
variable {value value' alignment multiple rounded : ℕ}

theorem okOrOverflow_ok {n : Option ℕ} (h : okOrOverflow n = .ok rounded) : n = some rounded := by
  cases n with
  | none => cases h
  | some n =>
    cases h
    rfl

theorem okOrOverflow_error {n : Option ℕ} {e : KvChunkPlanError} (h : okOrOverflow n = .error e) : e = .overflow := by
  cases n with
  | none =>
    cases h
    rfl
  | some n => cases h

theorem checkedRoundUp_error {e : KvChunkPlanError} (h : checkedRoundUp value alignment = .error e) : e = .overflow := by
  rw [checkedRoundUp] at h
  split at h
  · cases h
  · exact okOrOverflow_error h

/-- The rounded value is the least multiple of the alignment from the value on. -/
theorem checkedRoundUp_spec (halign : 0 < alignment) (h : checkedRoundUp value alignment = .ok rounded) :
    value ≤ rounded ∧ alignment ∣ rounded ∧ (value < 2 ^ 64 → rounded < 2 ^ 64) ∧
      ∀ multiple, alignment ∣ multiple → value ≤ multiple → rounded ≤ multiple := by
  rw [checkedRoundUp] at h
  split at h
  · next hzero =>
    cases h
    exact ⟨le_refl _, Nat.dvd_of_mod_eq_zero hzero, id, fun multiple _ hle => hle⟩
  · next hrest =>
    obtain ⟨rfl, hfits⟩ := addUsize_eq_some_iff.mp (okOrOverflow_ok h)
    have hmod := Nat.mod_lt value halign
    have hdiv := Nat.div_add_mod value alignment
    have hsum : value + (alignment - value % alignment) = alignment * (value / alignment + 1) := by
      rw [Nat.mul_add_one]
      omega
    refine ⟨Nat.le_add_right _ _, ⟨_, hsum⟩, fun _ => hfits, ?_⟩
    rintro _ ⟨k, rfl⟩ hle
    rw [hsum]
    apply Nat.mul_le_mul_left
    by_contra hlt
    have hk : alignment * k ≤ alignment * (value / alignment) := Nat.mul_le_mul_left _ (by omega)
    omega

/-- A smaller value rounds up where a greater one does, and no further. -/
theorem checkedRoundUp_mono (halign : 0 < alignment) (hle : value' ≤ value) (hvalue : value < 2 ^ 64)
    (h : checkedRoundUp value alignment = .ok rounded) :
    ∃ rounded' ≤ rounded, checkedRoundUp value' alignment = .ok rounded' := by
  obtain ⟨hup, ⟨k, hk⟩, hfits, -⟩ := checkedRoundUp_spec halign h
  rw [checkedRoundUp]
  by_cases hzero : value' % alignment = 0
  · exact ⟨value', hle.trans hup, if_pos hzero⟩
  · have hmod := Nat.mod_lt value' halign
    have hdiv := Nat.div_add_mod value' alignment
    have hsum : value' + (alignment - value' % alignment) ≤ rounded := by
      have hquot : value' / alignment < k := by
        apply Nat.div_lt_of_lt_mul
        rw [← hk]
        refine lt_of_le_of_ne (hle.trans hup) fun heq => hzero ?_
        rw [heq, hk, Nat.mul_mod_right]
      calc
        _ = alignment * (value' / alignment + 1) := by rw [Nat.mul_add_one]; omega
        _ ≤ alignment * k := Nat.mul_le_mul_left _ hquot
        _ = rounded := hk.symm
    refine ⟨_, hsum, ?_⟩
    rw [if_neg hzero, addUsize_of_lt (hsum.trans_lt (hfits hvalue))]
    rfl

end RoundUp

namespace KvChunkPlan
variable {bytesPerToken maxTokens targetChunkTokens granularity minimumGrowthBytes : ℕ} {p : KvChunkPlan}
  {mapped required fewer target : ℕ}

/-- What a plan is made with: the reserve has room for every token, and reserve and growth are whole pages. -/
structure Sound (p : KvChunkPlan) : Prop where
  token_pos : 0 < p.bytesPerToken
  growth_pos : 0 < p.growthBytes
  reserve_pages : p.granularity ∣ p.reserveBytes
  growth_pages : p.granularity ∣ p.growthBytes
  room : p.bytesPerToken * p.maxTokens ≤ p.reserveBytes

/-- What is mapped for a number of tokens: whole pages, enough for them, inside the reserve. -/
theorem Sound.mappedBytes_spec (hp : p.Sound) (h : p.mappedBytesForTokens required = .ok target) :
    p.granularity ∣ target ∧ target ≤ p.reserveBytes ∧ p.bytesPerToken * required ≤ target := by
  rw [mappedBytesForTokens] at h
  split at h
  · cases h
  · next hle =>
    split at h
    · next hzero =>
      cases h
      rw [hzero]
      exact ⟨Nat.dvd_zero _, Nat.zero_le _, le_refl _⟩
    · obtain ⟨requiredBytes, hrequired, h⟩ := bind_ok h
      obtain ⟨rounded, hround, h⟩ := bind_ok h
      cases h
      obtain ⟨rfl, -⟩ := mulUsize_eq_some_iff.mp (okOrOverflow_ok hrequired)
      obtain ⟨hup, hpages, -, -⟩ := checkedRoundUp_spec hp.growth_pos hround
      refine ⟨?_, min_le_right _ _, le_min hup ?_⟩
      · obtain hmin | hmin := min_choice rounded p.reserveBytes
        · rw [hmin]
          exact Nat.dvd_trans hp.growth_pages hpages
        · rw [hmin]
          exact hp.reserve_pages
      · exact (Nat.mul_le_mul_left _ (Nat.not_lt.mp hle)).trans hp.room

/-- Fewer tokens need no more, and their calculation overflows no sooner. -/
theorem Sound.mappedBytes_mono (hp : p.Sound) (hfewer : fewer ≤ required)
    (h : p.mappedBytesForTokens required = .ok target) : ∃ target' ≤ target, p.mappedBytesForTokens fewer = .ok target' := by
  rw [mappedBytesForTokens] at h ⊢
  split at h
  · cases h
  · next hle =>
    rw [if_neg fun hgt => hle (hgt.trans_le hfewer)]
    by_cases hzero : fewer = 0
    · exact ⟨0, Nat.zero_le _, if_pos hzero⟩
    · rw [if_neg (Nat.ne_of_gt (Nat.lt_of_lt_of_le (Nat.pos_of_ne_zero hzero) hfewer))] at h
      obtain ⟨requiredBytes, hrequired, h⟩ := bind_ok h
      obtain ⟨rounded, hround, h⟩ := bind_ok h
      cases h
      obtain ⟨rfl, hfits⟩ := mulUsize_eq_some_iff.mp (okOrOverflow_ok hrequired)
      have hbytes : p.bytesPerToken * fewer ≤ p.bytesPerToken * required := Nat.mul_le_mul_left _ hfewer
      obtain ⟨rounded', hrounded, hround'⟩ := checkedRoundUp_mono hp.growth_pos hbytes hfits hround
      refine ⟨min rounded' p.reserveBytes, min_le_min_right _ hrounded, ?_⟩
      rw [if_neg hzero, mulUsize_of_lt (hbytes.trans_lt hfits)]
      change (checkedRoundUp (p.bytesPerToken * fewer) p.growthBytes).bind _ = _
      rw [hround']
      rfl

/-- Up to the most tokens only the multiplication and the rounding can fail. -/
theorem mappedBytes_error {e : KvChunkPlanError} (hmax : required ≤ p.maxTokens)
    (h : p.mappedBytesForTokens required = .error e) : e = .overflow := by
  rw [mappedBytesForTokens, if_neg (Nat.not_lt.mpr hmax)] at h
  split at h
  · cases h
  · obtain hmul | ⟨requiredBytes, -, h⟩ := bind_error h
    · exact okOrOverflow_error hmul
    · obtain hround | ⟨rounded, -, h⟩ := bind_error h
      · exact checkedRoundUp_error hround
      · cases h

/-- What is mapped after a request is served; a failed one maps nothing. -/
def serve (p : KvChunkPlan) (mapped required : ℕ) : ℕ :=
  match p.growth mapped required with
  | .ok (some range) => mapped + range.sizeBytes
  | .ok none => mapped
  | .error _ => mapped

/-- Whole pages inside the reserve. -/
def Mapped (p : KvChunkPlan) (mapped : ℕ) : Prop := mapped ≤ p.reserveBytes ∧ p.granularity ∣ mapped

/-- Over whole pages only the calculation of the target can fail. -/
theorem growth_eq (hmapped : p.Mapped mapped) : p.growth mapped required =
    (p.mappedBytesForTokens required).map fun target =>
      if target ≤ mapped then none else some ⟨mapped, target - mapped, p.tokenCapacity target⟩ := by
  have hpages := Nat.mod_eq_zero_of_dvd hmapped.2
  rw [growth, if_neg (by rw [not_or, not_not]; exact ⟨Nat.not_lt.mpr hmapped.1, hpages⟩)]
  cases p.mappedBytesForTokens required with
  | error e => rfl
  | ok target =>
    change (if target ≤ mapped then Except.ok none else Except.ok (some _)) = Except.ok (if target ≤ mapped then _ else _)
    split <;> rfl

/-- A request that does not fail leaves what was mapped, or what it needs if that is more. -/
theorem serve_ok (hmapped : p.Mapped mapped) (h : p.mappedBytesForTokens required = .ok target) :
    p.serve mapped required = max mapped target := by
  rw [serve, growth_eq hmapped, h]
  by_cases hle : target ≤ mapped
  · rw [Except.map, if_pos hle, max_eq_left hle]
  · rw [Except.map, if_neg hle, max_eq_right (Nat.le_of_not_le hle)]
    exact Nat.add_sub_cancel' (Nat.le_of_not_le hle)

theorem serve_error {e : KvChunkPlanError} (hmapped : p.Mapped mapped) (h : p.mappedBytesForTokens required = .error e) :
    p.serve mapped required = mapped := by
  rw [serve, growth_eq hmapped, h]
  rfl

/-- Every request keeps the mapped bytes whole pages inside the reserve, and never unmaps one. -/
theorem Sound.serve_mapped (hp : p.Sound) (hmapped : p.Mapped mapped) (required : ℕ) :
    p.Mapped (p.serve mapped required) ∧ mapped ≤ p.serve mapped required := by
  cases htarget : p.mappedBytesForTokens required with
  | error e =>
    rw [serve_error hmapped htarget]
    exact ⟨hmapped, le_refl _⟩
  | ok target =>
    obtain ⟨hpages, hreserve, -⟩ := hp.mappedBytes_spec htarget
    rw [serve_ok hmapped htarget]
    refine ⟨⟨max_le hmapped.1 hreserve, ?_⟩, le_max_left _ _⟩
    obtain hmax | hmax := max_choice mapped target
    · rw [hmax]
      exact hmapped.2
    · rw [hmax]
      exact hpages

theorem Sound.run_mapped (hp : p.Sound) (hmapped : p.Mapped mapped) (requests : List ℕ) :
    p.Mapped (requests.foldl p.serve mapped) ∧ mapped ≤ requests.foldl p.serve mapped := by
  induction requests generalizing mapped with
  | nil => exact ⟨hmapped, le_refl _⟩
  | cons required requests ih =>
    obtain ⟨hnext, hgrown⟩ := hp.serve_mapped hmapped required
    obtain ⟨hall, hmore⟩ := ih hnext
    exact ⟨hall, hgrown.trans hmore⟩

/-- How a request is served: what `growth` can answer, and what is mapped then and later. -/
structure Served (p : KvChunkPlan) (mapped required : ℕ) : Prop where
  fails : ∀ e, p.growth mapped required = .error e → e = .overflow
  bounded : p.serve mapped required ≤ p.reserveBytes
  grown : mapped ≤ p.serve mapped required
  range : ∀ g, p.growth mapped required = .ok (some g) → g.offsetBytes = mapped ∧ 0 < g.sizeBytes ∧
    p.granularity ∣ g.sizeBytes ∧ g.tokenCapacity = p.tokenCapacity (mapped + g.sizeBytes)
  holds : ∀ g, p.growth mapped required = .ok g → required * p.bytesPerToken ≤ p.serve mapped required ∧
    required ≤ p.tokenCapacity (p.serve mapped required)
  again : ∀ g, p.growth mapped required = .ok g → ∀ (later : List ℕ) (fewer : ℕ), fewer ≤ required →
    p.growth (later.foldl p.serve (p.serve mapped required)) fewer = .ok none

theorem Sound.served (hp : p.Sound) (hmapped : p.Mapped mapped) (hmax : required ≤ p.maxTokens) :
    p.Served mapped required := by
  obtain ⟨hnext, hgrown⟩ := hp.serve_mapped hmapped required
  have hok : ∀ g, p.growth mapped required = .ok g → ∃ target, p.mappedBytesForTokens required = .ok target ∧
      (if target ≤ mapped then none else some ⟨mapped, target - mapped, p.tokenCapacity target⟩) = g := by
    intro g h
    rw [growth_eq hmapped] at h
    cases htarget : p.mappedBytesForTokens required with
    | error e =>
      rw [htarget] at h
      cases h
    | ok target =>
      rw [htarget] at h
      exact ⟨target, rfl, Except.ok.inj h⟩
  refine ⟨?_, hnext.1, hgrown, ?_, ?_, ?_⟩
  · intro e h
    rw [growth_eq hmapped] at h
    cases htarget : p.mappedBytesForTokens required with
    | error e' =>
      rw [htarget] at h
      cases h
      exact mappedBytes_error hmax htarget
    | ok target =>
      rw [htarget] at h
      cases h
  · intro g h
    obtain ⟨target, htarget, hg⟩ := hok (some g) h
    split at hg
    · cases hg
    · next hlt =>
      cases hg
      have hle := Nat.le_of_not_le hlt
      refine ⟨rfl, Nat.sub_pos_of_lt (Nat.not_le.mp hlt), Nat.dvd_sub (hp.mappedBytes_spec htarget).1 hmapped.2, ?_⟩
      rw [Nat.add_sub_cancel' hle]
  · intro g h
    obtain ⟨target, htarget, -⟩ := hok g h
    have hroom : p.bytesPerToken * required ≤ p.serve mapped required := by
      rw [serve_ok hmapped htarget]
      exact (hp.mappedBytes_spec htarget).2.2.trans (le_max_right _ _)
    refine ⟨Nat.mul_comm _ _ ▸ hroom, le_min ((Nat.le_div_iff_mul_le hp.token_pos).mpr ?_) hmax⟩
    exact Nat.mul_comm _ _ ▸ hroom
  · intro g h later fewer hfewer
    obtain ⟨target, htarget, -⟩ := hok g h
    obtain ⟨target', hless, htarget'⟩ := hp.mappedBytes_mono hfewer htarget
    obtain ⟨hlater, hmore⟩ := hp.run_mapped hnext later
    have hcovered : target' ≤ later.foldl p.serve (p.serve mapped required) := by
      calc
        _ ≤ target := hless
        _ ≤ p.serve mapped required := by rw [serve_ok hmapped htarget]; exact le_max_right _ _
        _ ≤ _ := hmore
    rw [growth_eq hlater, htarget', Except.map, if_pos hcovered]

end KvChunkPlan

end Hipscope.Kv
