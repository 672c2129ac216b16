import Mathlib.Data.List.Infix
import Mathlib.Order.Basic

/-! How much of the last turn's state the next prompt can reuse. -/
namespace Hipscope.Decode

section Prefixes
variable {α : Type} [DecidableEq α] {a b : List α}

/-- The length of the longest common prefix. -/
def lcp : List α → List α → ℕ
  | x :: a, y :: b => if x = y then lcp a b + 1 else 0
  | _, _ => 0

theorem lcp_cons (x y : α) (a b : List α) : lcp (x :: a) (y :: b) = if x = y then lcp a b + 1 else 0 := rfl

theorem lcp_le_left (a b : List α) : lcp a b ≤ a.length := by
  induction a generalizing b with
  | nil => exact Nat.le_refl 0
  | cons x a ih =>
    cases b with
    | nil => exact Nat.zero_le _
    | cons y b =>
      rw [lcp_cons]
      split
      · exact Nat.succ_le_succ (ih b)
      · exact Nat.zero_le _

theorem lcp_comm (a b : List α) : lcp a b = lcp b a := by
  induction a generalizing b with
  | nil => cases b <;> rfl
  | cons x a ih =>
    cases b with
    | nil => rfl
    | cons y b => simp only [lcp_cons, ih b, eq_comm (a := x)]

theorem lcp_le_right (a b : List α) : lcp a b ≤ b.length := lcp_comm a b ▸ lcp_le_left b a

/-- Up to their common prefix the lists agree, and no further. -/
theorem le_lcp_iff {n : ℕ} (ha : n ≤ a.length) (hb : n ≤ b.length) : n ≤ lcp a b ↔ a.take n = b.take n := by
  induction n generalizing a b with
  | zero => simp
  | succ n ih =>
    cases a with
    | nil => cases ha
    | cons x a =>
      cases b with
      | nil => cases hb
      | cons y b =>
        rw [lcp_cons, List.take_succ_cons, List.take_succ_cons]
        by_cases hxy : x = y
        · subst hxy
          rw [if_pos rfl, Nat.succ_le_succ_iff, ih (Nat.le_of_succ_le_succ ha) (Nat.le_of_succ_le_succ hb)]
          simp
        · simp [hxy]

theorem lcp_eq_left_iff : lcp a b = a.length ↔ a <+: b := by
  constructor
  · intro h
    have hle := lcp_le_right a b
    have htake := (le_lcp_iff (h ▸ lcp_le_left a b) hle).1 (Nat.le_refl _)
    rw [h, List.take_length] at htake
    exact htake ▸ List.take_prefix _ _
  · rintro ⟨rest, rfl⟩
    refine Nat.le_antisymm (lcp_le_left _ _) ((le_lcp_iff (Nat.le_refl _) (by simp)).2 ?_)
    rw [List.take_length, List.take_left]

end Prefixes

structure CachePlan where
  cacheHit : Bool
  startPos : ℕ
  cachedTokens : ℕ
  resumeFrom : Option ℕ
  deriving DecidableEq

def CachePlan.miss : CachePlan := ⟨false, 0, 0, none⟩

/-- How an exact match is handled. -/
inductive ExactMatch where
  | miss
  | stepBack
  deriving DecidableEq

structure CachePolicy where
  minNewLenGePrior : Bool
  onExact : ExactMatch
  allowPartial : Bool

def CachePolicy.qwen35 : CachePolicy := ⟨false, .miss, false⟩

def CachePolicy.deepseek4 : CachePolicy := ⟨true, .stepBack, false⟩

/-- Steps 5 to 7: what becomes of a match of `matched` tokens. -/
def planMatched (rendered prior : List UInt32) (policy : CachePolicy) (checkpoints : List ℕ) (resumeEnabled : Bool)
    (matched : ℕ) : CachePlan :=
  if matched = prior.length ∧ matched < rendered.length ∧ matched > 0 then ⟨true, matched, matched, none⟩
  else if matched > 0 ∧ matched < prior.length then
    if policy.allowPartial then ⟨true, matched, matched, none⟩
    else if resumeEnabled then
      match (checkpoints.filter fun p => p ≤ matched && p < rendered.length).max? with
      | some ckpt => ⟨true, ckpt, ckpt, some ckpt⟩
      | none => .miss
    else .miss
  else .miss

def planCache (rendered prior : List UInt32) (policy : CachePolicy) (checkpoints : List ℕ) (resumeEnabled : Bool) :
    CachePlan :=
  if prior = [] then .miss
  else if policy.minNewLenGePrior ∧ rendered.length < prior.length then .miss
  else
    let matched := lcp prior rendered
    if matched = rendered.length ∧ matched > 0 then
      match policy.onExact with
      | .miss => .miss
      | .stepBack => planMatched rendered prior policy checkpoints resumeEnabled (matched - 1)
    else planMatched rendered prior policy checkpoints resumeEnabled matched

section Planning
variable {rendered prior : List UInt32} {policy : CachePolicy} {checkpoints : List ℕ} {resumeEnabled : Bool}

/-- The prompt is the prior conversation and more. -/
def StrictlyExtends (rendered prior : List UInt32) : Prop :=
  prior ≠ [] ∧ prior <+: rendered ∧ prior.length < rendered.length

/-- The tokens in common, less one when that is the whole prompt and the policy steps back; none when
it does not. -/
def reach (policy : CachePolicy) (rendered prior : List UInt32) : ℕ :=
  if lcp prior rendered = rendered.length then
    if policy.onExact = .stepBack then rendered.length - 1 else 0
  else lcp prior rendered

/-- The largest listed position up to the bound. -/
def LargestUpTo (checkpoints : List ℕ) (bound p : ℕ) : Prop :=
  p ∈ checkpoints ∧ p ≤ bound ∧ ∀ c ∈ checkpoints, c ≤ bound → c ≤ p

/-- What a prompt that does not extend the prior conversation can reuse. -/
def Reuses (policy : CachePolicy) (checkpoints : List ℕ) (resumeEnabled : Bool) (rendered prior : List UInt32)
    (p : ℕ) : Prop :=
  0 < reach policy rendered prior ∧ (policy.minNewLenGePrior = true → prior.length ≤ rendered.length) ∧
    if policy.allowPartial then p = reach policy rendered prior
    else resumeEnabled = true ∧ LargestUpTo checkpoints (reach policy rendered prior) p

theorem reach_le : reach policy rendered prior ≤ lcp prior rendered := by
  rw [reach]
  split
  · split
    · omega
    · exact Nat.zero_le _
  · exact Nat.le_refl _

theorem reach_lt (h : 0 < reach policy rendered prior) : reach policy rendered prior < rendered.length := by
  have hle := lcp_le_right prior rendered
  rw [reach] at h ⊢
  split at h
  · next hexact =>
    rw [if_pos hexact]
    split at h
    · next hstep => rw [if_pos hstep]; omega
    · exact absurd h (Nat.lt_irrefl 0)
  · next hexact => rw [if_neg hexact]; omega

/-- Without a strict extension the match ends inside the prior conversation. -/
theorem reach_lt_prior (hne : prior ≠ []) (h : ¬ StrictlyExtends rendered prior) :
    reach policy rendered prior < prior.length := by
  have hpos := List.length_pos_iff.2 hne
  have hleft := lcp_le_left prior rendered
  have hright := lcp_le_right prior rendered
  rw [reach]
  split
  · next hexact => split <;> omega
  · next hexact =>
    refine Nat.lt_of_le_of_ne hleft fun hwhole => h ⟨hne, lcp_eq_left_iff.1 hwhole, ?_⟩
    omega

theorem reach_of_extends (h : StrictlyExtends rendered prior) : reach policy rendered prior = prior.length := by
  have hwhole := lcp_eq_left_iff.2 h.2.1
  rw [reach, if_neg (by rw [hwhole]; exact h.2.2.ne), hwhole]

/-- Up to the reach the prompt is the prior conversation. -/
theorem take_of_le_reach {n : ℕ} (h : n ≤ reach policy rendered prior) : rendered.take n = prior.take n := by
  have hle := h.trans reach_le
  exact ((le_lcp_iff (hle.trans (lcp_le_left _ _)) (hle.trans (lcp_le_right _ _))).1 hle).symm

theorem planCache_eq (hne : prior ≠ []) (hlen : policy.minNewLenGePrior = true → prior.length ≤ rendered.length) :
    planCache rendered prior policy checkpoints resumeEnabled =
      planMatched rendered prior policy checkpoints resumeEnabled (reach policy rendered prior) := by
  have hguard : ¬ (policy.minNewLenGePrior = true ∧ rendered.length < prior.length) := by
    rintro ⟨hmin, hlt⟩
    exact absurd (hlen hmin) (Nat.not_le.2 hlt)
  have hzero : planMatched rendered prior policy checkpoints resumeEnabled 0 = .miss := by
    simp [planMatched]
  rw [planCache, if_neg hne, if_neg hguard, reach]
  by_cases hexact : lcp prior rendered = rendered.length
  · rw [if_pos hexact]
    by_cases hpos : lcp prior rendered > 0
    · rw [if_pos ⟨hexact, hpos⟩]
      cases hpolicy : policy.onExact with
      | miss => rw [if_neg (by decide), hzero]
      | stepBack => rw [if_pos rfl, hexact]
    · rw [if_neg fun h => hpos h.2]
      have hnil : lcp prior rendered = 0 := Nat.eq_zero_of_not_pos hpos
      rw [hnil] at hexact ⊢
      rw [← hexact, ite_self]
  · rw [if_neg fun h => hexact h.1, if_neg hexact]

private theorem largest_iff {bound p : ℕ} (hbound : bound < rendered.length) :
    (checkpoints.filter fun p => p ≤ bound && p < rendered.length).max? = some p ↔ LargestUpTo checkpoints bound p := by
  rw [List.max?_eq_some_iff]
  simp only [List.mem_filter, Bool.and_eq_true, decide_eq_true_eq, LargestUpTo]
  constructor
  · rintro ⟨⟨hp, hle, -⟩, hmax⟩
    exact ⟨hp, hle, fun c hc hcb => hmax c ⟨hc, hcb, Nat.lt_of_le_of_lt hcb hbound⟩⟩
  · rintro ⟨hp, hle, hmax⟩
    exact ⟨⟨hp, hle, Nat.lt_of_le_of_lt hle hbound⟩, fun c hc => hmax c hc.1 hc.2.1⟩

/-- A hit inside the prior conversation. -/
def resumed (policy : CachePolicy) (p : ℕ) : CachePlan := ⟨true, p, p, if policy.allowPartial then none else some p⟩

private theorem planMatched_inside {matched : ℕ} (hprior : matched < prior.length) (hpos : 0 < matched) :
    planMatched rendered prior policy checkpoints resumeEnabled matched =
      if policy.allowPartial then resumed policy matched
      else if resumeEnabled then
        ((checkpoints.filter fun p => p ≤ matched && p < rendered.length).max?.map (resumed policy)).getD .miss
      else .miss := by
  rw [planMatched, if_neg fun h => hprior.ne h.1, if_pos ⟨hpos, hprior⟩]
  by_cases hallow : policy.allowPartial = true
  · rw [if_pos hallow, if_pos hallow, resumed, if_pos hallow]
  · rw [if_neg hallow, if_neg hallow]
    cases hmax : (checkpoints.filter fun p => p ≤ matched && p < rendered.length).max? with
    | none => rfl
    | some p => simp [resumed, hallow]

theorem planCache_of_extends (h : StrictlyExtends rendered prior) :
    planCache rendered prior policy checkpoints resumeEnabled = ⟨true, prior.length, prior.length, none⟩ := by
  rw [planCache_eq h.1 fun _ => h.2.2.le, reach_of_extends h, planMatched,
    if_pos ⟨rfl, h.2.2, List.length_pos_iff.2 h.1⟩]

private theorem prior_ne_nil {p : ℕ} (h : Reuses policy checkpoints resumeEnabled rendered prior p) : prior ≠ [] := by
  rintro rfl
  exact absurd (Nat.lt_of_lt_of_le h.1 (reach_le.trans (lcp_le_left _ _))) (Nat.lt_irrefl 0)

theorem planCache_of_reuses (hext : ¬ StrictlyExtends rendered prior) {p : ℕ}
    (h : Reuses policy checkpoints resumeEnabled rendered prior p) :
    planCache rendered prior policy checkpoints resumeEnabled = resumed policy p := by
  have hne := prior_ne_nil h
  obtain ⟨hpos, hlen, hp⟩ := h
  rw [planCache_eq hne hlen, planMatched_inside (reach_lt_prior hne hext) hpos]
  split at hp
  · next hallow => rw [if_pos hallow, hp]
  · next hallow =>
    rw [if_neg hallow, if_pos hp.1, (largest_iff (reach_lt hpos)).2 hp.2]
    rfl

theorem planCache_of_not_reuses (hext : ¬ StrictlyExtends rendered prior)
    (h : ∀ p, ¬ Reuses policy checkpoints resumeEnabled rendered prior p) :
    planCache rendered prior policy checkpoints resumeEnabled = .miss := by
  by_cases hne : prior = []
  · rw [planCache, if_pos hne]
  by_cases hshort : policy.minNewLenGePrior = true ∧ rendered.length < prior.length
  · rw [planCache, if_neg hne, if_pos hshort]
  have hlen : policy.minNewLenGePrior = true → prior.length ≤ rendered.length := fun hmin =>
    Nat.le_of_not_lt fun hlt => hshort ⟨hmin, hlt⟩
  rw [planCache_eq hne hlen]
  rcases Nat.eq_zero_or_pos (reach policy rendered prior) with hzero | hpos
  · simp [hzero, planMatched]
  rw [planMatched_inside (reach_lt_prior hne hext) hpos]
  by_cases hallow : policy.allowPartial = true
  · exact absurd ⟨hpos, hlen, by rw [if_pos hallow]⟩ (h (reach policy rendered prior))
  rw [if_neg hallow]
  by_cases hresume : resumeEnabled = true
  · rw [if_pos hresume]
    cases hmax : (checkpoints.filter fun p => p ≤ reach policy rendered prior && p < rendered.length).max? with
    | none => rfl
    | some p =>
      refine absurd ⟨hpos, hlen, ?_⟩ (h p)
      rw [if_neg hallow]
      exact ⟨hresume, (largest_iff (reach_lt hpos)).1 hmax⟩
  · rw [if_neg hresume]

private theorem Reuses.le {p : ℕ} (h : Reuses policy checkpoints resumeEnabled rendered prior p) :
    p ≤ reach policy rendered prior := by
  have hp := h.2.2
  split at hp
  · exact hp.le
  · exact hp.2.2.1

/-- A hit reuses tokens the prompt shares with the prior conversation, as many as the policy allows. -/
theorem planCache_spec (rendered prior : List UInt32) (policy : CachePolicy) (checkpoints : List ℕ)
    (resumeEnabled : Bool) :
    ((planCache rendered prior policy checkpoints resumeEnabled).cacheHit = true →
      (planCache rendered prior policy checkpoints resumeEnabled).startPos < rendered.length ∧
      rendered.take (planCache rendered prior policy checkpoints resumeEnabled).startPos =
        prior.take (planCache rendered prior policy checkpoints resumeEnabled).startPos) ∧
    (StrictlyExtends rendered prior →
      planCache rendered prior policy checkpoints resumeEnabled = ⟨true, prior.length, prior.length, none⟩) ∧
    (¬ StrictlyExtends rendered prior → ∀ p, Reuses policy checkpoints resumeEnabled rendered prior p →
      planCache rendered prior policy checkpoints resumeEnabled = resumed policy p) ∧
    (¬ StrictlyExtends rendered prior → (∀ p, ¬ Reuses policy checkpoints resumeEnabled rendered prior p) →
      planCache rendered prior policy checkpoints resumeEnabled = .miss) ∧
    (policy.allowPartial = false → resumeEnabled = false →
      (planCache rendered prior policy checkpoints resumeEnabled).cacheHit = true → StrictlyExtends rendered prior) := by
  refine ⟨fun hhit => ?_, planCache_of_extends, fun hext p => planCache_of_reuses hext, planCache_of_not_reuses,
    fun hallow hresume hhit => ?_⟩
  · by_cases hext : StrictlyExtends rendered prior
    · rw [planCache_of_extends hext]
      have hreach : prior.length ≤ reach policy rendered prior := (reach_of_extends hext).ge
      exact ⟨hext.2.2, take_of_le_reach hreach⟩
    · by_cases hreuses : ∃ p, Reuses policy checkpoints resumeEnabled rendered prior p
      · obtain ⟨p, hp⟩ := hreuses
        rw [planCache_of_reuses hext hp]
        exact ⟨Nat.lt_of_le_of_lt hp.le (reach_lt hp.1), take_of_le_reach hp.le⟩
      · rw [planCache_of_not_reuses hext fun p hp => hreuses ⟨p, hp⟩] at hhit
        cases hhit
  · by_contra hext
    have hnone : ∀ p, ¬ Reuses policy checkpoints resumeEnabled rendered prior p := by
      rintro p ⟨-, -, hp⟩
      rw [hallow, hresume, if_neg (by decide)] at hp
      exact absurd hp.1 (by decide)
    rw [planCache_of_not_reuses hext hnone] at hhit
    cases hhit

/-- A policy may take a partial match without a checkpoint, and drop a usable checkpoint of a prompt that is
consumed whole. -/
theorem partial_match_without_checkpoint :
    planCache [1, 2, 9] [1, 2, 3] ⟨false, .miss, true⟩ [] false = ⟨true, 2, 2, none⟩ ∧
    ¬ StrictlyExtends [1, 2, 9] [1, 2, 3] ∧
    planCache [1, 2] [1, 2, 3] .qwen35 [1] true = .miss ∧ LargestUpTo [1] (lcp [1, 2, 3] [1, 2]) 1 := by
  refine ⟨by decide, fun h => ?_, by decide, by decide, by decide, fun c hc _ => ?_⟩
  · exact absurd h.2.2 (by decide)
  · exact (List.mem_singleton.1 hc).le

end Planning
end Hipscope.Decode
