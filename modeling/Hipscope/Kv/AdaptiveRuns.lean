import Mathlib.Data.List.Infix
import Mathlib.Tactic.Ring
import Hipscope.Machine.Runs
import Hipscope.Kv.Adaptive

/-! Runs of adaptive KV: no position is written past either floor-sized buffer. -/
namespace Hipscope.Kv
variable {ε : Type}

/-- No product of the sizes wraps. -/
structure NoWrap (maxSeq nKvHeads headDim : ℕ) (kFloor : KMode) (vFloor : VMode) : Prop where
  stride : headDim * 4 < 2 ^ 64
  kCap : maxSeq * kFloor.bytesPerHead headDim < 2 ^ 64
  vCap : maxSeq * vBytesPerHead headDim vFloor < 2 ^ 64
  kBuf : maxSeq * nKvHeads * kFloor.bytesPerHead headDim < 2 ^ 64
  vBuf : maxSeq * nKvHeads * vBytesPerHead headDim vFloor < 2 ^ 64

theorem KMode.bytesPerHead_pos (k : KMode) (headDim : ℕ) : 0 < k.bytesPerHead headDim := by
  cases k <;> simp only [KMode.bytesPerHead] <;> omega

section Strides
variable {headDim : ℕ} (hstride : headDim * 4 < 2 ^ 64)
include hstride

theorem KMode.bytesPerHead_eq (k : KMode) : k.bytesPerHead headDim = 4 + headDim * k.bits / 8 := by
  cases k with
  | fwht4 => simp only [KMode.bytesPerHead, KMode.bits]; omega
  | fwht3 => rw [KMode.bytesPerHead, Nat.mod_eq_of_lt (by omega), KMode.bits]
  | fwht2 => simp only [KMode.bytesPerHead, KMode.bits]; omega

theorem vBytesPerHead_eq {v : VMode} (hv : v ≠ .q8) : vBytesPerHead headDim v = 4 + headDim * v.bits / 8 := by
  cases v with
  | q8 => exact absurd rfl hv
  | lloyd2 | lloyd3 | lloyd4 =>
    rw [vBytesPerHead, Nat.mod_eq_of_lt (by simp only [VMode.bits]; omega)]
    exact hv

theorem vBytesPerHead_q8 : vBytesPerHead headDim .q8 = headDim / 32 * 34 := by
  rw [vBytesPerHead, Nat.mod_eq_of_lt (by omega)]

theorem KMode.bytesPerHead_mono {a b : KMode} (h : a.bits ≤ b.bits) : a.bytesPerHead headDim ≤ b.bytesPerHead headDim := by
  rw [bytesPerHead_eq hstride, bytesPerHead_eq hstride]
  exact Nat.add_le_add_left (Nat.div_le_div_right (Nat.mul_le_mul_left _ h)) _

theorem vBytesPerHead_pos (hdvd : 32 ∣ headDim) (hpos : 0 < headDim) (v : VMode) : 0 < vBytesPerHead headDim v := by
  by_cases hv : v = .q8
  · rw [hv, vBytesPerHead_q8 hstride]
    obtain ⟨m, rfl⟩ := hdvd
    omega
  · rw [vBytesPerHead_eq hstride hv]
    omega

end Strides

/-- The tiers after the first `i` steps. -/
def tiersAt (kFloor : KMode) (vFloor : VMode) (i : ℕ) : KMode × VMode :=
  ((balancedSteps kFloor vFloor).take i).foldl (fun tiers step => step.tiers tiers) startTiers

/-- Steps never go below the floors. -/
theorem floor_le_tiersAt (kFloor : KMode) (vFloor : VMode) (i : ℕ) :
    kFloor.bits ≤ (tiersAt kFloor vFloor i).1.bits ∧ vFloor.bits ≤ (tiersAt kFloor vFloor i).2.bits := by
  have bounded : ∀ kFloor vFloor, ∀ taken ∈ (balancedSteps kFloor vFloor).inits,
      kFloor.bits ≤ (taken.foldl (fun tiers step => Step.tiers step tiers) startTiers).1.bits ∧
        vFloor.bits ≤ (taken.foldl (fun tiers step => Step.tiers step tiers) startTiers).2.bits := by
    intro kFloor vFloor
    cases kFloor <;> cases vFloor <;> decide
  exact bounded kFloor vFloor _ ((List.mem_inits _ _).2 (List.take_prefix i _))

/-- All steps together end at the floors. -/
theorem tiersAt_length (kFloor : KMode) (vFloor : VMode) :
    tiersAt kFloor vFloor (balancedSteps kFloor vFloor).length = (kFloor, vFloor) := by
  cases kFloor <;> cases vFloor <;> rfl

/-- With a step left to take, one floor is below the start tier. -/
theorem floor_lt_start {kFloor : KMode} {vFloor : VMode} (h : 0 < (balancedSteps kFloor vFloor).length) :
    kFloor.bits < KMode.fwht4.bits ∨ vFloor.bits < VMode.q8.bits := by
  cases kFloor <;> cases vFloor <;> first | decide | exact absurd h (by decide)

theorem thresholdsFrom_getElem {cap : KMode → VMode → ℕ} {margin threshold : ℕ} {steps : List Step} :
    ∀ {tiers : KMode × VMode} {i : ℕ}, (thresholdsFrom cap margin tiers steps)[i]? = some threshold →
      threshold = cap ((steps.take i).foldl (fun t step => step.tiers t) tiers).1
        ((steps.take i).foldl (fun t step => step.tiers t) tiers).2 - margin := by
  induction steps with
  | nil => intro tiers i h; simp [thresholdsFrom] at h
  | cons st steps ih =>
    intro tiers i h
    cases i with
    | zero => simpa [thresholdsFrom, eq_comm] using h
    | succ i =>
      simp only [thresholdsFrom, List.getElem?_cons_succ] at h
      simpa using ih h

theorem length_thresholdsFrom (cap : KMode → VMode → ℕ) (margin : ℕ) (steps : List Step) :
    ∀ tiers, (thresholdsFrom cap margin tiers steps).length = steps.length := by
  induction steps with
  | nil => intro tiers; rfl
  | cons st steps ih => intro tiers; simp [thresholdsFrom, ih]

/-- The position `p` lies inside the K buffer at tier `k`. -/
def KFits (maxSeq nKvHeads headDim : ℕ) (kFloor k : KMode) (p : ℕ) : Prop :=
  (p + 1) * (nKvHeads * k.bytesPerHead headDim) ≤ kBufBytesPerLayer maxSeq nKvHeads headDim kFloor

/-- The position `p` lies inside the V buffer at tier `v`. -/
def VFits (maxSeq nKvHeads headDim : ℕ) (vFloor v : VMode) (p : ℕ) : Prop :=
  (p + 1) * (nKvHeads * vBytesPerHead headDim v) ≤ vBufBytesPerLayer maxSeq nKvHeads headDim vFloor

private theorem scaled_fits {p cap bytes floor maxSeq nKvHeads : ℕ} (hb : 0 < bytes)
    (hcap : cap ≤ maxSeq * floor / bytes) (h : p < cap) :
    (p + 1) * (nKvHeads * bytes) ≤ maxSeq * nKvHeads * floor := by
  have hfit : (p + 1) * bytes ≤ maxSeq * floor :=
    (Nat.le_div_iff_mul_le hb).1 (Nat.le_trans h hcap)
  calc (p + 1) * (nKvHeads * bytes) = nKvHeads * ((p + 1) * bytes) := by ring
    _ ≤ nKvHeads * (maxSeq * floor) := Nat.mul_le_mul_left _ hfit
    _ = maxSeq * nKvHeads * floor := by ring

section Capacity
variable {maxSeq nKvHeads headDim : ℕ} {kFloor : KMode} {vFloor : VMode}

namespace NoWrap

theorem capMin_eq (h : NoWrap maxSeq nKvHeads headDim kFloor vFloor) (k : KMode) (v : VMode) :
    capMin maxSeq headDim kFloor vFloor k v =
      min (maxSeq * kFloor.bytesPerHead headDim / k.bytesPerHead headDim)
        (maxSeq * vBytesPerHead headDim vFloor / vBytesPerHead headDim v) := by
  rw [capMin, Nat.mod_eq_of_lt h.kCap, Nat.mod_eq_of_lt h.vCap]

theorem kBuf_eq (h : NoWrap maxSeq nKvHeads headDim kFloor vFloor) :
    kBufBytesPerLayer maxSeq nKvHeads headDim kFloor = maxSeq * nKvHeads * kFloor.bytesPerHead headDim := by
  rw [kBufBytesPerLayer, Nat.mod_mul_mod, Nat.mod_eq_of_lt h.kBuf]

theorem vBuf_eq (h : NoWrap maxSeq nKvHeads headDim kFloor vFloor) :
    vBufBytesPerLayer maxSeq nKvHeads headDim vFloor = maxSeq * nKvHeads * vBytesPerHead headDim vFloor := by
  rw [vBufBytesPerLayer, Nat.mod_mul_mod, Nat.mod_eq_of_lt h.vBuf]

end NoWrap

variable (hwrap : NoWrap maxSeq nKvHeads headDim kFloor vFloor)
include hwrap

theorem kFits_of_lt_cap {k : KMode} {v : VMode} {p : ℕ}
    (h : p < capMin maxSeq headDim kFloor vFloor k v) : KFits maxSeq nKvHeads headDim kFloor k p := by
  rw [hwrap.capMin_eq] at h
  rw [KFits, hwrap.kBuf_eq]
  exact scaled_fits (k.bytesPerHead_pos headDim) (Nat.min_le_left _ _) h

theorem capMin_le {k : KMode} (v : VMode) (hk : kFloor.bits ≤ k.bits) :
    capMin maxSeq headDim kFloor vFloor k v ≤ maxSeq := by
  rw [hwrap.capMin_eq]
  refine (Nat.min_le_left _ _).trans (Nat.div_le_of_le_mul ?_)
  rw [Nat.mul_comm _ maxSeq]
  exact Nat.mul_le_mul_left _ (KMode.bytesPerHead_mono hwrap.stride hk)

variable (hdvd : 32 ∣ headDim) (hpos : 0 < headDim)
include hdvd hpos

theorem vFits_of_lt_cap {k : KMode} {v : VMode} {p : ℕ}
    (h : p < capMin maxSeq headDim kFloor vFloor k v) : VFits maxSeq nKvHeads headDim vFloor v p := by
  rw [hwrap.capMin_eq] at h
  rw [VFits, hwrap.vBuf_eq]
  exact scaled_fits (vBytesPerHead_pos hwrap.stride hdvd hpos v) (Nat.min_le_right _ _) h

/-- At the floors the buffers hold every position. -/
theorem capMin_floor : capMin maxSeq headDim kFloor vFloor kFloor vFloor = maxSeq := by
  rw [hwrap.capMin_eq, Nat.mul_div_cancel _ (kFloor.bytesPerHead_pos headDim),
    Nat.mul_div_cancel _ (vBytesPerHead_pos hwrap.stride hdvd hpos vFloor), Nat.min_self]

/-- With a step left to take, the start tiers hold fewer positions than the context. -/
theorem startCap_lt (hsteps : 0 < (balancedSteps kFloor vFloor).length) (hmax : 0 < maxSeq) :
    capMin maxSeq headDim kFloor vFloor .fwht4 .q8 < maxSeq := by
  rw [hwrap.capMin_eq]
  rcases floor_lt_start hsteps with hk | hv
  · refine Nat.lt_of_le_of_lt (Nat.min_le_left _ _) (Nat.div_lt_of_lt_mul ?_)
    rw [Nat.mul_comm _ maxSeq, KMode.bytesPerHead_eq hwrap.stride, KMode.bytesPerHead_eq hwrap.stride]
    refine Nat.mul_lt_mul_of_pos_left ?_ hmax
    cases kFloor <;> simp only [KMode.bits] at hk ⊢ <;> omega
  · refine Nat.lt_of_le_of_lt (Nat.min_le_right _ _) (Nat.div_lt_of_lt_mul ?_)
    rw [Nat.mul_comm _ maxSeq, vBytesPerHead_q8 hwrap.stride, vBytesPerHead_eq hwrap.stride (by rintro rfl; omega)]
    refine Nat.mul_lt_mul_of_pos_left ?_ hmax
    obtain ⟨m, rfl⟩ := hdvd
    cases vFloor <;> simp only [VMode.bits] at hv ⊢ <;> omega

end Capacity

/-- One batch of positions written at the tiers of that time. -/
structure Write where
  start : ℕ
  count : ℕ
  k : KMode
  v : VMode
  deriving DecidableEq, Repr

/-- A controller with the position it is driven to; `fresh` until the first advance
after the load or a reset. -/
structure Session (ε : Type) where
  ad : KvAdaptive ε
  seqPos : ℕ
  fresh : Bool

inductive Call (ε : Type)
  | advance (count : ℕ) (transcode : Step → ℕ → Except ε Unit)
  | reset

namespace Session

/-- The load path: a new controller, with a handoff position when eviction is configured. -/
def load (maxSeq nKvHeads headDim : ℕ) (kFloor : KMode) (vFloor : VMode) (handoff : Option ℕ) : Session ε :=
  let ad := KvAdaptive.new maxSeq nKvHeads headDim kFloor vFloor
  { ad := match handoff with
      | none => ad
      | some position => ad.configureEvictionHandoff position
    seqPos := 0
    fresh := true }

/-- An advance writes its batch and then downshifts; a failed transcode ends the run. -/
def step (s : Session ε) : Call ε → Option (Session ε × List Write)
  | .advance count transcode =>
    match s.ad.maybeDownshift transcode (s.seqPos + count) with
    | (.ok _, ad) => some (⟨ad, s.seqPos + count, false⟩, [⟨s.seqPos, count, s.ad.curK, s.ad.curV⟩])
    | (.error _, _) => none
  | .reset => some (⟨s.ad.reset, 0, true⟩, [])

/-- What the callers of the controller keep to. -/
def Admitted (s : Session ε) : Call ε → Prop
  | .advance count _ => count ≤ prefillMaxBatch ∧ s.seqPos + count ≤ s.ad.maxSeq ∧
      (s.fresh → count ≤ s.ad.currentCap)
  | .reset => True

instance (s : Session ε) : (call : Call ε) → Decidable (s.Admitted call)
  | .advance count _ => inferInstanceAs
      (Decidable (count ≤ prefillMaxBatch ∧ s.seqPos + count ≤ s.ad.maxSeq ∧
        (s.fresh → count ≤ s.ad.currentCap)))
  | .reset => inferInstanceAs (Decidable True)

end Session

theorem KvAdaptive.applySteps_ok {transcode : Step → ℕ → Except ε Unit} {seqPos : ℕ} {pending : List Step} :
    ∀ {ad after : KvAdaptive ε} {applied : List Step},
      applySteps transcode seqPos pending ad = (.ok applied, after) →
      after = { ad with
        curK := (pending.foldl (fun tiers step => step.tiers tiers) (ad.curK, ad.curV)).1
        curV := (pending.foldl (fun tiers step => step.tiers tiers) (ad.curK, ad.curV)).2
        nextStep := ad.nextStep + pending.length } := by
  induction pending with
  | nil =>
    intro ad after applied h
    simp only [applySteps, Prod.mk.injEq] at h
    simp [h.2]
  | cons step pending ih =>
    intro ad after applied h
    simp only [applySteps] at h
    cases htranscode : transcode step seqPos with
    | error err => simp [htranscode] at h
    | ok done =>
      simp only [htranscode, Prod.mk.injEq] at h
      cases hrest : (applySteps transcode seqPos pending (ad.shift step)).1 with
      | error err => simp [hrest, Except.map] at h
      | ok rest =>
        have := ih (Prod.ext hrest h.2)
        rw [this]
        simp [shift, Nat.add_assoc, Nat.add_comm 1]

theorem KvAdaptive.maybeDownshift_ok {transcode : Step → ℕ → Except ε Unit} {seqPos : ℕ}
    {ad after : KvAdaptive ε} {applied : List Step}
    (h : ad.maybeDownshift transcode seqPos = (.ok applied, after)) :
    let pending := (ad.steps.take (ad.targetStepCount seqPos)).drop ad.nextStep
    after = { ad with
      curK := (pending.foldl (fun tiers step => step.tiers tiers) (ad.curK, ad.curV)).1
      curV := (pending.foldl (fun tiers step => step.tiers tiers) (ad.curK, ad.curV)).2
      nextStep := ad.nextStep + pending.length
      evictionReady := if ad.handoffCrossed seqPos then ad.evictionReady.map fun _ => true
        else ad.evictionReady } := by
  intro pending
  unfold maybeDownshift at h
  by_cases hpoisoned : ad.poisoned
  · rw [if_pos hpoisoned] at h
    cases h
  · rw [if_neg hpoisoned] at h
    rcases hsteps : applySteps transcode seqPos pending ad with ⟨result, mid⟩
    cases result with
    | error err => simp [pending, hsteps] at h
    | ok done =>
      simp only [pending, hsteps, Prod.mk.injEq] at h
      rw [← h.2, applySteps_ok hsteps]

/-- How many thresholds in a row a position has crossed. -/
def crossed (thresholds : List ℕ) (seqPos : ℕ) : ℕ := (thresholds.takeWhile (· ≤ seqPos)).length

theorem crossed_mono {thresholds : List ℕ} {p q : ℕ} (h : p ≤ q) :
    crossed thresholds p ≤ crossed thresholds q := by
  induction thresholds with
  | nil => exact Nat.le_refl _
  | cons t thresholds ih =>
    simp only [crossed, List.takeWhile_cons, decide_eq_true_eq] at ih ⊢
    by_cases hp : t ≤ p
    · simp only [hp, hp.trans h, if_true, List.length_cons]
      omega
    · simp [hp]

theorem crossed_le_length (thresholds : List ℕ) (p : ℕ) : crossed thresholds p ≤ thresholds.length :=
  (List.takeWhile_prefix _).length_le

/-- The first threshold not counted lies above the position. -/
theorem lt_of_crossed {thresholds : List ℕ} {p t : ℕ} (h : thresholds[crossed thresholds p]? = some t) :
    p < t := by
  induction thresholds with
  | nil => simp at h
  | cons first thresholds ih =>
    simp only [crossed, List.takeWhile_cons, decide_eq_true_eq] at ih h
    by_cases hp : first ≤ p
    · simp only [hp, if_true, List.length_cons, List.getElem?_cons_succ] at h
      exact ih h
    · simp only [hp, if_false, List.length_nil, List.getElem?_cons_zero, Option.some.injEq] at h
      omega

theorem foldl_pending {α β : Type*} (f : β → α → β) (start : β) (steps : List α) (next target : ℕ) :
    ((steps.take target).drop next).foldl f ((steps.take next).foldl f start) =
      (steps.take (max next target)).foldl f start := by
  rcases Nat.le_total next target with h | h
  · rw [Nat.max_eq_right h, ← List.foldl_append]
    congr 1
    rw [← Nat.min_eq_left h, ← List.take_take, Nat.min_eq_left h]
    exact List.take_append_drop next _
  · rw [Nat.max_eq_left h, List.drop_eq_nil_of_le ((List.length_take_le _ _).trans h)]
    rfl

/-- What holds of a session at every moment of a run. -/
structure Placed (maxSeq headDim : ℕ) (kFloor : KMode) (vFloor : VMode) (s : Session ε) : Prop where
  sizes : s.ad.maxSeq = maxSeq ∧ s.ad.headDim = headDim ∧ s.ad.kFloor = kFloor ∧ s.ad.vFloor = vFloor
  steps : s.ad.steps = balancedSteps kFloor vFloor
  thresholds : s.ad.thresholds = thresholdsFrom (capMin maxSeq headDim kFloor vFloor) prefillMaxBatch
    startTiers (balancedSteps kFloor vFloor)
  tiers : (s.ad.curK, s.ad.curV) = tiersAt kFloor vFloor s.ad.nextStep
  index : s.ad.nextStep ≤ (balancedSteps kFloor vFloor).length
  first : s.fresh → s.seqPos = 0 ∧ s.ad.nextStep = 0
  /-- Steps run ahead of the position only when all were taken. -/
  behind : s.ad.nextStep = (balancedSteps kFloor vFloor).length ∨
    s.ad.nextStep ≤ crossed s.ad.thresholds s.seqPos
  /-- After a downshift the next threshold is still ahead. -/
  ahead : ¬ s.fresh → ∀ threshold, s.ad.thresholds[s.ad.nextStep]? = some threshold → s.seqPos < threshold
  gate : s.ad.evictionReady = some true → s.ad.nextStep = (balancedSteps kFloor vFloor).length

namespace Placed
variable {maxSeq nKvHeads headDim : ℕ} {kFloor : KMode} {vFloor : VMode} {s : Session ε}

theorem load (maxSeq nKvHeads headDim : ℕ) (kFloor : KMode) (vFloor : VMode) (handoff : Option ℕ) :
    Placed maxSeq headDim kFloor vFloor
      (Session.load maxSeq nKvHeads headDim kFloor vFloor handoff : Session ε) := by
  cases handoff <;> exact ⟨⟨rfl, rfl, rfl, rfl⟩, rfl, rfl, rfl, Nat.zero_le _, fun _ => ⟨rfl, rfl⟩,
    .inr (Nat.zero_le _), fun h => absurd rfl h, by intro h; cases h⟩

theorem length_thresholds (h : Placed maxSeq headDim kFloor vFloor s) :
    s.ad.thresholds.length = (balancedSteps kFloor vFloor).length := by
  rw [h.thresholds, length_thresholdsFrom]

theorem reset (h : Placed maxSeq headDim kFloor vFloor s) :
    Placed maxSeq headDim kFloor vFloor (⟨s.ad.reset, 0, true⟩ : Session ε) where
  sizes := h.sizes
  steps := h.steps
  thresholds := h.thresholds
  tiers := rfl
  index := Nat.zero_le _
  first _ := ⟨rfl, rfl⟩
  behind := .inr (Nat.zero_le _)
  ahead hfresh := absurd rfl hfresh
  gate hready := by
    simp only [KvAdaptive.reset, Option.map_eq_some_iff] at hready
    obtain ⟨_, _, hfalse⟩ := hready
    cases hfalse

theorem target_le (h : Placed maxSeq headDim kFloor vFloor s) (seqPos : ℕ) :
    s.ad.targetStepCount seqPos ≤ (balancedSteps kFloor vFloor).length := by
  unfold KvAdaptive.targetStepCount
  split
  · rw [h.steps]
  · exact (crossed_le_length _ _).trans_eq h.length_thresholds

/-- A downshift leaves the step index at the target, unless all steps were taken before. -/
theorem next_le_target (h : Placed maxSeq headDim kFloor vFloor s) {seqPos : ℕ} (hpos : s.seqPos ≤ seqPos) :
    s.ad.nextStep = (balancedSteps kFloor vFloor).length ∨ s.ad.nextStep ≤ s.ad.targetStepCount seqPos := by
  unfold KvAdaptive.targetStepCount
  rcases h.behind with hall | hbehind
  · exact .inl hall
  · split
    · exact .inr (h.steps ▸ h.index)
    · exact .inr (hbehind.trans (crossed_mono hpos))

theorem downshift {transcode : Step → ℕ → Except ε Unit} {seqPos : ℕ} {applied : List Step}
    {after : KvAdaptive ε} (h : Placed maxSeq headDim kFloor vFloor s) (hpos : s.seqPos ≤ seqPos)
    (hok : s.ad.maybeDownshift transcode seqPos = (.ok applied, after)) :
    Placed maxSeq headDim kFloor vFloor (⟨after, seqPos, false⟩ : Session ε) := by
  have hafter := KvAdaptive.maybeDownshift_ok hok
  have hle := h.target_le seqPos
  have hindex := h.index
  have hnext : after.nextStep = max s.ad.nextStep (s.ad.targetStepCount seqPos) := by
    rw [hafter]
    simp only [List.length_drop, List.length_take, h.steps]
    omega
  have hthresholds : after.thresholds = s.ad.thresholds := by rw [hafter]
  refine ⟨?_, ?_, ?_, ?_, ?_, ?_, ?_, ?_, ?_⟩
  · rw [hafter]; exact h.sizes
  · rw [hafter]; exact h.steps
  · rw [hafter]; exact h.thresholds
  · change (after.curK, after.curV) = tiersAt kFloor vFloor after.nextStep
    rw [hnext, tiersAt, ← foldl_pending]
    rw [hafter]
    simp only [h.tiers, h.steps, Prod.mk.eta]
    rfl
  · change after.nextStep ≤ _
    rw [hnext]
    exact Nat.max_le.2 ⟨hindex, hle⟩
  · intro hfresh
    cases hfresh
  · change after.nextStep = _ ∨ after.nextStep ≤ crossed after.thresholds seqPos
    rw [hnext, hthresholds]
    rcases h.next_le_target hpos with hall | hnextle
    · exact .inl (by omega)
    · rw [Nat.max_eq_right hnextle]
      unfold KvAdaptive.targetStepCount
      split
      · exact .inl (by rw [h.steps])
      · exact .inr (Nat.le_refl _)
  · intro _ threshold hget
    change seqPos < threshold
    change after.thresholds[after.nextStep]? = some threshold at hget
    rw [hnext, hthresholds] at hget
    have hlt : max s.ad.nextStep (s.ad.targetStepCount seqPos) < (balancedSteps kFloor vFloor).length := by
      rw [← h.length_thresholds]
      exact (List.getElem?_eq_some_iff.1 hget).1
    rcases h.next_le_target hpos with hall | hnextle
    · omega
    · rw [Nat.max_eq_right hnextle] at hget hlt
      unfold KvAdaptive.targetStepCount at hget hlt
      split at hget
      · rename_i hcrossed
        simp [hcrossed, h.steps] at hlt
      · exact lt_of_crossed hget
  · change after.evictionReady = some true → after.nextStep = _
    rw [hnext, hafter]
    intro hready
    by_cases hcrossed : s.ad.handoffCrossed seqPos
    · simp only [KvAdaptive.targetStepCount, hcrossed, if_true, h.steps]
      omega
    · simp only [hcrossed, Bool.false_eq_true, if_false] at hready
      have := h.gate hready
      omega

/-- With a step left after a downshift, a whole batch still fits at the current tiers. -/
theorem batch_lt_cap (h : Placed maxSeq headDim kFloor vFloor s) (hfresh : ¬ s.fresh)
    (hleft : s.ad.nextStep < (balancedSteps kFloor vFloor).length) :
    s.seqPos + prefillMaxBatch < capMin maxSeq headDim kFloor vFloor s.ad.curK s.ad.curV := by
  have hget := List.getElem?_eq_getElem (l := s.ad.thresholds) (h.length_thresholds ▸ hleft)
  have hahead := h.ahead hfresh _ hget
  have hvalue := thresholdsFrom_getElem ((congrArg (·[s.ad.nextStep]?) h.thresholds).symm.trans hget)
  have htiers := h.tiers
  simp only [tiersAt] at htiers
  simp only [← htiers] at hvalue
  omega

theorem cap_le (h : Placed maxSeq headDim kFloor vFloor s) (hwrap : NoWrap maxSeq nKvHeads headDim kFloor vFloor) :
    capMin maxSeq headDim kFloor vFloor s.ad.curK s.ad.curV ≤ maxSeq := by
  apply capMin_le hwrap
  rw [(Prod.mk.inj h.tiers).1]
  exact (floor_le_tiersAt kFloor vFloor _).1

theorem floors_of_all (h : Placed maxSeq headDim kFloor vFloor s)
    (hall : s.ad.nextStep = (balancedSteps kFloor vFloor).length) :
    s.ad.curK = kFloor ∧ s.ad.curV = vFloor := by
  have htiers := h.tiers
  rw [hall, tiersAt_length] at htiers
  exact Prod.mk.inj htiers

/-- The next advance stays below what the buffers hold, at the tiers it is written with. -/
theorem room (h : Placed maxSeq headDim kFloor vFloor s) (hwrap : NoWrap maxSeq nKvHeads headDim kFloor vFloor)
    (hdvd : 32 ∣ headDim) (hpos : 0 < headDim) {count : ℕ} (hcount : count ≤ prefillMaxBatch)
    (hmax : s.seqPos + count ≤ maxSeq)
    (hfirst : s.fresh → count ≤ s.ad.currentCap) :
    s.seqPos + count ≤ capMin maxSeq headDim kFloor vFloor s.ad.curK s.ad.curV := by
  obtain ⟨hm, hd, hk, hv⟩ := h.sizes
  by_cases hfresh : s.fresh
  · have hcap := hfirst hfresh
    rw [KvAdaptive.currentCap, hm, hd, hk, hv] at hcap
    rw [(h.first hfresh).1]
    omega
  · rcases Nat.lt_or_ge s.ad.nextStep (balancedSteps kFloor vFloor).length with hlt | hge
    · have := h.batch_lt_cap hfresh hlt
      omega
    · obtain ⟨hcurK, hcurV⟩ := h.floors_of_all (Nat.le_antisymm h.index hge)
      rw [hcurK, hcurV, capMin_floor hwrap hdvd hpos]
      exact hmax

/-- While a step is left, an advance stops short of the last position. -/
theorem short_of_max (h : Placed maxSeq headDim kFloor vFloor s)
    (hwrap : NoWrap maxSeq nKvHeads headDim kFloor vFloor) (hdvd : 32 ∣ headDim) (hpos : 0 < headDim)
    (hleft : s.ad.nextStep < (balancedSteps kFloor vFloor).length) (hmax : 0 < maxSeq)
    {count : ℕ} (hcount : count ≤ prefillMaxBatch) (hfirst : s.fresh → count ≤ s.ad.currentCap) :
    s.seqPos + count < maxSeq := by
  obtain ⟨hm, hd, hk, hv⟩ := h.sizes
  by_cases hfresh : s.fresh
  · obtain ⟨hzero, hnext⟩ := h.first hfresh
    have hcap := hfirst hfresh
    have htiers := h.tiers
    rw [hnext] at htiers
    obtain ⟨hcurK, hcurV⟩ := Prod.mk.inj htiers
    rw [KvAdaptive.currentCap, hm, hd, hk, hv, hcurK, hcurV] at hcap
    rw [hzero, Nat.zero_add]
    exact hcap.trans_lt (startCap_lt hwrap hdvd hpos (Nat.zero_lt_of_lt hleft) hmax)
  · have hbatch := h.batch_lt_cap hfresh hleft
    have hcap := h.cap_le hwrap
    omega

/-- The batch that takes the last position is written at the floors. -/
theorem at_floors (h : Placed maxSeq headDim kFloor vFloor s)
    (hwrap : NoWrap maxSeq nKvHeads headDim kFloor vFloor) (hdvd : 32 ∣ headDim) (hpos : 0 < headDim)
    {count : ℕ} (hcount : count ≤ prefillMaxBatch) (hfirst : s.fresh → count ≤ s.ad.currentCap)
    (hmax : 0 < maxSeq) (hlast : s.seqPos + count = maxSeq) :
    s.ad.curK = kFloor ∧ s.ad.curV = vFloor := by
  rcases Nat.lt_or_ge s.ad.nextStep (balancedSteps kFloor vFloor).length with hlt | hge
  · have := h.short_of_max hwrap hdvd hpos hlt hmax hcount hfirst
    omega
  · exact h.floors_of_all (Nat.le_antisymm h.index hge)

end Placed

/-- Every position of the batch lies inside both buffers at the tiers it was written
with, and the last position of the context is only written at the floors. -/
def Write.Contained (maxSeq nKvHeads headDim : ℕ) (kFloor : KMode) (vFloor : VMode) (w : Write) : Prop :=
  ∀ p, w.start ≤ p → p < w.start + w.count →
    KFits maxSeq nKvHeads headDim kFloor w.k p ∧ VFits maxSeq nKvHeads headDim vFloor w.v p ∧
      (p + 1 = maxSeq → w.k = kFloor ∧ w.v = vFloor)

theorem Placed.step {maxSeq nKvHeads headDim : ℕ} {kFloor : KMode} {vFloor : VMode} {s next : Session ε}
    (hwrap : NoWrap maxSeq nKvHeads headDim kFloor vFloor) (hdvd : 32 ∣ headDim) (hpos : 0 < headDim)
    (h : Placed maxSeq headDim kFloor vFloor s) {call : Call ε}
    {writes : List Write} (hadmitted : s.Admitted call) (hstep : s.step call = some (next, writes)) :
    Placed maxSeq headDim kFloor vFloor next ∧
      ∀ w ∈ writes, w.Contained maxSeq nKvHeads headDim kFloor vFloor := by
  cases call with
  | reset =>
    simp only [Session.step, Option.some.injEq, Prod.mk.injEq] at hstep
    obtain ⟨rfl, rfl⟩ := hstep
    exact ⟨h.reset, by simp⟩
  | advance count transcode =>
    obtain ⟨hcount, hmax, hfirst⟩ := hadmitted
    rw [h.sizes.1] at hmax
    rcases hdown : s.ad.maybeDownshift transcode (s.seqPos + count) with ⟨result, after⟩
    cases result with
    | error err => simp [Session.step, hdown] at hstep
    | ok applied =>
      simp only [Session.step, hdown, Option.some.injEq, Prod.mk.injEq] at hstep
      obtain ⟨rfl, rfl⟩ := hstep
      refine ⟨h.downshift (Nat.le_add_right _ _) hdown, ?_⟩
      intro w hw
      obtain rfl := List.mem_singleton.1 hw
      intro p hstart hend
      have hroom := Nat.lt_of_lt_of_le hend (h.room hwrap hdvd hpos hcount hmax hfirst)
      refine ⟨kFits_of_lt_cap hwrap hroom, vFits_of_lt_cap hwrap hdvd hpos hroom, fun hlast => ?_⟩
      have hwrites : s.seqPos + count = maxSeq := by
        simp only at hend
        omega
      exact h.at_floors hwrap hdvd hpos hcount hfirst (by omega) hwrites

/-- Where no size wraps, no run of advances and resets writes past a floor-sized buffer, the tiers are the
floors before the context is full, and the eviction gate opens after the last step. -/
theorem writes_contained {maxSeq nKvHeads headDim : ℕ} {kFloor : KMode} {vFloor : VMode}
    {handoff : Option ℕ} (hdvd : 32 ∣ headDim) (hpos : 0 < headDim)
    (hwrap : NoWrap maxSeq nKvHeads headDim kFloor vFloor) {calls : List (Call ε)} {writes : List Write} {s : Session ε}
    (h : Machine.Runs Session.step Session.Admitted
      (Session.load maxSeq nKvHeads headDim kFloor vFloor handoff) calls writes s) :
    (∀ w ∈ writes, w.Contained maxSeq nKvHeads headDim kFloor vFloor) ∧
      (s.fresh = false → s.seqPos = maxSeq → s.ad.curK = kFloor ∧ s.ad.curV = vFloor) ∧
      (s.ad.handoffComplete = true →
        s.ad.nextStep = s.ad.steps.length ∧ s.ad.curK = kFloor ∧ s.ad.curV = vFloor) := by
  obtain ⟨hplaced, hwrites⟩ := h.invariant
    (P := fun writes s => Placed maxSeq headDim kFloor vFloor s ∧
      ∀ w ∈ writes, w.Contained maxSeq nKvHeads headDim kFloor vFloor)
    ⟨Placed.load maxSeq nKvHeads headDim kFloor vFloor handoff, by simp⟩ (by
      intro writes s call next emitted ⟨hplaced, hwrites⟩ hadmitted hstep
      obtain ⟨hnext, hemitted⟩ := hplaced.step hwrap hdvd hpos hadmitted hstep
      exact ⟨hnext, List.forall_mem_append.2 ⟨hwrites, hemitted⟩⟩)
  refine ⟨hwrites, ?_, ?_⟩
  · intro hfresh hend
    rcases Nat.lt_or_ge s.ad.nextStep (balancedSteps kFloor vFloor).length with hlt | hge
    · have hbatch := hplaced.batch_lt_cap (by simp [hfresh]) hlt
      have hcap := hplaced.cap_le hwrap
      omega
    · exact hplaced.floors_of_all (Nat.le_antisymm hplaced.index hge)
  · intro hready
    have hall : s.ad.nextStep = (balancedSteps kFloor vFloor).length := by
      apply hplaced.gate
      cases hgate : s.ad.evictionReady with
      | none => simp [KvAdaptive.handoffComplete, hgate] at hready
      | some open_ => simpa [KvAdaptive.handoffComplete, hgate] using hready
    exact ⟨by rw [hall, hplaced.steps], hplaced.floors_of_all hall⟩

/-- Two full batches of a 1024-position context, with a handoff between them. -/
theorem writes_contained_two_batches :
    ∃ writes s, Machine.Runs Session.step Session.Admitted
        (Session.load 1024 2 32 .fwht2 .lloyd2 (some 300) : Session Unit)
        ([] ++ [.advance 256 fun _ _ => .ok ()] ++ [.advance 256 fun _ _ => .ok ()]) writes s ∧
      (∀ w ∈ writes, w.Contained 1024 2 32 .fwht2 .lloyd2) ∧ s.ad.handoffComplete = true := by
  have hrun : ∃ writes s, Machine.Runs Session.step Session.Admitted
      (Session.load 1024 2 32 .fwht2 .lloyd2 (some 300) : Session Unit)
      ([] ++ [.advance 256 fun _ _ => .ok ()] ++ [.advance 256 fun _ _ => .ok ()]) writes s ∧
      s.ad.handoffComplete = true :=
    ⟨_, _, (Machine.Runs.nil.snoc (by decide) rfl).snoc (by decide) rfl, rfl⟩
  obtain ⟨writes, s, hrun, hready⟩ := hrun
  exact ⟨writes, s, hrun,
    (writes_contained (by decide) (by decide) ⟨by decide, by decide, by decide, by decide, by decide⟩ hrun).1, hready⟩

/-- The K buffer of a context of `2 ^ 58` positions wraps to no byte, while its tiers seem to hold far more than a batch. -/
theorem wrapped_buffer_overflows :
    ∃ writes s, Machine.Runs Session.step Session.Admitted
        (Session.load (2 ^ 58) 16 256 .fwht2 .lloyd2 none : Session Unit)
        ([] ++ [.advance 256 fun _ _ => .ok ()]) writes s ∧
      prefillMaxBatch ≤ capMin (2 ^ 58) 256 .fwht2 .lloyd2 .fwht4 .q8 ∧
      kBufBytesPerLayer (2 ^ 58) 16 256 .fwht2 = 0 ∧
      ∃ w ∈ writes, ¬ w.Contained (2 ^ 58) 16 256 .fwht2 .lloyd2 := by
  have hrun : ∃ writes s, Machine.Runs Session.step Session.Admitted
      (Session.load (2 ^ 58) 16 256 .fwht2 .lloyd2 none : Session Unit)
      ([] ++ [.advance 256 fun _ _ => .ok ()]) writes s ∧ ⟨0, 256, .fwht4, .q8⟩ ∈ writes :=
    ⟨_, _, Machine.Runs.nil.snoc (by decide) rfl, List.mem_singleton_self _⟩
  obtain ⟨writes, s, hrun, hmem⟩ := hrun
  refine ⟨writes, s, hrun, by decide, by decide, _, hmem, fun h => ?_⟩
  exact absurd (h 0 (Nat.le_refl 0) (by decide)).1 (by unfold KFits; decide)

end Hipscope.Kv
