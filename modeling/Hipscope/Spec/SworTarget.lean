import Hipscope.Spec.Swor

/-! What a position emits under speculative sampling without replacement. -/
namespace Hipscope.Spec
open Chance
open scoped ENNReal

/-- A probability distribution over the vocabulary. -/
structure Distribution {n : ℕ} (p : Fin n → ℝ) : Prop where
  nonneg : ∀ t, 0 ≤ p t
  total : ∑ t, p t = 1

/-- Results that emit the token. -/
def emits {n : ℕ} (t : Fin n) : Set (Option Token × Token) := {r | r.2.toNat = t.val}

variable {n : ℕ}

section Sampling
variable {p : Fin n → ℝ}

private theorem toNat_token (hn : n ≤ 2 ^ 32) (i : Fin n) : (UInt32.ofNat i.val).toNat = i.val := by
  have := i.isLt
  rw [UInt32.toNat_ofNat']
  omega

private theorem indicator_token (hn : n ≤ 2 ^ 32) (t i : Fin n) (o : Option Token) :
    (emits t).indicator (1 : Option Token × Token → ℝ≥0∞) (o, UInt32.ofNat i.val) = if i = t then 1 else 0 := by
  have hmem : (o, UInt32.ofNat i.val) ∈ emits t ↔ i = t := by
    change (UInt32.ofNat i.val).toNat = t.val ↔ i = t
    rw [toNat_token hn, Fin.val_inj]
  by_cases hi : i = t
  · rw [Set.indicator_of_mem (hmem.2 hi), if_pos hi, Pi.one_apply]
  · rw [Set.indicator_of_notMem (fun h => hi (hmem.1 h)), if_neg hi]

private theorem sum_finRange (f : Fin n → ℝ≥0∞) : ((List.finRange n).map f).sum = ∑ i, f i := by
  rw [← List.sum_toFinset f (List.nodup_finRange n), List.toFinset_finRange]

private theorem sum_filter_finRange {M : Type} [AddCommMonoid M] (P : Fin n → Prop) [DecidablePred P]
    (f : Fin n → M) : (((List.finRange n).filter P).map f).sum = ∑ i, if P i then f i else 0 := by
  rw [← List.sum_toFinset f ((List.nodup_finRange n).filter _), List.toFinset_filter, List.toFinset_finRange,
    Finset.sum_filter]
  simp

/-- A sample of a distribution is a token with the token's probability. -/
theorem prob_sample (hn : n ≤ 2 ^ 32) (hp : Distribution p) (t : Fin n) :
    (Draws.number >>= fun u => pure ((none : Option Token), sampleUnnormalized p u) : Draws ℝ _).prob (emits t) =
      ENNReal.ofReal (p t) := by
  have hpos : ∀ i, (if 0 < p i then p i else 0) = p i := by
    intro i
    split_ifs with h
    · rfl
    · exact (le_antisymm (not_lt.1 h) (hp.nonneg i)).symm
  have hsum : ∑ i, (if 0 < p i then p i else 0) = 1 := by
    rw [Finset.sum_congr rfl fun i _ => hpos i, hp.total]
  have hlist : (((List.finRange n).filter fun i => 0 < p i).map p).sum = 1 := by
    rw [sum_filter_finRange, hsum]
  have hsample : ∀ u : ℝ, sampleUnnormalized p u = UInt32.ofNat
      (((scanFrom p (u * 1) 0 ((List.finRange n).filter fun i => 0 < p i)).map Fin.val).getD (n - 1)) := by
    intro u
    unfold sampleUnnormalized
    rw [hsum]
    exact if_neg (by norm_num)
  unfold Draws.prob
  rw [Draws.number_bind]
  simp only [hsample]
  rw [Draws.expect_scan one_pos (fun i _ => hp.nonneg i) hlist fun o =>
    pure ((none : Option Token), UInt32.ofNat ((o.map Fin.val).getD (n - 1)))]
  simp only [Draws.expect_pure, Option.map_some, Option.getD_some, indicator_token hn, div_one]
  rw [sum_filter_finRange, Finset.sum_eq_single t]
  · by_cases ht : 0 < p t
    · rw [if_pos ht, if_pos rfl, mul_one]
    · rw [if_neg ht, ENNReal.ofReal_of_nonpos (not_lt.1 ht)]
  · intro i _ hne
    rw [if_neg hne, mul_zero, ite_self]
  · exact fun h => absurd (Finset.mem_univ t) h

end Sampling

section Verification
variable {p q : Fin n → ℝ} {z dq : ℝ} {drawn cands : List Token} {f : Option Token × Token → ℝ≥0∞}

/-- The chance that a candidate is accepted. -/
noncomputable def acceptance (p q : Fin n → ℝ) (z : ℝ) (c : Fin n) : ℝ :=
  if 0 < min (max (q c / z) 0) 1 then min (p c / min (max (q c / z) 0) 1) 1 else 0

private theorem acceptance_nonneg (hp : Distribution p) (c : Fin n) : 0 ≤ acceptance p q z c := by
  unfold acceptance
  split_ifs with h
  · exact le_min (div_nonneg (hp.nonneg c) h.le) zero_le_one
  · exact le_rfl

private theorem acceptance_le_one (c : Fin n) : acceptance p q z c ≤ 1 := by
  unfold acceptance
  split_ifs
  · exact min_le_right _ _
  · exact zero_le_one

private theorem acceptance_zero {c : Fin n} (h : p c = 0) : acceptance p q z c = 0 := by
  unfold acceptance
  rw [h, zero_div, min_eq_left zero_le_one, ite_self]

/-- One candidate: accepted with its chance, or else the verification goes on with the residual target. -/
private theorem expect_verify (hn : n ≤ 2 ^ 32) (hp : Distribution p) (c : Fin n) :
    (sworStepFrom q p drawn dq (UInt32.ofNat c.val :: cands)).expect f =
      ENNReal.ofReal (acceptance p q (max (1 - dq) (1 / 1000000000)) c) *
          f (some (UInt32.ofNat c.val), UInt32.ofNat c.val) +
        ENNReal.ofReal (1 - acceptance p q (max (1 - dq) (1 / 1000000000)) c) *
          (sworStepFrom q (residualTarget p q (max (1 - dq) (1 / 1000000000)) drawn)
            (drawn ++ [UInt32.ofNat c.val]) (dq + q c) cands).expect f := by
  have hlt : (UInt32.ofNat c.val).toNat < n := by
    rw [toNat_token hn]
    exact c.isLt
  have hct : (⟨(UInt32.ofNat c.val).toNat, hlt⟩ : Fin n) = c := Fin.ext (toNat_token hn c)
  rw [sworStepFrom, dif_pos hlt]
  simp only [hct, Draws.number_bind]
  change Draws.expect f
    (.draw fun u => if 0 < p c ∧ u < acceptance p q (max (1 - dq) (1 / 1000000000)) c then _ else _) = _
  rcases (hp.nonneg c).lt_or_eq with hpos | hzero
  · simp only [hpos, true_and]
    rw [Draws.expect_chance (acceptance_nonneg hp c) (acceptance_le_one c)]
    rfl
  · have hout : ¬ 0 < p c := hzero ▸ lt_irrefl 0
    simp only [hout, false_and, if_false]
    rw [acceptance_zero hzero.symm, ENNReal.ofReal_zero, zero_mul, zero_add, sub_zero, ENNReal.ofReal_one, one_mul,
      Draws.expect_draw, MeasureTheory.lintegral_const, MeasureTheory.measure_univ, mul_one]

end Verification

section Residual
variable {p q share : Fin n → ℝ} {m : ℝ} {drawn : List Token} {c t : Fin n}

/-- The token has been drawn. -/
def Drawn (drawn : List Token) (t : Fin n) : Prop := ∃ d ∈ drawn, d.toNat = t.val

private theorem any_drawn (t : Fin n) : (drawn.any fun d => d.toNat = t.val) = true ↔ Drawn drawn t := by
  rw [List.any_eq_true]
  simp only [decide_eq_true_eq]
  rfl

/-- The target mass that the draft does not cover. -/
noncomputable def uncovered (p share : Fin n → ℝ) (t : Fin n) : ℝ := p t - min (p t) (share t)

/-- What the next draw may give: nothing drawn before, the rest in proportion to the draft. -/
structure Shares (q : Fin n → ℝ) (m : ℝ) (drawn : List Token) (share : Fin n → ℝ) : Prop where
  dist : Distribution share
  gone : ∀ t, Drawn drawn t → share t = 0
  fresh : ∀ t, ¬ Drawn drawn t → share t = q t / m

private theorem uncovered_nonneg (t : Fin n) : 0 ≤ uncovered p share t := sub_nonneg.2 (min_le_left _ _)

private theorem sum_uncovered (hp : Distribution p) : ∑ t, uncovered p share t = 1 - ∑ t, min (p t) (share t) := by
  unfold uncovered
  rw [Finset.sum_sub_distrib, hp.total]

private theorem residualTarget_eq (hp : Distribution p) (hs : Shares q m drawn share) :
    residualTarget p q m drawn =
      if 0 < ∑ t, uncovered p share t then fun t => uncovered p share t / ∑ t, uncovered p share t
      else uncovered p share := by
  have hreduced : (fun t => if (drawn.any fun d => d.toNat = t.val) = true then p t else max (p t - q t / m) 0) =
      uncovered p share := by
    funext t
    unfold uncovered
    by_cases ht : Drawn drawn t
    · rw [if_pos ((any_drawn t).2 ht), hs.gone t ht, min_eq_right (hp.nonneg t), sub_zero]
    · rw [if_neg fun h => ht ((any_drawn t).1 h), hs.fresh t ht]
      rcases le_total (p t) (q t / m) with hle | hle
      · rw [max_eq_right (sub_nonpos.2 hle), min_eq_left hle, sub_self]
      · rw [max_eq_left (sub_nonneg.2 hle), min_eq_right hle]
  unfold residualTarget
  rw [hreduced]

/-- The residual target is the uncovered mass, scaled. -/
private theorem sum_mul_residual (hp : Distribution p) (hs : Shares q m drawn share) (t : Fin n) :
    (∑ t, uncovered p share t) * residualTarget p q m drawn t = uncovered p share t := by
  rw [residualTarget_eq hp hs]
  have hnonneg : ∀ t ∈ Finset.univ, 0 ≤ uncovered p share t := fun t _ => uncovered_nonneg t
  by_cases hpos : 0 < ∑ t, uncovered p share t
  · rw [if_pos hpos, mul_div_cancel₀ _ hpos.ne']
  · have hzero : ∑ t, uncovered p share t = 0 := le_antisymm (not_lt.1 hpos) (Finset.sum_nonneg hnonneg)
    rw [hzero, zero_mul, (Finset.sum_eq_zero_iff_of_nonneg hnonneg).1 hzero t (Finset.mem_univ t)]

private theorem residualTarget_nonneg (hp : Distribution p) (hs : Shares q m drawn share) (t : Fin n) :
    0 ≤ residualTarget p q m drawn t := by
  rw [residualTarget_eq hp hs]
  split_ifs with h
  · exact div_nonneg (uncovered_nonneg t) h.le
  · exact uncovered_nonneg t

private theorem share_mul_acceptance (p : Fin n → ℝ) (hs : Shares q m drawn share) (hc : 0 < share c) :
    share c * acceptance p q m c = min (p c) (share c) := by
  have hfresh : ¬ Drawn drawn c := fun h => hc.ne' (hs.gone c h)
  have hle : share c ≤ 1 := hs.dist.total ▸ Finset.single_le_sum (fun t _ => hs.dist.nonneg t) (Finset.mem_univ c)
  unfold acceptance
  rw [← hs.fresh c hfresh, max_eq_left hc.le, min_eq_left hle, if_pos hc, mul_min_of_nonneg _ _ hc.le,
    mul_div_cancel₀ _ hc.ne', mul_one]

/-- A candidate that can be rejected leaves a residual target, without mass on it. -/
private theorem residual_of_rejected (hp : Distribution p) (hs : Shares q m drawn share) (hc : 0 < share c)
    (hreject : acceptance p q m c ≠ 1) :
    Distribution (residualTarget p q m drawn) ∧ residualTarget p q m drawn c = 0 := by
  have hlt : p c < share c := by
    by_contra hge
    have hmul := share_mul_acceptance p hs hc
    rw [min_eq_right (not_lt.1 hge)] at hmul
    exact hreject (mul_left_cancel₀ hc.ne' (hmul.trans (mul_one _).symm))
  have hcovered : ∑ t, min (p t) (share t) < 1 := by
    rw [← hs.dist.total]
    exact Finset.sum_lt_sum (fun t _ => min_le_right _ _) ⟨c, Finset.mem_univ c, by rwa [min_eq_left hlt.le]⟩
  have hpos : 0 < ∑ t, uncovered p share t := by
    rw [sum_uncovered hp]
    exact sub_pos.2 hcovered
  refine ⟨⟨residualTarget_nonneg hp hs, ?_⟩, ?_⟩
  · rw [residualTarget_eq hp hs, if_pos hpos, ← Finset.sum_div, div_self hpos.ne']
  · rw [residualTarget_eq hp hs, if_pos hpos]
    simp only [uncovered, min_eq_left hlt.le, sub_self, zero_div]

private theorem residual_drawn (hp : Distribution p) (hs : Shares q m drawn share) (ht : Drawn drawn t)
    (hpt : p t = 0) : residualTarget p q m drawn t = 0 := by
  have hzero : uncovered p share t = 0 := by
    unfold uncovered
    rw [hs.gone t ht, hpt, min_self, sub_zero]
  rw [residualTarget_eq hp hs]
  split_ifs
  · exact (congrArg (· / _) hzero).trans (zero_div _)
  · exact hzero

/-- Acceptance and residual together give each token its target probability. -/
private theorem target_of_step (hp : Distribution p) (hs : Shares q m drawn share) (t : Fin n) (rest : Fin n → ℝ≥0∞)
    (hrest : ∀ c, 0 < share c → acceptance p q m c ≠ 1 → rest c = ENNReal.ofReal (residualTarget p q m drawn t)) :
    ∑ c, ENNReal.ofReal (share c) * (ENNReal.ofReal (acceptance p q m c) * (if c = t then 1 else 0) +
      ENNReal.ofReal (1 - acceptance p q m c) * rest c) = ENNReal.ofReal (p t) := by
  have hterm : ∀ c, ENNReal.ofReal (share c) * (ENNReal.ofReal (acceptance p q m c) * (if c = t then 1 else 0) +
      ENNReal.ofReal (1 - acceptance p q m c) * rest c) =
      ENNReal.ofReal ((if c = t then min (p c) (share c) else 0) +
        (share c - min (p c) (share c)) * residualTarget p q m drawn t) := by
    intro c
    rcases (hs.dist.nonneg c).lt_or_eq with hpos | hzero
    · have hmul := share_mul_acceptance p hs hpos
      have hkeep : 0 ≤ (share c - min (p c) (share c)) * residualTarget p q m drawn t :=
        mul_nonneg (sub_nonneg.2 (min_le_right _ _)) (residualTarget_nonneg hp hs t)
      have htake : (0 : ℝ) ≤ if c = t then min (p c) (share c) else 0 := by
        split_ifs
        · exact le_min (hp.nonneg c) hpos.le
        · exact le_rfl
      rw [ENNReal.ofReal_add htake hkeep, mul_add, ← mul_assoc, ← ENNReal.ofReal_mul hpos.le, hmul, ← mul_assoc,
        ← ENNReal.ofReal_mul hpos.le, mul_sub, mul_one, hmul]
      congr 1
      · split_ifs
        · rw [mul_one]
        · rw [mul_zero, ENNReal.ofReal_zero]
      · by_cases hone : acceptance p q m c = 1
        · rw [hone, mul_one] at hmul
          rw [← hmul, sub_self, zero_mul, ENNReal.ofReal_zero, zero_mul]
        · rw [hrest c hpos hone, ENNReal.ofReal_mul (sub_nonneg.2 (min_le_right _ _))]
    · rw [← hzero, min_eq_right (hp.nonneg c), ENNReal.ofReal_zero, zero_mul, sub_self, zero_mul, add_zero, ite_self,
        ENNReal.ofReal_zero]
  have hnonneg : ∀ c ∈ Finset.univ, 0 ≤ (if c = t then min (p c) (share c) else 0) +
      (share c - min (p c) (share c)) * residualTarget p q m drawn t := by
    intro c _
    refine add_nonneg ?_ (mul_nonneg (sub_nonneg.2 (min_le_right _ _)) (residualTarget_nonneg hp hs t))
    split_ifs
    · exact le_min (hp.nonneg c) (hs.dist.nonneg c)
    · exact le_rfl
  rw [Finset.sum_congr rfl fun c _ => hterm c, ← ENNReal.ofReal_sum_of_nonneg hnonneg]
  congr 1
  rw [Finset.sum_add_distrib, Finset.sum_ite_eq', if_pos (Finset.mem_univ t), ← Finset.sum_mul,
    Finset.sum_sub_distrib, hs.dist.total, ← sum_uncovered hp, sum_mul_residual hp hs]
  unfold uncovered
  ring

end Residual

section Exhausted
variable {p q qr : Fin n → ℝ} {drawn : List Token}

/-- All of the draft's tokens are drawn, and the target has none of them left. -/
structure Exhausted (q p : Fin n → ℝ) (drawn : List Token) : Prop where
  target : Distribution p
  covered : ∀ t, ¬ Drawn drawn t → q t = 0
  rejected : ∀ t, Drawn drawn t → q t ≠ 0 → p t = 0

private theorem Exhausted.residual (h : Exhausted q p drawn) (z : ℝ) : residualTarget p q z drawn = p := by
  have hreduced : (fun t => if (drawn.any fun d => d.toNat = t.val) = true then p t else max (p t - q t / z) 0) = p := by
    funext t
    by_cases ht : Drawn drawn t
    · exact if_pos ((any_drawn t).2 ht)
    · rw [if_neg fun h => ht ((any_drawn t).1 h), h.covered t ht, zero_div, sub_zero,
        max_eq_left (h.target.nonneg t)]
  unfold residualTarget
  rw [hreduced]
  simp only [h.target.total, if_pos one_pos, div_one]

private theorem Exhausted.acceptance (h : Exhausted q p drawn) (z : ℝ) (c : Fin n) : acceptance p q z c = 0 := by
  by_cases hq : q c = 0
  · unfold Spec.acceptance
    rw [hq, zero_div, max_self, min_eq_left zero_le_one, if_neg (lt_irrefl 0)]
  · refine acceptance_zero (h.rejected c ?_ hq)
    by_contra hfresh
    exact hq (h.covered c hfresh)

private theorem Exhausted.pad (h : Exhausted q p drawn) (d : Token) : Exhausted q p (drawn ++ [d]) where
  target := h.target
  covered t ht := by
    refine h.covered t fun hdrawn => ht ?_
    obtain ⟨d', hd, hdt⟩ := hdrawn
    exact ⟨d', List.mem_append_left _ hd, hdt⟩
  rejected t _ hq := by
    by_contra hp
    refine hp (h.rejected t ?_ hq)
    by_contra hfresh
    exact hq (h.covered t hfresh)

/-- Pads are all rejected, and the target stays as it is. -/
private theorem expect_pads (hn : n ≤ 2 ^ 32) (t : Fin n) (r : ℕ) {drawn : List Token} (h : Exhausted q p drawn)
    (dq : ℝ) : (sworStepFrom q p drawn dq (List.replicate r 0)).expect ((emits t).indicator 1) = ENNReal.ofReal (p t) := by
  induction r generalizing drawn dq with
  | zero => exact prob_sample hn h.target t
  | succ r ih =>
    let c : Fin n := ⟨0, t.pos⟩
    have hpad : List.replicate (r + 1) (0 : Token) = UInt32.ofNat c.val :: List.replicate r 0 := rfl
    rw [hpad, expect_verify hn h.target, h.acceptance, h.residual, ih (h.pad _), ENNReal.ofReal_zero, zero_mul,
      zero_add, sub_zero, ENNReal.ofReal_one, one_mul]

private theorem drawCandidates_exhausted (r : ℕ) (h : ∑ t, qr t ≤ 0) :
    drawCandidates r qr = pure (List.replicate r 0) := by
  induction r with
  | zero => rfl
  | succ r ih =>
    rw [drawCandidates, if_pos h, ih]
    rfl

end Exhausted

section Position
variable {p q qr : Fin n → ℝ} {drawn : List Token} {dq : ℝ} {S : Finset (Fin n)} {k : ℕ}

/-- Between two candidates: the tokens drawn so far are those of `S`, all of them rejected. -/
structure Between (q qr p : Fin n → ℝ) (drawn : List Token) (dq : ℝ) (S : Finset (Fin n)) : Prop where
  target : Distribution p
  drawn_iff : ∀ t, Drawn drawn t ↔ t ∈ S
  left : ∀ t, qr t = if t ∈ S then 0 else q t
  positive : ∀ t ∈ S, 0 < q t
  rejected : ∀ t ∈ S, p t = 0
  mass : dq = ∑ t ∈ S, q t

/-- Before the first candidate. -/
private theorem Between.start (hp : Distribution p) : Between q q p [] 0 ∅ := by
  refine ⟨hp, fun t => ?_, fun t => ?_, ?_, ?_, ?_⟩
  · simp [Drawn]
  · simp
  · simp
  · simp
  · simp

private theorem Between.sum_left (h : Between q qr p drawn dq S) (hq : Distribution q) : ∑ t, qr t = 1 - dq := by
  have hsplit : ∑ t, qr t + ∑ t ∈ S, q t = 1 := by
    rw [← hq.total, ← Finset.sum_add_sum_compl S q, add_comm]
    congr 1
    rw [← Finset.sum_add_sum_compl S qr, Finset.sum_eq_zero fun t ht => by rw [h.left, if_pos ht], zero_add]
    exact Finset.sum_congr rfl fun t ht => by rw [h.left, if_neg (Finset.mem_compl.1 ht)]
  rw [h.mass]
  linarith

private theorem Between.left_nonneg (h : Between q qr p drawn dq S) (hq : Distribution q) (t : Fin n) : 0 ≤ qr t := by
  rw [h.left]
  split_ifs
  · exact le_rfl
  · exact hq.nonneg t

private theorem Between.exhausted (h : Between q qr p drawn dq S) (hq : Distribution q) (hsum : ∑ t, qr t ≤ 0) :
    Exhausted q p drawn where
  target := h.target
  covered t ht := by
    have hzero : ∑ t, qr t = 0 := le_antisymm hsum (Finset.sum_nonneg fun t _ => h.left_nonneg hq t)
    have hqr := (Finset.sum_eq_zero_iff_of_nonneg fun t _ => h.left_nonneg hq t).1 hzero t (Finset.mem_univ t)
    rwa [h.left, if_neg fun hS => ht ((h.drawn_iff t).2 hS)] at hqr
  rejected t ht _ := h.rejected t ((h.drawn_iff t).1 ht)

private theorem Between.shares (h : Between q qr p drawn dq S) (hq : Distribution q) (hsum : 0 < ∑ t, qr t) :
    Shares q (1 - dq) drawn fun t => qr t / (1 - dq) where
  dist := by
    rw [h.sum_left hq] at hsum
    refine ⟨fun t => div_nonneg (h.left_nonneg hq t) hsum.le, ?_⟩
    rw [← Finset.sum_div, h.sum_left hq, div_self hsum.ne']
  gone t ht := by rw [h.left, if_pos ((h.drawn_iff t).1 ht), zero_div]
  fresh t ht := by rw [h.left, if_neg fun hS => ht ((h.drawn_iff t).2 hS)]

/-- After a rejection the state is between two candidates again. -/
private theorem Between.reject (h : Between q qr p drawn dq S) (hq : Distribution q) (hn : n ≤ 2 ^ 32)
    (hsum : 0 < ∑ t, qr t) {c : Fin n} (hc : 0 < qr c / (1 - dq)) (hreject : acceptance p q (1 - dq) c ≠ 1) :
    Between q (fun t => if t.val = c.val then 0 else qr t) (residualTarget p q (1 - dq) drawn)
      (drawn ++ [UInt32.ofNat c.val]) (dq + q c) (insert c S) := by
  have hs := h.shares hq hsum
  obtain ⟨htarget, hcand⟩ := residual_of_rejected h.target hs hc hreject
  have hfresh : c ∉ S := by
    intro hS
    rw [h.left, if_pos hS, zero_div] at hc
    exact lt_irrefl 0 hc
  refine ⟨htarget, fun t => ?_, fun t => ?_, fun t ht => ?_, fun t ht => ?_, ?_⟩
  · rw [Finset.mem_insert, ← h.drawn_iff]
    constructor
    · rintro ⟨d, hd, hdt⟩
      rcases List.mem_append.1 hd with hd | hd
      · exact .inr ⟨d, hd, hdt⟩
      · rw [List.mem_singleton.1 hd, toNat_token hn] at hdt
        exact .inl (Fin.ext hdt.symm)
    · rintro (rfl | ⟨d, hd, hdt⟩)
      · exact ⟨_, List.mem_append_right _ (List.mem_singleton_self _), toNat_token hn t⟩
      · exact ⟨d, List.mem_append_left _ hd, hdt⟩
  · by_cases htc : t = c
    · rw [if_pos (congrArg Fin.val htc), if_pos (htc ▸ Finset.mem_insert_self c S)]
    · have hmem : t ∈ insert c S ↔ t ∈ S := by rw [Finset.mem_insert, or_iff_right htc]
      rw [if_neg fun hval => htc (Fin.ext hval), h.left]
      simp only [hmem]
  · rcases Finset.mem_insert.1 ht with rfl | hS
    · have hqt := hs.fresh t fun hd => hfresh ((h.drawn_iff t).1 hd)
      rw [h.sum_left hq] at hsum
      rw [hqt] at hc
      exact (div_pos_iff_of_pos_right hsum).1 hc
    · exact h.positive t hS
  · rcases Finset.mem_insert.1 ht with rfl | hS
    · exact hcand
    · exact residual_drawn h.target hs ((h.drawn_iff t).2 hS) (h.rejected t hS)
  · rw [Finset.sum_insert hfresh, h.mass, add_comm]

/-- The next candidate, and what follows it. -/
private noncomputable def afterPick (r : ℕ) (qr : Fin n → ℝ) (next : List Token → Draws ℝ (Option Token × Token))
    (o : Option (Fin n)) : Draws ℝ (Option Token × Token) :=
  let pick := (o.map Fin.val).getD (n - 1)
  drawCandidates r (fun t => if t.val = pick then 0 else qr t) >>= fun rest => next (UInt32.ofNat pick :: rest)

private theorem afterPick_some (r : ℕ) (qr : Fin n → ℝ) (next : List Token → Draws ℝ (Option Token × Token)) (c : Fin n) :
    afterPick r qr next (some c) = drawCandidates r (fun t => if t.val = c.val then 0 else qr t) >>= fun rest =>
      next (UInt32.ofNat c.val :: rest) := rfl

private theorem drawCandidates_step (r : ℕ) (hsum : ¬ ∑ t, qr t ≤ 0) (next : List Token → Draws ℝ (Option Token × Token)) :
    (drawCandidates (r + 1) qr >>= next) =
      .draw fun u => afterPick r qr next (scanFrom qr (u * ∑ t, qr t) 0 (List.finRange n)) := by
  rw [drawCandidates, if_neg hsum, Draws.bind_assoc, Draws.number_bind]
  refine congrArg Draws.draw (funext fun u => ?_)
  rw [Draws.bind_assoc]
  rfl

/-- Going on with one candidate: it is accepted, or the rest is verified against the residual target. -/
private theorem expect_afterPick (hn : n ≤ 2 ^ 32) (hp : Distribution p) (r : ℕ) (t c : Fin n) :
    (afterPick r qr (sworStepFrom q p drawn dq) (some c)).expect ((emits t).indicator 1) =
      ENNReal.ofReal (acceptance p q (max (1 - dq) (1 / 1000000000)) c) * (if c = t then 1 else 0) +
        ENNReal.ofReal (1 - acceptance p q (max (1 - dq) (1 / 1000000000)) c) *
          (drawCandidates r (fun t => if t.val = c.val then 0 else qr t) >>= fun rest =>
            sworStepFrom q (residualTarget p q (max (1 - dq) (1 / 1000000000)) drawn)
              (drawn ++ [UInt32.ofNat c.val]) (dq + q c) rest).expect ((emits t).indicator 1) := by
  rw [afterPick_some, Draws.expect_bind]
  have hverify : ∀ rest, (sworStepFrom q p drawn dq (UInt32.ofNat c.val :: rest)).expect ((emits t).indicator 1) = _ :=
    fun rest => expect_verify hn hp c
  rw [indicator_token hn] at hverify
  rw [funext hverify, Draws.expect_affine _ _ ENNReal.ofReal_ne_top, Draws.expect_bind]

/-- Drawing the candidates that are left and verifying them emits each token with its probability. -/
private theorem expect_position (hn : n ≤ 2 ^ 32) (hq : Distribution q) (hguard : Guarded q k) (t : Fin n) (r : ℕ)
    {qr p : Fin n → ℝ} {drawn : List Token} {dq : ℝ} {S : Finset (Fin n)} (h : Between q qr p drawn dq S)
    (hcard : S.card + r ≤ k) :
    (drawCandidates r qr >>= fun cands => sworStepFrom q p drawn dq cands).expect ((emits t).indicator 1) =
      ENNReal.ofReal (p t) := by
  induction r generalizing qr p drawn dq S with
  | zero => exact prob_sample hn h.target t
  | succ r ih =>
    by_cases hsum : ∑ t, qr t ≤ 0
    · rw [drawCandidates_exhausted _ hsum, Draws.pure_bind]
      exact expect_pads hn t _ (h.exhausted hq hsum) dq
    · have hpos := not_le.1 hsum
      have hmass := h.sum_left hq
      -- the guard of the division does not cut in: the mass left is not nothing
      have hz : max (1 - dq) (1 / 1000000000) = 1 - dq := by
        refine max_eq_left ?_
        rcases hguard S (by omega) h.positive with hzero | hle
        · rw [hmass, h.mass, hzero] at hpos
          exact absurd hpos (lt_irrefl 0)
        · rwa [h.mass]
      have hlist : ((List.finRange n).map qr).sum = ∑ t, qr t := by
        rw [← List.sum_toFinset qr (List.nodup_finRange n), List.toFinset_finRange]
      rw [drawCandidates_step r hsum, Draws.expect_scan hpos (fun i _ => h.left_nonneg hq i) hlist, sum_finRange,
        Finset.sum_congr rfl fun c _ => congrArg _ (expect_afterPick hn h.target r t c), hz, hmass]
      refine target_of_step h.target (h.shares hq hpos) t _ fun c hc hreject => ?_
      refine ih (h.reject hq hn hpos hc hreject) ?_
      have hle := Finset.card_insert_le c S
      omega

/-- Candidates drawn from the draft and verified against the target emit a token of the target. -/
theorem prob_sworStep (hn : n ≤ 2 ^ 32) (hp : Distribution p) (hq : Distribution q) (hguard : Guarded q k) (t : Fin n) :
    (drawCandidates k q >>= fun cands => sworStep p q cands).prob (emits t) = ENNReal.ofReal (p t) := by
  exact expect_position hn hq hguard t k (Between.start hp) (by rw [Finset.card_empty, zero_add])

end Position

section Softmax
variable {row : Fin n → WithBot ℝ} {q : Fin n → ℝ} {temp : ℝ}

/-- A row with a finite logit gives a distribution. -/
theorem softmaxTempInto_distribution (hfinite : ∃ t, row t ≠ ⊥) : Distribution (softmaxTempInto row temp) := by
  unfold softmaxTempInto
  dsimp only
  generalize Finset.univ.sup (fun t => (row t).map (· * (1 / temp))) = top
  let out : Fin n → ℝ := fun t => if (row t).map (· * (1 / temp)) = ⊥ then 0
    else Real.exp (((row t).map (· * (1 / temp))).unbotD 0 - top.unbotD 0)
  have hnonneg : ∀ t, 0 ≤ out t := by
    intro t
    by_cases ht : (row t).map (· * (1 / temp)) = ⊥
    · exact (if_pos ht).ge
    · exact (Real.exp_pos _).le.trans (if_neg ht).ge
  have hpos : 0 < ∑ t, out t := by
    obtain ⟨t, ht⟩ := hfinite
    refine Finset.sum_pos' (fun t _ => hnonneg t) ⟨t, Finset.mem_univ t, ?_⟩
    have hmap : (row t).map (· * (1 / temp)) ≠ ⊥ := by rwa [Ne, WithBot.map_eq_bot_iff]
    exact (Real.exp_pos _).trans_le (if_neg hmap).ge
  refine ⟨fun t => mul_nonneg (hnonneg t) (one_div_nonneg.2 hpos.le), ?_⟩
  change ∑ t, out t * (1 / ∑ t, out t) = 1
  rw [← Finset.sum_mul, mul_one_div_cancel hpos.ne']

/-- Every distribution is the softmax of some row. -/
theorem exists_softmaxTempInto (hq : Distribution q) (htemp : 0 < temp) :
    ∃ row : Fin n → WithBot ℝ, (∃ t, row t ≠ ⊥) ∧ softmaxTempInto row temp = q := by
  let row : Fin n → WithBot ℝ := fun t => if q t = 0 then ⊥ else ((temp * Real.log (q t) : ℝ) : WithBot ℝ)
  have hsome : ∃ t, q t ≠ 0 := by
    by_contra hnone
    simp only [not_exists, not_not] at hnone
    have htotal := hq.total
    rw [Finset.sum_eq_zero fun t _ => hnone t] at htotal
    exact zero_ne_one htotal
  refine ⟨row, ?_, ?_⟩
  · obtain ⟨t, ht⟩ := hsome
    refine ⟨t, ?_⟩
    change (if q t = 0 then ⊥ else _) ≠ ⊥
    rw [if_neg ht]
    exact WithBot.coe_ne_bot
  · unfold softmaxTempInto
    dsimp only
    generalize Finset.univ.sup (fun t => (row t).map (· * (1 / temp))) = top
    have hout : ∀ t, (if (row t).map (· * (1 / temp)) = ⊥ then (0 : ℝ)
        else Real.exp (((row t).map (· * (1 / temp))).unbotD 0 - top.unbotD 0)) =
          q t * Real.exp (-top.unbotD 0) := by
      intro t
      by_cases ht : q t = 0
      · simp [row, ht]
      · have hlog : temp * Real.log (q t) * (1 / temp) = Real.log (q t) := by field_simp
        have hpos : 0 < q t := (hq.nonneg t).lt_of_ne (Ne.symm ht)
        simp only [row, if_neg ht, WithBot.map_coe, WithBot.coe_ne_bot, if_false, WithBot.unbotD_coe, hlog]
        rw [sub_eq_add_neg, Real.exp_add, Real.exp_log hpos]
    funext t
    simp only [hout]
    rw [← Finset.sum_mul, hq.total, one_mul, mul_assoc, mul_one_div_cancel (Real.exp_pos _).ne', mul_one]

end Softmax

section Rows
variable {p : Fin n → ℝ} {k : ℕ} {temp : ℝ}

/-- The probability that a position emits the token, when its candidates are drawn with those of the other rows. -/
noncomputable def emissionProb (k : ℕ) (temp : ℝ) (draftLogits : List (Fin n → WithBot ℝ)) (pos : ℕ) (p : Fin n → ℝ)
    (t : Fin n) : ℝ≥0∞ :=
  (sworDraftCandidates k temp draftLogits >>= fun drafted =>
    sworStep p (drafted.1.getD pos 0) (drafted.2.getD pos [])).prob (emits t)

/-- A position depends on its own row only. -/
private theorem emissionProb_eq {row : Fin n → WithBot ℝ} {draftLogits : List (Fin n → WithBot ℝ)} {pos : ℕ}
    (hrow : draftLogits[pos]? = some row) (t : Fin n) :
    emissionProb k temp draftLogits pos p t =
      (drawCandidates k (softmaxTempInto row (max temp (1 / 10000))) >>= fun cands =>
        sworStep p (softmaxTempInto row (max temp (1 / 10000))) cands).prob (emits t) := by
  unfold emissionProb Draws.prob
  induction draftLogits generalizing pos with
  | nil => simp at hrow
  | cons first rest ih =>
    rw [sworDraftCandidates, Draws.bind_assoc, Draws.expect_bind]
    simp only [Draws.bind_assoc, Draws.pure_bind]
    cases pos with
    | zero =>
      obtain rfl : first = row := by simpa using hrow
      rw [Draws.expect_bind]
      congr 1
      funext cands
      rw [Draws.expect_bind]
      exact Draws.expect_const (sworDraftCandidates k temp rest)
        ((sworStep p (softmaxTempInto first (max temp (1 / 10000))) cands).expect ((emits t).indicator 1))
    | succ pos =>
      have hnext := ih (by simpa using hrow)
      have hsame : ∀ cands : List Token, (sworDraftCandidates k temp rest >>= fun drafted =>
          sworStep p ((softmaxTempInto first (max temp (1 / 10000)) :: drafted.1).getD (pos + 1) 0)
            ((cands :: drafted.2).getD (pos + 1) [])).expect ((emits t).indicator 1) =
          (drawCandidates k (softmaxTempInto row (max temp (1 / 10000))) >>= fun cands =>
            sworStep p (softmaxTempInto row (max temp (1 / 10000))) cands).expect ((emits t).indicator 1) :=
        fun cands => hnext
      exact (congrArg (fun f => Draws.expect f _) (funext hsame)).trans (Draws.expect_const _ _)

/-- Every position emits the target distribution, as long as the draft mass left by its draws is nothing or at least
the guard of the division. -/
theorem emissionProb_target (hn : n ≤ 2 ^ 32) (hp : Distribution p) {draftLogits : List (Fin n → WithBot ℝ)} {pos : ℕ}
    {row : Fin n → WithBot ℝ} (hrow : draftLogits[pos]? = some row) (hfinite : ∃ t, row t ≠ ⊥)
    (hguard : Guarded (softmaxTempInto row (max temp (1 / 10000))) k) (t : Fin n) :
    emissionProb k temp draftLogits pos p t = ENNReal.ofReal (p t) := by
  rw [emissionProb_eq hrow]
  exact prob_sworStep hn hp (softmaxTempInto_distribution hfinite) hguard t

theorem emissionProb_target_halves : ∃ row : Fin 2 → WithBot ℝ,
    emissionProb 2 1 [row] 0 ![1 / 4, 3 / 4] 1 = ENNReal.ofReal (![1 / 4, 3 / 4] 1) := by
  have hp : Distribution (![1 / 4, 3 / 4] : Fin 2 → ℝ) := by
    refine ⟨fun t => ?_, ?_⟩
    · fin_cases t <;> norm_num
    · rw [Fin.sum_univ_two]
      norm_num
  have hq : Distribution (fun _ : Fin 2 => (1 / 2 : ℝ)) := ⟨fun _ => by norm_num, by norm_num⟩
  obtain ⟨row, hfinite, hrow⟩ := exists_softmaxTempInto hq (lt_max_of_lt_left one_pos : (0 : ℝ) < max 1 (1 / 10000))
  refine ⟨row, emissionProb_target (by norm_num) hp rfl hfinite ?_ 1⟩
  rw [hrow]
  intro S hS _
  rw [Finset.sum_const, nsmul_eq_mul]
  have hcard : (S.card : ℝ) ≤ 1 := by exact_mod_cast Nat.le_of_lt_succ hS
  exact .inr (by linarith)

end Rows

section Guard

/-- A draft almost all on one token, and a target off it. -/
noncomputable def sharpDraft : Fin 3 → ℝ := ![1 - 2 / 10000000000, 1 / 10000000000, 1 / 10000000000]

noncomputable def skewTarget : Fin 3 → ℝ := ![0, 4 / 5, 1 / 5]

private theorem sharpDraft_distribution : Distribution sharpDraft := by
  refine ⟨fun t => ?_, ?_⟩
  · fin_cases t <;> norm_num [sharpDraft]
  · rw [Fin.sum_univ_three]
    change (1 - 2 / 10000000000 + 1 / 10000000000 + 1 / 10000000000 : ℝ) = 1
    norm_num

private theorem skewTarget_distribution : Distribution skewTarget := by
  refine ⟨fun t => ?_, ?_⟩
  · fin_cases t <;> norm_num [skewTarget]
  · rw [Fin.sum_univ_three]
    change (0 + 4 / 5 + 1 / 5 : ℝ) = 1
    norm_num

private theorem le_expect_scan {qr : Fin n → ℝ} {s : ℝ} (hs : 0 < s) (hqr : ∀ t, 0 ≤ qr t) (hsum : ∑ t, qr t = s)
    (k : Option (Fin n) → Draws ℝ (Option Token × Token)) (f : Option Token × Token → ℝ≥0∞) (c : Fin n) :
    ENNReal.ofReal (qr c / s) * (k (some c)).expect f ≤
      Draws.expect f (.draw fun u => k (scanFrom qr (u * s) 0 (List.finRange n))) := by
  have hlist : ((List.finRange n).map qr).sum = s := by
    rw [← hsum, ← List.sum_toFinset qr (List.nodup_finRange n), List.toFinset_finRange]
  rw [Draws.expect_scan hs (fun i _ => hqr i) hlist, sum_finRange]
  exact Finset.single_le_sum (f := fun c => ENNReal.ofReal (qr c / s) * (k (some c)).expect f)
    (fun _ _ => zero_le) (Finset.mem_univ c)

/-- The target after the first token of the draft is rejected. -/
private noncomputable def skewResidual : Fin 3 → ℝ := residualTarget skewTarget sharpDraft (1 - 0) []

private theorem sharpDraft_pos : 0 < ∑ t, sharpDraft t := sharpDraft_distribution.total ▸ one_pos

private theorem skewTarget_rejects : acceptance skewTarget sharpDraft (1 - 0) 0 = 0 := acceptance_zero rfl

private theorem sharpDraft_between :
    Between sharpDraft (fun t => if t.val = (0 : Fin 3).val then 0 else sharpDraft t) skewResidual
      ([] ++ [UInt32.ofNat (0 : Fin 3).val]) (0 + sharpDraft 0) (insert 0 ∅) := by
  refine (Between.start skewTarget_distribution).reject sharpDraft_distribution (by norm_num) sharpDraft_pos ?_ ?_
  · norm_num [sharpDraft]
  · rw [skewTarget_rejects]
    exact zero_ne_one

private theorem skewResidual_ge : 1 / 10 ≤ skewResidual 2 := by
  have hshares := (Between.start skewTarget_distribution).shares sharpDraft_distribution sharpDraft_pos
  have hscaled := sum_mul_residual skewTarget_distribution hshares 2
  have hle : ∑ t, uncovered skewTarget (fun t => sharpDraft t / (1 - 0)) t ≤ 1 := by
    rw [sum_uncovered skewTarget_distribution]
    refine sub_le_self _ (Finset.sum_nonneg fun t _ => ?_)
    exact le_min (skewTarget_distribution.nonneg t) (hshares.dist.nonneg t)
  have hscale := mul_le_of_le_one_left (residualTarget_nonneg skewTarget_distribution hshares 2) hle
  have huncovered : uncovered skewTarget (fun t => sharpDraft t / (1 - 0)) 2 = 1 / 5 - 1 / 10000000000 := by
    change (1 / 5 : ℝ) - min (1 / 5) (1 / 10000000000 / (1 - 0)) = _
    norm_num
  rw [hscaled, huncovered] at hscale
  exact le_trans (by norm_num) hscale

/-- The guard takes the second token for a tenth of what it is, so it is always accepted. -/
private theorem skewResidual_accepts :
    acceptance skewResidual sharpDraft (max (1 - (0 + sharpDraft 0)) (1 / 1000000000)) 2 = 1 := by
  have hguard : max (1 - (0 + sharpDraft 0)) (1 / 1000000000) = 1 / 1000000000 := by
    refine max_eq_right ?_
    change 1 - (0 + (1 - 2 / 10000000000)) ≤ (1 / 1000000000 : ℝ)
    norm_num
  have hclamp : min (max (sharpDraft 2 / (1 / 1000000000)) 0) 1 = 1 / 10 := by
    change min (max ((1 / 10000000000 : ℝ) / (1 / 1000000000)) 0) 1 = _
    norm_num
  unfold acceptance
  rw [hguard, hclamp, if_pos (by norm_num)]
  exact min_eq_right ((one_le_div₀ (by norm_num)).2 skewResidual_ge)

private theorem sharpDraft_second : ENNReal.ofReal (1 / 2) ≤
    (drawCandidates 1 (fun t : Fin 3 => if t.val = (0 : Fin 3).val then 0 else sharpDraft t) >>= fun rest =>
      sworStepFrom sharpDraft skewResidual ([] ++ [UInt32.ofNat (0 : Fin 3).val]) (0 + sharpDraft 0) rest).expect
        ((emits (2 : Fin 3)).indicator 1) := by
  have hleft : ∑ t, (if t.val = (0 : Fin 3).val then 0 else sharpDraft t) = 2 / 10000000000 := by
    rw [sharpDraft_between.sum_left sharpDraft_distribution]
    norm_num [sharpDraft]
  have hpos : 0 < ∑ t, (if t.val = (0 : Fin 3).val then 0 else sharpDraft t) := by
    rw [hleft]
    norm_num
  rw [drawCandidates_step 0 (not_le.2 hpos)]
  refine le_trans ?_ (le_expect_scan hpos (sharpDraft_between.left_nonneg sharpDraft_distribution) rfl _ _ 2)
  rw [expect_afterPick (by norm_num) sharpDraft_between.target, skewResidual_accepts, if_pos rfl, ENNReal.ofReal_one,
    one_mul, hleft]
  refine le_trans ?_ (mul_le_mul_right (self_le_add_right _ _) _)
  rw [mul_one]
  refine ENNReal.ofReal_le_ofReal ?_
  change (1 / 2 : ℝ) ≤ 1 / 10000000000 / (2 / 10000000000)
  norm_num

private theorem sharpDraft_emits : ENNReal.ofReal (1 / 4) ≤
    (drawCandidates 2 sharpDraft >>= fun cands => sworStep skewTarget sharpDraft cands).prob (emits (2 : Fin 3)) := by
  have hz : max (1 - 0 : ℝ) (1 / 1000000000) = 1 - 0 := by norm_num
  have hsure : ENNReal.ofReal (1 - 0) = 1 := by norm_num
  unfold Draws.prob sworStep
  rw [drawCandidates_step 1 (not_le.2 sharpDraft_pos)]
  refine le_trans ?_ (le_expect_scan sharpDraft_pos sharpDraft_distribution.nonneg rfl _ _ 0)
  rw [expect_afterPick (by norm_num) skewTarget_distribution, hz, skewTarget_rejects, sharpDraft_distribution.total,
    ENNReal.ofReal_zero, zero_mul, zero_add, hsure, one_mul]
  refine le_trans ?_ (mul_le_mul_right sharpDraft_second _)
  rw [← ENNReal.ofReal_mul (by norm_num [sharpDraft])]
  refine ENNReal.ofReal_le_ofReal ?_
  change (1 / 4 : ℝ) ≤ (1 - 2 / 10000000000) / 1 * (1 / 2)
  norm_num

/-- The guard distorts a draft almost all on one token. -/
theorem guard_distorts : ¬ ∀ (n k : ℕ) (temp : ℝ) (row : Fin n → WithBot ℝ) (p : Fin n → ℝ) (t : Fin n),
    (∃ t, row t ≠ ⊥) → Distribution p → emissionProb k temp [row] 0 p t = ENNReal.ofReal (p t) := by
  intro h
  obtain ⟨row, hfinite, hrow⟩ :=
    exists_softmaxTempInto sharpDraft_distribution (lt_max_of_lt_left one_pos : (0 : ℝ) < max 1 (1 / 10000))
  have hclaim := h 3 2 1 row skewTarget 2 hfinite skewTarget_distribution
  rw [emissionProb_eq rfl, hrow] at hclaim
  have hle := hclaim ▸ sharpDraft_emits
  have hlt : ENNReal.ofReal (skewTarget 2) < ENNReal.ofReal (1 / 4) := by
    refine (ENNReal.ofReal_lt_ofReal_iff (by norm_num)).2 ?_
    change (1 / 5 : ℝ) < 1 / 4
    norm_num
  exact absurd hle (not_le.2 hlt)

end Guard
end Hipscope.Spec
