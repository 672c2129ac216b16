import Mathlib.Data.List.Infix
import Hipscope.Text.Search
import Hipscope.Text.Utf8
import Hipscope.Tokenizer.Encode

/-! Prompt normalization: four rewrites in order, each behind a scan of the bytes. -/
namespace Hipscope.Tokenizer
open Text

/-- At most two newlines in a row; `nlRun` counts them. -/
def collapseFrom : ℕ → List Char → List Char
  | _, [] => []
  | nlRun, ch :: s =>
    if ch = '\n' then
      if nlRun + 1 ≤ 2 then '\n' :: collapseFrom (nlRun + 1) s else collapseFrom (nlRun + 1) s
    else ch :: collapseFrom 0 s

def collapseNewlineRuns (s : List Char) : List Char := collapseFrom 0 s

/-- `\r` as `\n`; a newline right behind a return went with it. -/
def lineEndingsFrom : Bool → List Char → List Char
  | _, [] => []
  | afterReturn, c :: s =>
    if c = '\r' then '\n' :: lineEndingsFrom true s
    else if c = '\n' ∧ afterReturn then lineEndingsFrom false s
    else c :: lineEndingsFrom false s

def normalizeLineEndings (s : List Char) : List Char := lineEndingsFrom false s

def nbsp : Char := Char.ofNat 0xa0

def replaceNbspWithSpace (s : List Char) : List Char := s.map fun c => if c = nbsp then ' ' else c

/-- `pending` is the space since the last other character; a newline drops it, the end of the
text keeps it. -/
def stripFrom : List Char → List Char → List Char
  | pending, [] => pending
  | pending, ch :: s =>
    if ch = ' ' ∨ ch = '\t' then stripFrom (pending ++ [ch]) s
    else if ch = '\n' then '\n' :: stripFrom [] s
    else pending ++ ch :: stripFrom [] s

def stripTrailingLineWs (s : List Char) : List Char := stripFrom [] s

def hasThreeNewlines : ℕ → List UInt8 → Bool
  | _, [] => false
  | nlRun, b :: bytes =>
    if b = 0x0a then nlRun + 1 ≥ 3 || hasThreeNewlines (nlRun + 1) bytes else hasThreeNewlines 0 bytes

def needsNewlineCollapse (s : List Char) : Bool := hasThreeNewlines 0 (utf8Bytes s)

def needsLineEndingNormalize (s : List Char) : Bool := (utf8Bytes s).contains 0x0d

/-- Some two bytes side by side pass the test. -/
def anyAdjacent (test : UInt8 → UInt8 → Bool) (bytes : List UInt8) : Bool :=
  (bytes.zip bytes.tail).any fun b => test b.1 b.2

def isNbspPair (a b : UInt8) : Bool := a = 0xc2 && b = 0xa0

def needsNbspReplace (s : List Char) : Bool := anyAdjacent isNbspPair (utf8Bytes s)

def isTrailingPair (prev b : UInt8) : Bool := b = 0x0a && (prev = 0x20 || prev = 0x09)

def needsTrailingWsStrip (s : List Char) : Bool := anyAdjacent isTrailingPair (utf8Bytes s)

/-- The normalized prompt; a rewrite runs only where its scan finds something. -/
def normalizePromptWith (s : List Char) (enabled : Bool) : List Char :=
  if !enabled then s
  else
    let cur := if needsLineEndingNormalize s then normalizeLineEndings s else s
    let cur := if needsNbspReplace cur then replaceNbspWithSpace cur else cur
    let cur := if needsTrailingWsStrip cur then stripTrailingLineWs cur else cur
    if needsNewlineCollapse cur then collapseNewlineRuns cur else cur

/-- The four rewrites, whatever the scans find. -/
def rewritten (s : List Char) : List Char :=
  collapseNewlineRuns (stripTrailingLineWs (replaceNbspWithSpace (normalizeLineEndings s)))

/-- No space or tab stands right before a newline. -/
def NoTrailing (s : List Char) : Prop := ∀ ws ∈ [' ', '\t'], ¬ [ws, '\n'] <:+: s

/-- No three newlines in a row. -/
def NoRun (s : List Char) : Prop := ¬ List.replicate 3 '\n' <:+: s

section Bytes
variable {s : List Char} {c : Char} {test : UInt8 → UInt8 → Bool} {a b : UInt8} {bytes rest : List UInt8}

theorem utf8EncodeChar_nbsp : String.utf8EncodeChar nbsp = [0xc2, 0xa0] := by decide

/-- Bytes that no test begins with are passed over. -/
theorem anyAdjacent_append (h : ∀ a ∈ bytes, ∀ b, test a b = false) :
    anyAdjacent test (bytes ++ rest) = anyAdjacent test rest := by
  induction bytes with
  | nil => rfl
  | cons a bytes ih =>
    rw [← ih fun a ha => h a (List.mem_cons_of_mem _ ha), anyAdjacent, anyAdjacent, List.cons_append, List.tail_cons]
    cases hrest : bytes ++ rest with
    | nil => rfl
    | cons b bytes' => simp [h a (List.mem_cons_self ..) b]

theorem anyAdjacent_cons (a b : UInt8) (bytes : List UInt8) :
    anyAdjacent test (a :: b :: bytes) = (test a b || anyAdjacent test (b :: bytes)) := rfl

theorem needsLineEndingNormalize_iff : needsLineEndingNormalize s = true ↔ '\r' ∈ s := by
  rw [needsLineEndingNormalize, List.contains_iff_mem, utf8Bytes, List.mem_flatMap]
  constructor
  · rintro ⟨c, hc, hmem⟩
    have hcode : c.toNat = 13 := (mem_utf8EncodeChar (n := 13) (by decide)).1 hmem
    have hreturn : c = '\r' := Char.toNat_inj.1 hcode
    exact hreturn ▸ hc
  · intro h
    exact ⟨'\r', h, by decide⟩

private theorem ofNat_ne {m : ℕ} {b : UInt8} (hm : m < 256) (hne : m ≠ b.toNat) : UInt8.ofNat m ≠ b := by
  intro h
  have := congrArg UInt8.toNat h
  rw [UInt8.toNat_ofNat_of_lt' hm] at this
  exact hne this

private theorem not_nbspPair (h : a ≠ 0xc2) (b : UInt8) : isNbspPair a b = false := by
  simp [isNbspPair, h]

private theorem not_nbspPair_right (h : b ≠ 0xa0) (a : UInt8) : isNbspPair a b = false := by
  simp [isNbspPair, h]

/-- The two bytes are those of a no-break space only. -/
private theorem anyAdjacent_wide (hc : 128 ≤ c.toNat) (hne : c ≠ nbsp) (rest : List UInt8) :
    anyAdjacent isNbspPair (String.utf8EncodeChar c ++ rest) = anyAdjacent isNbspPair rest := by
  have hval : ¬ c.val.toNat ≤ 127 := by
    change ¬ c.toNat ≤ 127
    omega
  have hcode : c.val.toNat ≠ 160 := fun h => hne (Char.toNat_inj.1 h)
  rw [String.utf8EncodeChar]
  simp only [if_neg hval]
  split
  · have hsecond : ∀ a ∈ [UInt8.ofNat (c.val.toNat % 64 + 128)], ∀ b, isNbspPair a b = false := by
      intro a ha
      rw [List.mem_singleton.1 ha]
      exact not_nbspPair (ofNat_ne (by omega) (by change _ ≠ 194; omega))
    have hpair : isNbspPair (UInt8.ofNat (c.val.toNat / 64 % 32 + 192)) (UInt8.ofNat (c.val.toNat % 64 + 128)) = false := by
      by_cases hlead : c.val.toNat / 64 % 32 + 192 = 194
      · have hother : UInt8.ofNat (c.val.toNat % 64 + 128) ≠ 0xa0 := ofNat_ne (by omega) (by change _ ≠ 160; omega)
        exact not_nbspPair_right hother _
      · exact not_nbspPair (ofNat_ne (by omega) hlead) _
    rw [List.cons_append, List.singleton_append, anyAdjacent_cons, hpair, Bool.false_or, ← List.singleton_append,
      anyAdjacent_append hsecond]
  · have hbyte : ∀ m n : ℕ, m < 64 → (n = 128 ∨ 224 ≤ n ∧ m + n < 256) → UInt8.ofNat (m + n) ≠ 0xc2 :=
      fun m n hm hn => ofNat_ne (by omega) (by change _ ≠ 194; omega)
    split
    · refine anyAdjacent_append fun a ha => not_nbspPair ?_
      simp only [List.mem_cons, List.not_mem_nil, or_false] at ha
      rcases ha with rfl | rfl | rfl
      · exact hbyte _ _ (by omega) (by omega)
      · exact hbyte _ _ (by omega) (by omega)
      · exact hbyte _ _ (by omega) (by omega)
    · refine anyAdjacent_append fun a ha => not_nbspPair ?_
      simp only [List.mem_cons, List.not_mem_nil, or_false] at ha
      rcases ha with rfl | rfl | rfl | rfl
      · exact hbyte _ _ (by omega) (by omega)
      · exact hbyte _ _ (by omega) (by omega)
      · exact hbyte _ _ (by omega) (by omega)
      · exact hbyte _ _ (by omega) (by omega)

theorem needsNbspReplace_iff : needsNbspReplace s = true ↔ nbsp ∈ s := by
  induction s with
  | nil => exact ⟨fun h => absurd h (by decide), fun h => absurd h List.not_mem_nil⟩
  | cons c s ih =>
    rw [needsNbspReplace, utf8Bytes_cons, List.mem_cons, ← ih, needsNbspReplace]
    by_cases hc : c = nbsp
    · subst hc
      simp [utf8EncodeChar_nbsp, anyAdjacent_cons, isNbspPair]
    · have hskip : anyAdjacent isNbspPair (String.utf8EncodeChar c ++ utf8Bytes s) =
          anyAdjacent isNbspPair (utf8Bytes s) := by
        by_cases hsmall : c.toNat < 128
        · rw [utf8EncodeChar_small hsmall]
          refine anyAdjacent_append fun a ha => not_nbspPair ?_
          rw [List.mem_singleton.1 ha]
          exact ofNat_ne (by omega) (by change _ ≠ 194; omega)
        · exact anyAdjacent_wide (Nat.le_of_not_lt hsmall) hc _
      rw [hskip]
      exact ⟨.inr, fun h => h.resolve_left (Ne.symm hc)⟩

/-- A text begins with an ASCII byte exactly when it begins with its character. -/
private theorem head?_utf8Bytes {d : Char} (hd : d.toNat < 128) :
    (utf8Bytes s).head? = some (UInt8.ofNat d.toNat) ↔ s.head? = some d := by
  cases s with
  | nil => exact ⟨fun h => absurd h (by simp [utf8Bytes]), fun h => absurd h (by simp)⟩
  | cons c s =>
    rw [utf8Bytes_cons, List.head?_cons, Option.some.injEq, ← Char.toNat_inj]
    by_cases hc : c.toNat < 128
    · rw [utf8EncodeChar_small hc, List.singleton_append, List.head?_cons, Option.some.injEq]
      exact ⟨fun h => ofNat_inj hc hd h, fun h => by rw [h]⟩
    · constructor
      · intro h
        have hmem : UInt8.ofNat d.toNat ∈ String.utf8EncodeChar c := by
          cases hbytes : String.utf8EncodeChar c with
          | nil => exact absurd hbytes String.utf8EncodeChar_ne_nil
          | cons b bytes =>
            rw [hbytes, List.cons_append, List.head?_cons, Option.some.injEq] at h
            exact h ▸ List.mem_cons_self ..
        exact (mem_utf8EncodeChar hd).1 hmem
      · intro h
        omega

theorem pair_infix_cons {a b : Char} : [a, b] <:+: c :: s ↔ (a = c ∧ s.head? = some b) ∨ [a, b] <:+: s := by
  rw [List.infix_cons_iff, List.cons_prefix_cons, List.singleton_prefix_iff_head?_eq_some]

theorem needsTrailingWsStrip_iff : needsTrailingWsStrip s = false ↔ NoTrailing s := by
  induction s with
  | nil => exact ⟨fun _ ws _ => by simp, fun _ => rfl⟩
  | cons c s ih =>
    have hnotail : NoTrailing (c :: s) ↔ ¬ ((c = ' ' ∨ c = '\t') ∧ s.head? = some '\n') ∧ NoTrailing s := by
      simp only [NoTrailing, List.mem_cons, List.not_mem_nil, or_false, forall_eq_or_imp, forall_eq, pair_infix_cons,
        eq_comm (b := c)]
      tauto
    rw [hnotail, ← ih, needsTrailingWsStrip, needsTrailingWsStrip, utf8Bytes_cons]
    by_cases hc : c = ' ' ∨ c = '\t'
    · have hnewline : (utf8Bytes s).head? = some 0x0a ↔ s.head? = some '\n' := head?_utf8Bytes (d := '\n') (by decide)
      have hbyte : ∃ b, String.utf8EncodeChar c = [b] ∧ (b = 0x20 ∨ b = 0x09) := by
        rcases hc with rfl | rfl
        · exact ⟨_, rfl, .inl rfl⟩
        · exact ⟨_, rfl, .inr rfl⟩
      obtain ⟨b, hencode, hb⟩ := hbyte
      rw [hencode, ← hnewline, List.singleton_append]
      cases hrest : utf8Bytes s with
      | nil => simp [anyAdjacent]
      | cons d bytes =>
        rw [anyAdjacent_cons, Bool.or_eq_false_iff, List.head?_cons, Option.some.injEq]
        refine and_congr_left fun _ => ?_
        rcases hb with rfl | rfl <;> simp [isTrailingPair, hc]
    · have hskip : anyAdjacent isTrailingPair (String.utf8EncodeChar c ++ utf8Bytes s) =
          anyAdjacent isTrailingPair (utf8Bytes s) := by
        refine anyAdjacent_append fun a ha b => ?_
        have hspace : a ≠ 0x20 := by
          rintro rfl
          exact hc (.inl (Char.toNat_inj.1 ((mem_utf8EncodeChar (n := 32) (by decide)).1 ha)))
        have htab : a ≠ 0x09 := by
          rintro rfl
          exact hc (.inr (Char.toNat_inj.1 ((mem_utf8EncodeChar (n := 9) (by decide)).1 ha)))
        simp [isTrailingPair, hspace, htab]
      rw [hskip]
      exact ⟨fun h => ⟨fun hpair => hc hpair.1, h⟩, fun h => h.2⟩

private theorem replicate_free {run : ℕ} (hrun : run ≤ 2) : ¬ List.replicate 3 '\n' <:+: List.replicate run '\n' := by
  intro h
  have hlen := h.length_le
  rw [List.length_replicate, List.length_replicate] at hlen
  omega

/-- Another character ends the run of newlines. -/
private theorem noRun_cons {run : ℕ} (hrun : run ≤ 2) (hc : c ≠ '\n') :
    List.replicate 3 '\n' <:+: List.replicate run '\n' ++ c :: s ↔ List.replicate 3 '\n' <:+: s := by
  constructor
  · intro h
    by_contra hs
    refine free_append_cons (fun hmem => hc ?_) (replicate_free hrun) hs h
    exact (List.mem_replicate.1 hmem).2
  · intro h
    exact h.trans ((List.suffix_cons c s).trans (List.suffix_append _ _)).isInfix

private theorem replicate_cons (run : ℕ) :
    List.replicate run '\n' ++ '\n' :: s = List.replicate (run + 1) '\n' ++ s := by
  rw [List.replicate_succ', List.append_assoc, List.singleton_append]

private theorem hasThreeNewlines_skip {run : ℕ} (hne : bytes ≠ []) (h : ∀ b ∈ bytes, b ≠ 0x0a) :
    hasThreeNewlines run (bytes ++ rest) = hasThreeNewlines 0 rest := by
  induction bytes generalizing run with
  | nil => exact absurd rfl hne
  | cons b bytes ih =>
    rw [List.cons_append, hasThreeNewlines, if_neg (h b (List.mem_cons_self ..))]
    cases bytes with
    | nil => rfl
    | cons b' bytes => exact ih (List.cons_ne_nil _ _) fun x hx => h x (List.mem_cons_of_mem _ hx)

private theorem hasThreeNewlines_iff {run : ℕ} (hrun : run ≤ 2) :
    hasThreeNewlines run (utf8Bytes s) = false ↔ ¬ List.replicate 3 '\n' <:+: List.replicate run '\n' ++ s := by
  induction s generalizing run with
  | nil =>
    rw [List.append_nil]
    exact ⟨fun _ => replicate_free hrun, fun _ => rfl⟩
  | cons c s ih =>
    rw [utf8Bytes_cons]
    by_cases hc : c = '\n'
    · subst hc
      have hbyte : String.utf8EncodeChar '\n' = [0x0a] := rfl
      rw [hbyte, List.singleton_append, hasThreeNewlines, if_pos rfl, replicate_cons, Bool.or_eq_false_iff,
        decide_eq_false_iff_not]
      rcases Nat.lt_or_ge run 2 with hlt | hge
      · rw [ih hlt]
        exact ⟨fun h => h.2, fun h => ⟨by omega, h⟩⟩
      · obtain rfl : run = 2 := le_antisymm hrun hge
        exact ⟨fun h => absurd (by decide) h.1, fun h => absurd (List.prefix_append _ _).isInfix h⟩
    · have hnone : ∀ b ∈ String.utf8EncodeChar c, b ≠ 0x0a := by
        rintro b hb rfl
        exact hc (Char.toNat_inj.1 ((mem_utf8EncodeChar (n := 10) (by decide)).1 hb))
      rw [hasThreeNewlines_skip String.utf8EncodeChar_ne_nil hnone, noRun_cons hrun hc, ih (Nat.zero_le 2)]
      rfl

theorem needsNewlineCollapse_iff : needsNewlineCollapse s = false ↔ NoRun s := hasThreeNewlines_iff (Nat.zero_le 2)

end Bytes

section Rewrites
variable {s pending : List Char} {c : Char}

private theorem return_not_mem_from (afterReturn : Bool) : '\r' ∉ lineEndingsFrom afterReturn s := by
  induction s generalizing afterReturn with
  | nil => exact List.not_mem_nil
  | cons c s ih =>
    rw [lineEndingsFrom]
    split
    · exact List.not_mem_cons_of_ne_of_not_mem (by decide) (ih true)
    · next hc =>
      split
      · exact ih false
      · exact List.not_mem_cons_of_ne_of_not_mem (Ne.symm hc) (ih false)

theorem return_not_mem : '\r' ∉ normalizeLineEndings s := return_not_mem_from false

theorem normalizeLineEndings_id (h : '\r' ∉ s) : normalizeLineEndings s = s := by
  induction s with
  | nil => rfl
  | cons c s ih =>
    rw [List.mem_cons, not_or] at h
    rw [normalizeLineEndings, lineEndingsFrom, if_neg (Ne.symm h.1), if_neg fun hnl => absurd hnl.2 Bool.false_ne_true]
    exact congrArg _ (ih h.2)

theorem nbsp_not_mem : nbsp ∉ replaceNbspWithSpace s := by
  rw [replaceNbspWithSpace, List.mem_map]
  rintro ⟨c, -, hc⟩
  split at hc
  · exact absurd hc (by decide)
  · next hne => exact hne hc

theorem replaceNbspWithSpace_id (h : nbsp ∉ s) : replaceNbspWithSpace s = s := by
  conv_rhs => rw [← List.map_id s]
  refine List.map_congr_left fun c hc => ?_
  rw [if_neg fun hnbsp : c = nbsp => h (hnbsp ▸ hc)]
  rfl

theorem return_not_mem_replaceNbsp (h : '\r' ∉ s) : '\r' ∉ replaceNbspWithSpace s := by
  rw [replaceNbspWithSpace, List.mem_map]
  rintro ⟨c, hmem, hc⟩
  split at hc
  · exact absurd hc (by decide)
  · exact h (hc ▸ hmem)

private theorem mem_stripFrom (h : c ∈ stripFrom pending s) : c ∈ pending ∨ c ∈ s := by
  induction s generalizing pending with
  | nil => exact .inl h
  | cons ch s ih =>
    rw [stripFrom] at h
    split at h
    · rcases ih h with hp | hs
      · rcases List.mem_append.1 hp with hp | hch
        · exact .inl hp
        · exact .inr (List.mem_singleton.1 hch ▸ List.mem_cons_self ..)
      · exact .inr (List.mem_cons_of_mem _ hs)
    · split at h
      · next hnl =>
        rcases List.mem_cons.1 h with rfl | h
        · exact .inr (hnl ▸ List.mem_cons_self ..)
        · exact .inr (List.mem_cons_of_mem _ ((ih h).resolve_left List.not_mem_nil))
      · rcases List.mem_append.1 h with hp | h
        · exact .inl hp
        · rcases List.mem_cons.1 h with rfl | h
          · exact .inr (List.mem_cons_self ..)
          · exact .inr (List.mem_cons_of_mem _ ((ih h).resolve_left List.not_mem_nil))

/-- The rewrite makes no character of its own. -/
theorem mem_of_mem_strip (h : c ∈ stripTrailingLineWs s) : c ∈ s := (mem_stripFrom h).resolve_left List.not_mem_nil

/-- Held back characters are spaces and tabs. -/
private def Blank (pending : List Char) : Prop := ∀ c ∈ pending, c = ' ' ∨ c = '\t'

private theorem Blank.snoc (h : Blank pending) (hc : c = ' ' ∨ c = '\t') : Blank (pending ++ [c]) := by
  intro x hx
  rcases List.mem_append.1 hx with hx | hx
  · exact h x hx
  · exact List.mem_singleton.1 hx ▸ hc

private theorem Blank.nil : Blank [] := fun _ h => absurd h List.not_mem_nil

private theorem Blank.noTrailing (h : Blank pending) : NoTrailing pending := by
  intro ws _ hin
  have hmem : '\n' ∈ pending := hin.subset (List.mem_cons_of_mem _ (List.mem_cons_self ..))
  rcases h _ hmem with hc | hc <;> exact absurd hc (by decide)

private theorem noTrailing_from (hblank : Blank pending) : NoTrailing (stripFrom pending s) := by
  induction s generalizing pending with
  | nil => exact hblank.noTrailing
  | cons ch s ih =>
    rw [stripFrom]
    split
    · next hws => exact ih (hblank.snoc hws)
    · next hws =>
      split
      · intro ws hmem hin
        rcases pair_infix_cons.1 hin with ⟨hnl, -⟩ | hin
        · subst hnl
          exact absurd hmem (by decide)
        · exact ih Blank.nil ws hmem hin
      · next hnl =>
        intro ws hmem
        refine free_append_cons ?_ (hblank.noTrailing ws hmem) (ih Blank.nil ws hmem)
        simp only [List.mem_cons, List.not_mem_nil, or_false] at hmem ⊢
        rintro (rfl | h)
        · exact hws hmem
        · exact hnl h

theorem noTrailing_strip : NoTrailing (stripTrailingLineWs s) := noTrailing_from Blank.nil

private theorem stripFrom_id (hblank : Blank pending) (h : NoTrailing (pending ++ s)) :
    stripFrom pending s = pending ++ s := by
  induction s generalizing pending with
  | nil => rw [stripFrom, List.append_nil]
  | cons ch s ih =>
    have hrest : NoTrailing s := fun ws hmem hin =>
      h ws hmem (hin.trans ((List.suffix_cons ch s).trans (List.suffix_append _ _)).isInfix)
    rw [stripFrom]
    split
    · next hws =>
      have hsnoc : pending ++ [ch] ++ s = pending ++ ch :: s := by rw [List.append_assoc, List.singleton_append]
      rw [ih (hblank.snoc hws) (hsnoc ▸ h), hsnoc]
    · split
      · next hnl =>
        subst hnl
        have hnone : pending = [] := by
          rcases List.eq_nil_or_concat' pending with hnil | ⟨front, ws, rfl⟩
          · exact hnil
          · have hws := hblank ws (List.mem_append_right _ (List.mem_singleton_self ws))
            refine absurd ⟨front, s, ?_⟩ (h ws (by simpa using hws))
            simp
        rw [hnone, ih Blank.nil hrest, List.nil_append, List.nil_append]
      · rw [ih Blank.nil hrest, List.nil_append]

theorem stripTrailingLineWs_id (h : NoTrailing s) : stripTrailingLineWs s = s := stripFrom_id Blank.nil h

private theorem mem_collapseFrom {run : ℕ} (h : c ∈ collapseFrom run s) : c ∈ s := by
  induction s generalizing run with
  | nil => exact h
  | cons ch s ih =>
    rw [collapseFrom] at h
    split at h
    · next hnl =>
      split at h
      · rcases List.mem_cons.1 h with rfl | h
        · exact hnl ▸ List.mem_cons_self ..
        · exact List.mem_cons_of_mem _ (ih h)
      · exact List.mem_cons_of_mem _ (ih h)
    · rcases List.mem_cons.1 h with rfl | h
      · exact List.mem_cons_self ..
      · exact List.mem_cons_of_mem _ (ih h)

/-- The rewrite makes no character of its own. -/
theorem mem_of_mem_collapse (h : c ∈ collapseNewlineRuns s) : c ∈ s := mem_collapseFrom h

private theorem noRun_from (run : ℕ) :
    ¬ List.replicate 3 '\n' <:+: List.replicate (min run 2) '\n' ++ collapseFrom run s := by
  induction s generalizing run with
  | nil =>
    rw [collapseFrom, List.append_nil]
    exact replicate_free (Nat.min_le_right ..)
  | cons ch s ih =>
    rw [collapseFrom]
    split
    · split
      · next hle =>
        have hmin : min run 2 + 1 = min (run + 1) 2 := by omega
        rw [replicate_cons, hmin]
        exact ih _
      · next hgt =>
        have hmin : min run 2 = min (run + 1) 2 := by omega
        rw [hmin]
        exact ih _
    · next hnl =>
      rw [noRun_cons (Nat.min_le_right ..) hnl]
      exact ih 0

theorem noRun_collapse : NoRun (collapseNewlineRuns s) := noRun_from 0

private theorem collapseFrom_id {run : ℕ} (hrun : run ≤ 2)
    (h : ¬ List.replicate 3 '\n' <:+: List.replicate run '\n' ++ s) : collapseFrom run s = s := by
  induction s generalizing run with
  | nil => rfl
  | cons ch s ih =>
    rw [collapseFrom]
    split
    · next hnl =>
      subst hnl
      rw [replicate_cons] at h
      rcases Nat.lt_or_ge run 2 with hlt | hge
      · rw [if_pos (Nat.succ_le_of_lt hlt), ih hlt h]
      · obtain rfl : run = 2 := le_antisymm hrun hge
        exact absurd (List.prefix_append _ _).isInfix h
    · next hnl =>
      rw [noRun_cons hrun hnl] at h
      rw [ih (Nat.zero_le 2) h]

theorem collapseNewlineRuns_id (h : NoRun s) : collapseNewlineRuns s = s := collapseFrom_id (Nat.zero_le 2) h

private theorem head?_collapse : (collapseNewlineRuns s).head? = s.head? := by
  cases s with
  | nil => rfl
  | cons c s =>
    rw [collapseNewlineRuns, collapseFrom]
    split
    · next hnl =>
      rw [hnl]
      rfl
    · rfl

private theorem pair_collapseFrom {ws : Char} {run : ℕ} (hws : ws ≠ '\n')
    (h : [ws, '\n'] <:+: collapseFrom run s) : [ws, '\n'] <:+: s := by
  induction s generalizing run with
  | nil => exact h
  | cons ch s ih =>
    rw [collapseFrom] at h
    split at h
    · split at h
      · rcases pair_infix_cons.1 h with ⟨hnl, -⟩ | h
        · exact absurd hnl hws
        · exact pair_infix_cons.2 (.inr (ih h))
      · exact pair_infix_cons.2 (.inr (ih h))
    · rcases pair_infix_cons.1 h with ⟨hch, hhead⟩ | h
      · exact pair_infix_cons.2 (.inl ⟨hch, head?_collapse ▸ hhead⟩)
      · exact pair_infix_cons.2 (.inr (ih h))

/-- The first newline behind a space stays, so no other newline comes to stand there. -/
theorem NoTrailing.collapse (h : NoTrailing s) : NoTrailing (collapseNewlineRuns s) := by
  intro ws hmem hin
  refine h ws hmem (pair_collapseFrom ?_ hin)
  rintro rfl
  exact absurd hmem (by decide)

end Rewrites

section Normalize
variable {s : List Char}

private theorem rewrite_unless {needs : Bool} {cur cur' : List Char} (h : needs = false → cur' = cur) :
    (if needs then cur' else cur) = cur' := by
  cases needs with
  | true => rfl
  | false => exact (h rfl).symm

/-- The scans are exact: where one finds nothing, its rewrite changes nothing. -/
theorem normalizePromptWith_eq (s : List Char) : normalizePromptWith s true = rewritten s := by
  have hreturn : ∀ cur, (if needsLineEndingNormalize cur then normalizeLineEndings cur else cur) =
      normalizeLineEndings cur := fun cur => rewrite_unless fun h =>
    normalizeLineEndings_id fun hmem => by simp [needsLineEndingNormalize_iff.2 hmem] at h
  have hnbsp : ∀ cur, (if needsNbspReplace cur then replaceNbspWithSpace cur else cur) =
      replaceNbspWithSpace cur := fun cur => rewrite_unless fun h =>
    replaceNbspWithSpace_id fun hmem => by simp [needsNbspReplace_iff.2 hmem] at h
  have hstrip : ∀ cur, (if needsTrailingWsStrip cur then stripTrailingLineWs cur else cur) =
      stripTrailingLineWs cur := fun cur => rewrite_unless fun h =>
    stripTrailingLineWs_id (needsTrailingWsStrip_iff.1 h)
  have hcollapse : ∀ cur, (if needsNewlineCollapse cur then collapseNewlineRuns cur else cur) =
      collapseNewlineRuns cur := fun cur => rewrite_unless fun h =>
    collapseNewlineRuns_id (needsNewlineCollapse_iff.1 h)
  rw [normalizePromptWith, Bool.not_true, if_neg Bool.false_ne_true]
  simp only [hreturn, hnbsp, hstrip, hcollapse]
  rfl

/-- A text that no rewrite has anything to do on. -/
structure Normal (s : List Char) : Prop where
  noReturn : '\r' ∉ s
  noNbsp : nbsp ∉ s
  noTrailing : NoTrailing s
  noRun : NoRun s

/-- What an earlier rewrite removed, no later one brings back. -/
theorem normal_rewritten (s : List Char) : Normal (rewritten s) where
  noReturn h := return_not_mem_replaceNbsp return_not_mem (mem_of_mem_strip (mem_of_mem_collapse h))
  noNbsp h := nbsp_not_mem (mem_of_mem_strip (mem_of_mem_collapse h))
  noTrailing := noTrailing_strip.collapse
  noRun := noRun_collapse

theorem Normal.rewritten_eq (h : Normal s) : rewritten s = s := by
  rw [rewritten, normalizeLineEndings_id h.noReturn, replaceNbspWithSpace_id h.noNbsp,
    stripTrailingLineWs_id h.noTrailing, collapseNewlineRuns_id h.noRun]

/-- Normalization is the four rewrites, leaves nothing to rewrite and is idempotent. -/
theorem normalizePromptWith_normal (s : List Char) :
    normalizePromptWith s true = rewritten s ∧
      '\r' ∉ normalizePromptWith s true ∧ nbsp ∉ normalizePromptWith s true ∧
      NoTrailing (normalizePromptWith s true) ∧ NoRun (normalizePromptWith s true) ∧
      normalizePromptWith (normalizePromptWith s true) true = normalizePromptWith s true := by
  have hnormal := normal_rewritten s
  rw [normalizePromptWith_eq, normalizePromptWith_eq]
  exact ⟨rfl, hnormal.noReturn, hnormal.noNbsp, hnormal.noTrailing, hnormal.noRun, hnormal.rewritten_eq⟩

end Normalize
end Hipscope.Tokenizer
