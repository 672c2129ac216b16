import Mathlib.Data.Char
import Hipscope.Text.Chars

/-! The bytes of single characters, and reading a text back from its bytes. -/
namespace Hipscope.Text

/-- How many bytes at the front of an ill-formed sequence one replacement character stands for: all
that could still have begun a character. -/
def illFormedLength : List UInt8 → ℕ
  | b :: next :: rest =>
    let accepts :=
      if b = 0xE0 then 0xA0 ≤ next ∧ next ≤ 0xBF
      else if b = 0xED then 0x80 ≤ next ∧ next ≤ 0x9F
      else if b = 0xF0 then 0x90 ≤ next ∧ next ≤ 0xBF
      else if b = 0xF4 then 0x80 ≤ next ∧ next ≤ 0x8F
      else 0xE0 ≤ b ∧ b ≤ 0xF4 ∧ 0x80 ≤ next ∧ next ≤ 0xBF
    if accepts then
      if 0xF0 ≤ b ∧ (rest.head?.any fun third => 0x80 ≤ third && third ≤ 0xBF) then 3 else 2
    else 1
  | _ => 1

def lossyFrom : ℕ → List UInt8 → List Char
  | 0, _ => []
  | _, [] => []
  | fuel + 1, b :: rest =>
    match ByteArray.utf8DecodeChar? (b :: rest).toByteArray 0 with
    | some c => c :: lossyFrom fuel ((b :: rest).drop c.utf8Size)
    | none => Char.ofNat 0xFFFD :: lossyFrom fuel ((b :: rest).drop (illFormedLength (b :: rest)))

/-- The text of the bytes, with replacement characters where they are not UTF-8. -/
def fromUtf8Lossy (bytes : List UInt8) : List Char := lossyFrom bytes.length bytes

def utf8From : ℕ → List UInt8 → Option (List Char)
  | _, [] => some []
  | 0, _ :: _ => none
  | fuel + 1, b :: rest =>
    match ByteArray.utf8DecodeChar? (b :: rest).toByteArray 0 with
    | some c => (utf8From fuel ((b :: rest).drop c.utf8Size)).map (c :: ·)
    | none => none

/-- The text of the bytes if they are UTF-8. -/
def fromUtf8 (bytes : List UInt8) : Option (List Char) := utf8From bytes.length bytes

section Encoded
variable {c : Char}

theorem utf8EncodeChar_small (h : c.toNat < 128) : String.utf8EncodeChar c = [UInt8.ofNat c.toNat] := by
  have hval : c.val.toNat ≤ 127 := by
    change c.toNat ≤ 127
    omega
  rw [String.utf8EncodeChar]
  simp only [if_pos hval]
  rfl

private theorem ofNat_ge {n : ℕ} (hn : 128 ≤ n) (h : n < 256) : 128 ≤ (UInt8.ofNat n).toNat := by
  rwa [UInt8.toNat_ofNat_of_lt' h]

/-- The bytes of a character that is not ASCII. -/
theorem utf8EncodeChar_wide (h : 128 ≤ c.toNat) : ∀ b ∈ String.utf8EncodeChar c, 128 ≤ b.toNat := by
  have hval : ¬ c.val.toNat ≤ 127 := by
    change ¬ c.toNat ≤ 127
    omega
  have hbyte : ∀ m n : ℕ, 128 ≤ n → m + n < 256 → 128 ≤ (UInt8.ofNat (m + n)).toNat := fun m n hn hlt =>
    ofNat_ge (by omega) hlt
  rw [String.utf8EncodeChar]
  simp only [if_neg hval]
  split
  · intro b hb
    simp only [List.mem_cons, List.not_mem_nil, or_false] at hb
    rcases hb with rfl | rfl
    · exact hbyte _ _ (by decide) (by omega)
    · exact hbyte _ _ (by decide) (by omega)
  · split
    · intro b hb
      simp only [List.mem_cons, List.not_mem_nil, or_false] at hb
      rcases hb with rfl | rfl | rfl
      · exact hbyte _ _ (by decide) (by omega)
      · exact hbyte _ _ (by decide) (by omega)
      · exact hbyte _ _ (by decide) (by omega)
    · intro b hb
      simp only [List.mem_cons, List.not_mem_nil, or_false] at hb
      rcases hb with rfl | rfl | rfl | rfl
      · exact hbyte _ _ (by decide) (by omega)
      · exact hbyte _ _ (by decide) (by omega)
      · exact hbyte _ _ (by decide) (by omega)
      · exact hbyte _ _ (by decide) (by omega)

theorem ofNat_inj {m n : ℕ} (hm : m < 128) (hn : n < 128) (h : UInt8.ofNat m = UInt8.ofNat n) : m = n := by
  have := congrArg UInt8.toNat h
  rwa [UInt8.toNat_ofNat_of_lt' (by change m < 256; omega), UInt8.toNat_ofNat_of_lt' (by change n < 256; omega)] at this

/-- An ASCII byte stands for its character only. -/
theorem mem_utf8EncodeChar {n : ℕ} (hn : n < 128) : UInt8.ofNat n ∈ String.utf8EncodeChar c ↔ c.toNat = n := by
  by_cases hc : c.toNat < 128
  · rw [utf8EncodeChar_small hc, List.mem_singleton]
    exact ⟨fun h => (ofNat_inj hn hc h).symm, fun h => by rw [h]⟩
  · constructor
    · intro h
      have hwide := utf8EncodeChar_wide (Nat.le_of_not_lt hc) _ h
      rw [UInt8.toNat_ofNat_of_lt' (by change n < 256; omega)] at hwide
      omega
    · intro h
      omega

/-- An ASCII character is in a text when its byte is in the text's bytes. -/
theorem mem_utf8Bytes {a : Char} (ha : a.toNat < 128) {s : List Char} :
    UInt8.ofNat a.toNat ∈ utf8Bytes s ↔ a ∈ s := by
  rw [utf8Bytes, List.mem_flatMap]
  constructor
  · rintro ⟨c, hc, hmem⟩
    have hsame : c = a := Char.toNat_inj.1 ((mem_utf8EncodeChar ha).1 hmem)
    exact hsame ▸ hc
  · intro h
    exact ⟨a, h, (mem_utf8EncodeChar ha).2 rfl⟩

end Encoded

section Ascii
variable {m s : List Char}

/-- A text's bytes begin with ASCII bytes as the text does with their characters. -/
theorem prefix_of_utf8Bytes (hm : ∀ a ∈ m, a.toNat < 128) (h : utf8Bytes m <+: utf8Bytes s) : m <+: s := by
  induction m generalizing s with
  | nil => exact List.nil_prefix
  | cons a m ih =>
    have ha := hm a List.mem_cons_self
    rw [utf8Bytes_cons, utf8EncodeChar_small ha, List.singleton_append] at h
    cases s with
    | nil => exact absurd (List.prefix_nil.mp h) (List.cons_ne_nil _ _)
    | cons c s =>
      have hne := List.length_pos_iff.mp (Nat.lt_of_lt_of_eq c.utf8Size_pos (String.length_utf8EncodeChar c).symm)
      obtain ⟨b, rest, hbytes⟩ := List.exists_cons_of_ne_nil hne
      rw [utf8Bytes_cons, hbytes, List.cons_append, List.cons_prefix_cons] at h
      have hsame : c = a := by
        rw [← Char.toNat_inj]
        apply (mem_utf8EncodeChar ha).mp
        rw [hbytes, h.1]
        exact List.mem_cons_self
      subst hsame
      rw [utf8EncodeChar_small ha] at hbytes
      obtain ⟨-, rfl⟩ := List.cons.inj hbytes
      exact List.cons_prefix_cons.mpr ⟨rfl, ih (fun a ha => hm a (List.mem_cons_of_mem _ ha)) h.2⟩

theorem utf8Bytes_prefix (h : m <+: s) : utf8Bytes m <+: utf8Bytes s := by
  obtain ⟨t, rfl⟩ := h
  exact ⟨utf8Bytes t, (utf8Bytes_append m t).symm⟩

theorem utf8Bytes_ne_nil (h : s ≠ []) : utf8Bytes s ≠ [] := by
  obtain ⟨c, s, rfl⟩ := List.exists_cons_of_ne_nil h
  rw [utf8Bytes_cons]
  exact List.append_ne_nil_of_left_ne_nil String.utf8EncodeChar_ne_nil _

/-- An ASCII needle found in a text's bytes stands in the text. -/
theorem occurs_of_utf8Bytes (hne : m ≠ []) (hm : ∀ a ∈ m, a.toNat < 128) {i : ℕ} (h : utf8Bytes m <+: (utf8Bytes s).drop i) :
    ∃ front back, s = front ++ (m ++ back) ∧ i = (utf8Bytes front).length := by
  obtain ⟨a, m', rfl⟩ := List.exists_cons_of_ne_nil hne
  have ha := hm a List.mem_cons_self
  have hbytes : utf8Bytes (a :: m') = UInt8.ofNat a.toNat :: utf8Bytes m' := by
    rw [utf8Bytes_cons, utf8EncodeChar_small ha]
    rfl
  induction s generalizing i with
  | nil =>
    have hnil : utf8Bytes [] = [] := rfl
    rw [hnil, List.drop_nil, hbytes] at h
    exact absurd (List.prefix_nil.mp h) (List.cons_ne_nil _ _)
  | cons c s ih =>
    obtain rfl | hpos := Nat.eq_zero_or_pos i
    · obtain ⟨back, hback⟩ := prefix_of_utf8Bytes hm h
      exact ⟨[], back, hback.symm, rfl⟩
    obtain hlt | hge := Nat.lt_or_ge i (String.utf8EncodeChar c).length
    · -- inside a character no byte is ASCII
      rw [utf8Bytes_cons c, List.drop_append_of_le_length hlt.le, List.drop_eq_getElem_cons hlt, hbytes, List.cons_append,
        List.cons_prefix_cons] at h
      have hchar := (mem_utf8EncodeChar ha).mp (h.1 ▸ List.getElem_mem hlt)
      rw [utf8EncodeChar_small (hchar ▸ ha), List.length_singleton] at hlt
      omega
    · rw [utf8Bytes_cons c, List.drop_append, List.drop_eq_nil_of_le hge, List.nil_append] at h
      obtain ⟨front, back, rfl, hi⟩ := ih h
      refine ⟨c :: front, back, rfl, ?_⟩
      rw [utf8Bytes_cons, List.length_append, ← hi]
      omega

end Ascii

private theorem lossyFrom_utf8Bytes (text : List Char) {fuel : ℕ} (hfuel : (utf8Bytes text).length ≤ fuel) :
    lossyFrom fuel (utf8Bytes text) = text := by
  induction text generalizing fuel with
  | nil => cases fuel <;> rfl
  | cons c text ih =>
    have hsize : (String.utf8EncodeChar c).length = c.utf8Size := String.length_utf8EncodeChar c
    have hpos : 0 < c.utf8Size := c.utf8Size_pos
    rw [utf8Bytes_cons] at hfuel ⊢
    have hdecode : ByteArray.utf8DecodeChar? (String.utf8EncodeChar c ++ utf8Bytes text).toByteArray 0 = some c := by
      rw [List.toByteArray_append]
      exact ByteArray.utf8DecodeChar?_utf8EncodeChar_append
    have hdrop : (String.utf8EncodeChar c ++ utf8Bytes text).drop c.utf8Size = utf8Bytes text := by
      rw [← hsize, List.drop_left]
    rw [List.length_append] at hfuel
    cases hword : String.utf8EncodeChar c ++ utf8Bytes text with
    | nil =>
      have hlen := congrArg List.length hword
      rw [List.length_append, List.length_nil] at hlen
      omega
    | cons b rest =>
      cases fuel with
      | zero => omega
      | succ fuel =>
        rw [hword] at hdecode hdrop
        rw [lossyFrom, hdecode]
        change c :: lossyFrom fuel ((b :: rest).drop c.utf8Size) = c :: text
        rw [hdrop, ih (by omega)]

/-- A text is read back from its own bytes. -/
theorem fromUtf8Lossy_utf8Bytes (text : List Char) : fromUtf8Lossy (utf8Bytes text) = text :=
  lossyFrom_utf8Bytes text le_rfl

end Hipscope.Text
