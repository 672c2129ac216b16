import Hipscope.Hfq.Container
import Hipscope.Text.Json

/-! Over a JSON object the brace scan stops right behind the closing brace, whatever its strings
hold. -/
namespace Hipscope.Hfq
open Text

/-- The scan goes over the word from one state to the other, wherever the word stands. -/
def Carries (s s' : Scan) (word : List UInt8) : Prop :=
  ∀ i rest, jsonEnd s i (word ++ rest) = jsonEnd s' (i + word.length) rest

/-- Outside of strings, with `k` braces open. -/
def outside (k : ℕ) : Scan := ⟨Int32.ofNat k, false, false⟩

/-- Inside a string. -/
def inside (k : ℕ) : Scan := ⟨Int32.ofNat k, true, false⟩

namespace Carries
variable {s s' s'' : Scan} {x y : List UInt8}

theorem nil (s : Scan) : Carries s s [] := fun _ _ => rfl

theorem append (hx : Carries s s' x) (hy : Carries s' s'' y) : Carries s s'' (x ++ y) := by
  intro i rest
  rw [List.append_assoc, hx, hy, List.length_append, Nat.add_assoc]

/-- A state that every byte keeps is kept by the word. -/
theorem of_bytes (h : ∀ b ∈ x, Carries s s [b]) : Carries s s x := by
  induction x with
  | nil => exact nil s
  | cons b x ih =>
    exact append (x := [b]) (h b List.mem_cons_self) (ih fun b' hb' => h b' (List.mem_cons_of_mem b hb'))

end Carries

section Bytes
variable {k : ℕ} {b : UInt8}

/-- One byte of the scan. -/
private theorem jsonEnd_cons (s : Scan) (i : ℕ) (b : UInt8) (rest : List UInt8) :
    jsonEnd s i (b :: rest) =
      if s.escape then jsonEnd ⟨s.braceDepth, s.inString, false⟩ (i + 1) rest
      else if b = 0x5C ∧ s.inString then jsonEnd ⟨s.braceDepth, s.inString, true⟩ (i + 1) rest
      else if b = 0x22 then jsonEnd ⟨s.braceDepth, !s.inString, false⟩ (i + 1) rest
      else if s.inString then jsonEnd s (i + 1) rest
      else
        let braceDepth := if b = 0x7B then s.braceDepth + 1 else s.braceDepth
        if b = 0x7D then
          if braceDepth - 1 = 0 then i + 1 else jsonEnd ⟨braceDepth - 1, s.inString, false⟩ (i + 1) rest
        else jsonEnd ⟨braceDepth, s.inString, false⟩ (i + 1) rest := rfl

theorem carries_plain (hquote : b ≠ 0x22) (hopen : b ≠ 0x7B) (hclose : b ≠ 0x7D) :
    Carries (outside k) (outside k) [b] := by
  intro i rest
  simp [outside, jsonEnd_cons, hquote, hopen, hclose]

theorem carries_within (hquote : b ≠ 0x22) (hescape : b ≠ 0x5C) : Carries (inside k) (inside k) [b] := by
  intro i rest
  simp [inside, jsonEnd_cons, hquote, hescape]

theorem carries_escape (b : UInt8) : Carries (inside k) (inside k) [0x5C, b] := by
  intro i rest
  simp [inside, jsonEnd_cons]

theorem carries_quote : Carries (outside k) (inside k) [0x22] := by
  intro i rest
  simp [outside, inside, jsonEnd_cons]

theorem carries_unquote : Carries (inside k) (outside k) [0x22] := by
  intro i rest
  simp [outside, inside, jsonEnd_cons]

private theorem depth_ne_zero (hpos : 0 < k) (hk : k < 2 ^ 31) : Int32.ofNat k ≠ 0 := by
  intro h
  have hint := congrArg Int32.toInt h
  rw [Int32.toInt_ofNat_of_lt hk] at hint
  exact hpos.ne' (Int.ofNat_eq_zero.1 hint)

theorem carries_open : Carries (outside k) (outside (k + 1)) [0x7B] := by
  intro i rest
  simp [outside, jsonEnd_cons]

theorem carries_close (hpos : 0 < k) (hk : k < 2 ^ 31) : Carries (outside (k + 1)) (outside k) [0x7D] := by
  intro i rest
  simp [outside, jsonEnd_cons, depth_ne_zero hpos hk]

theorem jsonEnd_close (i : ℕ) (rest : List UInt8) : jsonEnd (outside 1) i (0x7D :: rest) = i + 1 := by
  simp [outside, jsonEnd_cons]

end Bytes

section Texts
variable {k d : ℕ} {s : List Char}

private theorem not_mem_utf8Bytes {a : Char} (ha : a.toNat < 128) (h : a ∉ s) {b : UInt8} (hb : b ∈ utf8Bytes s) :
    b ≠ UInt8.ofNat a.toNat := by
  rintro rfl
  exact h ((mem_utf8Bytes ha).1 hb)

theorem carries_plain_text (h : ∀ c ∈ s, c ∉ ['"', '{', '}']) : Carries (outside k) (outside k) (utf8Bytes s) := by
  refine .of_bytes fun b hb => carries_plain ?_ ?_ ?_
  · exact not_mem_utf8Bytes (a := '"') (by decide) (fun hin => h _ hin (by decide)) hb
  · exact not_mem_utf8Bytes (a := '{') (by decide) (fun hin => h _ hin (by decide)) hb
  · exact not_mem_utf8Bytes (a := '}') (by decide) (fun hin => h _ hin (by decide)) hb

theorem carries_text_within (h : ∀ c ∈ s, c ∉ ['"', '\\']) : Carries (inside k) (inside k) (utf8Bytes s) := by
  refine .of_bytes fun b hb => carries_within ?_ ?_
  · exact not_mem_utf8Bytes (a := '"') (by decide) (fun hin => h _ hin (by decide)) hb
  · exact not_mem_utf8Bytes (a := '\\') (by decide) (fun hin => h _ hin (by decide)) hb

theorem carries_blank (h : Json.Blank s) : Carries (outside k) (outside k) (utf8Bytes s) := by
  refine carries_plain_text fun c hc => ?_
  have hall : ∀ c ∈ [' ', '\n', '\r', '\t'], c ∉ ['"', '{', '}'] := by decide
  exact hall c (h c hc)

theorem carries_scalar (h : Json.Scalar s) : Carries (outside k) (outside k) (utf8Bytes s) := by
  refine carries_plain_text fun c hc => ?_
  have hall : ∀ c ∈ "nulltruefalse0123456789+-.eE".toList, c ∉ ['"', '{', '}'] := by decide
  exact hall c (h.2 c hc)

private theorem ascii_cons {c : Char} (hc : c.toNat < 128) (s : List Char) :
    utf8Bytes (c :: s) = [UInt8.ofNat c.toNat] ++ utf8Bytes s := by
  rw [utf8Bytes_cons, utf8EncodeChar_small hc]

/-- A string's quotes and braces do not count, whether escaped or not. -/
theorem carries_quoted (h : Json.Quoted s) : Carries (inside k) (inside k) (utf8Bytes s) := by
  induction h with
  | empty => exact .nil _
  | @plain c s hc h ih =>
    rw [show c :: s = [c] ++ s from rfl, utf8Bytes_append]
    refine (carries_text_within fun c' hc' => ?_).append ih
    obtain rfl := List.mem_singleton.1 hc'
    simp [hc.1, hc.2.1]
  | @escaped c s hc h ih =>
    have hascii : ∀ c ∈ "\"\\/bfnrt".toList, c.toNat < 128 := by decide
    rw [ascii_cons (by decide), ascii_cons (hascii c hc), ← List.append_assoc]
    exact (carries_escape _).append ih
  | @unicode digits s hlen hdigits h ih =>
    have hplain : ∀ c ∈ "0123456789abcdefABCDEF".toList, c ∉ ['"', '\\'] := by decide
    rw [ascii_cons (by decide), ascii_cons (by decide), ← List.append_assoc, utf8Bytes_append]
    exact (carries_escape _).append ((carries_text_within fun c hc => hplain c (hdigits c hc)).append ih)

theorem carries_separated {items : List (List Char)} (h : ∀ s ∈ items, Carries (outside k) (outside k) (utf8Bytes s)) :
    Carries (outside k) (outside k) (utf8Bytes ([','].intercalate items)) := by
  induction items with
  | nil => exact .nil _
  | cons s items ih =>
    have hrest := ih fun s hs => h s (List.mem_cons_of_mem _ hs)
    cases items with
    | nil =>
      rw [List.intercalate_singleton]
      exact h s List.mem_cons_self
    | cons s' items =>
      rw [List.intercalate_cons_cons, utf8Bytes_append, utf8Bytes_append]
      refine ((h s List.mem_cons_self).append (carries_plain_text fun c hc => ?_)).append hrest
      obtain rfl := List.mem_singleton.1 hc
      decide

private theorem carries_enclosed {l r : Char} {s₁ s₂ s₃ s₄ : Scan} {body : List Char} (hl : l.toNat < 128)
    (hr : r.toNat < 128) (hopen : Carries s₁ s₂ [UInt8.ofNat l.toNat]) (hbody : Carries s₂ s₃ (utf8Bytes body))
    (hclose : Carries s₃ s₄ [UInt8.ofNat r.toNat]) : Carries s₁ s₄ (utf8Bytes (l :: (body ++ [r]))) := by
  rw [ascii_cons hl, utf8Bytes_append, ascii_cons hr]
  exact hopen.append (hbody.append (hclose.append (.nil _)))

/-- Inside an object the scan goes over every part of a JSON text. -/
theorem carries_grammar {p : Json.Part} (h : Json.Grammar p d s) (hpos : 0 < k) (hdepth : k + d < 2 ^ 31) :
    Carries (outside k) (outside k) (utf8Bytes s) := by
  induction h generalizing k with
  | scalar h => exact carries_scalar h
  | string h => exact carries_enclosed (by decide) (by decide) carries_quote (carries_quoted h) carries_unquote
  | padded hl hr h ih =>
    rw [utf8Bytes_append, utf8Bytes_append]
    exact (carries_blank hl).append ((ih hpos hdepth).append (carries_blank hr))
  | noItems h =>
    exact carries_enclosed (by decide) (by decide) (carries_plain (by decide) (by decide) (by decide))
      (carries_blank h) (carries_plain (by decide) (by decide) (by decide))
  | array h ih =>
    exact carries_enclosed (by decide) (by decide) (carries_plain (by decide) (by decide) (by decide))
      (carries_separated fun s hs => ih s hs hpos hdepth) (carries_plain (by decide) (by decide) (by decide))
  | ofObject h ih => exact ih hpos hdepth
  | @member d l key m s hl hkey hm h ih =>
    have hname : Carries (outside k) (outside k) (utf8Bytes ('"' :: (key ++ ['"']))) :=
      carries_enclosed (by decide) (by decide) carries_quote (carries_quoted hkey) carries_unquote
    have hcolon : Carries (outside k) (outside k) (utf8Bytes [':']) := by
      refine carries_plain_text fun c hc => ?_
      obtain rfl := List.mem_singleton.1 hc
      decide
    have hsplit : l ++ ('"' :: (key ++ '"' :: (m ++ ':' :: s))) = l ++ ('"' :: (key ++ ['"']) ++ (m ++ ([':'] ++ s))) := by
      simp
    rw [hsplit, utf8Bytes_append, utf8Bytes_append, utf8Bytes_append, utf8Bytes_append]
    exact (carries_blank hl).append (hname.append ((carries_blank hm).append (hcolon.append (ih hpos hdepth))))
  | noMembers h =>
    exact carries_enclosed (by decide) (by decide) carries_open (carries_blank h) (carries_close hpos (by omega))
  | object h ih =>
    exact carries_enclosed (by decide) (by decide) carries_open
      (carries_separated fun s hs => ih s hs (Nat.succ_pos k) (by omega)) (carries_close hpos (by omega))

private theorem jsonEnd_enclosed {body : List Char} (hbody : Carries (outside 1) (outside 1) (utf8Bytes body))
    (rest : List UInt8) : jsonEnd scanStart 0 (utf8Bytes ('{' :: (body ++ ['}'])) ++ rest) =
      (utf8Bytes ('{' :: (body ++ ['}']))).length := by
  have hopen : Carries scanStart (outside 1) [UInt8.ofNat '{'.toNat] := carries_open (k := 0)
  have hclosing : utf8Bytes ['}'] = [0x7D] := by decide
  rw [ascii_cons (by decide), utf8Bytes_append, hclosing, ← List.append_assoc, List.append_assoc,
    (hopen.append hbody) 0 ([0x7D] ++ rest)]
  change jsonEnd (outside 1) _ (0x7D :: rest) = _
  rw [jsonEnd_close]
  simp only [List.length_append, List.length_singleton, Nat.zero_add]

/-- The scan finds the end of the metadata, whatever stands behind it. -/
theorem jsonEnd_object (h : Json.IsObject d s) (hd : d < 2 ^ 31) (rest : List UInt8) :
    jsonEnd scanStart 0 (utf8Bytes s ++ rest) = (utf8Bytes s).length := by
  cases h with
  | noMembers h => exact jsonEnd_enclosed (carries_blank h) rest
  | object h =>
    exact jsonEnd_enclosed (carries_separated fun s hs => carries_grammar (h s hs) Nat.one_pos (by omega)) rest

end Texts
end Hipscope.Hfq
