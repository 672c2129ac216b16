import Mathlib.Data.List.Basic
import Mathlib.Data.String.Basic
import Mathlib.Data.Int.Notation

/-! The JSON grammar, as a relation on texts. -/
namespace Hipscope.Json

def Blank (s : List Char) : Prop := ∀ c ∈ s, c ∈ [' ', '\n', '\r', '\t']

/-- A literal or a number: a word of letters, digits and signs. -/
def Scalar (s : List Char) : Prop := s ≠ [] ∧ ∀ c ∈ s, c ∈ "nulltruefalse0123456789+-.eE".toList

/-- What stands between the quotes of a string. -/
inductive Quoted : List Char → Prop
  | empty : Quoted []
  | plain {c : Char} {s : List Char} (hc : c ≠ '"' ∧ c ≠ '\\' ∧ 0x20 ≤ c.toNat) (h : Quoted s) :
      Quoted (c :: s)
  | escaped {c : Char} {s : List Char} (hc : c ∈ "\"\\/bfnrt".toList) (h : Quoted s) :
      Quoted ('\\' :: c :: s)
  | unicode {digits s : List Char} (hlen : digits.length = 4)
      (hdigits : ∀ c ∈ digits, c ∈ "0123456789abcdefABCDEF".toList) (h : Quoted s) :
      Quoted ('\\' :: 'u' :: (digits ++ s))

inductive Part | value | object | member

/-- A part of a JSON text whose objects are nested at most as deep as the number says. -/
inductive Grammar : Part → ℕ → List Char → Prop
  | scalar {d : ℕ} {s : List Char} (h : Scalar s) : Grammar .value d s
  | string {d : ℕ} {s : List Char} (h : Quoted s) : Grammar .value d ('"' :: (s ++ ['"']))
  | padded {d : ℕ} {l s r : List Char} (hl : Blank l) (hr : Blank r) (h : Grammar .value d s) :
      Grammar .value d (l ++ (s ++ r))
  | noItems {d : ℕ} {s : List Char} (h : Blank s) : Grammar .value d ('[' :: (s ++ [']']))
  | array {d : ℕ} {items : List (List Char)} (h : ∀ s ∈ items, Grammar .value d s) :
      Grammar .value d ('[' :: ([','].intercalate items ++ [']']))
  | ofObject {d : ℕ} {s : List Char} (h : Grammar .object d s) : Grammar .value d s
  | member {d : ℕ} {l key m s : List Char} (hl : Blank l) (hkey : Quoted key) (hm : Blank m)
      (h : Grammar .value d s) : Grammar .member d (l ++ ('"' :: (key ++ '"' :: (m ++ ':' :: s))))
  | noMembers {d : ℕ} {s : List Char} (h : Blank s) : Grammar .object (d + 1) ('{' :: (s ++ ['}']))
  | object {d : ℕ} {members : List (List Char)} (h : ∀ s ∈ members, Grammar .member d s) :
      Grammar .object (d + 1) ('{' :: ([','].intercalate members ++ ['}']))

/-- A whole JSON object, from its opening brace to its closing one. -/
def IsObject (d : ℕ) (s : List Char) : Prop := Grammar .object d s

end Hipscope.Json

/-! JSON values as they are read. -/
namespace Hipscope

/-- A number as it is read: a natural of 64 bits, a negative integer of 64 bits, or a float. -/
inductive JsonNumber where
  | posInt (n : UInt64)
  | negInt (n : Int64)
  | float (v : Float)

/-- A JSON value; an object lists its members in the order in which its map is run through. -/
inductive JsonValue where
  | null
  | bool (v : Bool)
  | number (n : JsonNumber)
  | string (v : List Char)
  | array (items : List JsonValue)
  | object (members : List (List Char × JsonValue))

abbrev JsonMap := List (List Char × JsonValue)

namespace JsonNumber

def asU64 : JsonNumber → Option UInt64
  | .posInt n => some n
  | _ => none

def asI64 : JsonNumber → Option ℤ
  | .posInt n => if n.toNat < 2 ^ 63 then some n.toNat else none
  | .negInt n => some n.toInt
  | .float _ => none

def asF64 : JsonNumber → Option Float
  | .posInt n => some (Float.ofNat n.toNat)
  | .negInt n => some (Float.ofInt n.toInt)
  | .float v => some v

end JsonNumber

namespace JsonValue

def asU64 : JsonValue → Option UInt64
  | .number n => n.asU64
  | _ => none

def asI64 : JsonValue → Option ℤ
  | .number n => n.asI64
  | _ => none

def asStr : JsonValue → Option (List Char)
  | .string v => some v
  | _ => none

def asArray : JsonValue → Option (List JsonValue)
  | .array items => some items
  | _ => none

def asObject : JsonValue → Option JsonMap
  | .object members => some members
  | _ => none

/-- `v[key]`; what is not there reads as null. -/
def get (v : JsonValue) (key : List Char) : JsonValue := ((v.asObject.bind (List.lookup key)).getD .null)

/-- A member of an object, put where the old one is. -/
def insert (key : List Char) (x : JsonValue) : JsonMap → JsonMap
  | [] => [(key, x)]
  | m :: rest => if m.1 = key then (key, x) :: rest else m :: insert key x rest

/-- `v[key] = x`: null becomes an object, and on any other value the assignment panics. -/
def set (v : JsonValue) (key : List Char) (x : JsonValue) : Option JsonValue :=
  match v with
  | .null => some (.object [(key, x)])
  | .object members => some (.object (insert key x members))
  | _ => none

/-- The items of an array; nothing else has any. -/
def items (v : JsonValue) : List JsonValue := v.asArray.getD []

theorem items_of_asArray {v : JsonValue} {l : List JsonValue} (h : v.asArray = some l) : v.items = l := by
  rw [items, h]
  rfl

theorem items_of_none {v : JsonValue} (h : v.asArray = none) : v.items = [] := by
  rw [items, h]
  rfl

theorem lookup_insert {key key' : List Char} (x : JsonValue) (hne : key' ≠ key) (l : JsonMap) :
    (insert key x l).lookup key' = l.lookup key' := by
  induction l with
  | nil =>
    have hkey : (key' == key) = false := beq_false_of_ne hne
    simp [insert, List.lookup_cons, hkey]
  | cons m l ih =>
    obtain ⟨k, y⟩ := m
    rw [insert]
    split
    next hk =>
      have hkey : (key' == key) = false := beq_false_of_ne hne
      have hk' : (key' == k) = false := beq_false_of_ne fun h => hne (h.trans hk)
      simp [List.lookup_cons, hkey, hk']
    next => simp [List.lookup_cons, ih]

mutual

/-- No object has a member twice, as in every value that the JSON library builds. -/
def Distinct : JsonValue → Prop
  | .array items => itemsDistinct items
  | .object members => (members.map Prod.fst).Nodup ∧ membersDistinct members
  | _ => True

def itemsDistinct : List JsonValue → Prop
  | [] => True
  | v :: items => v.Distinct ∧ itemsDistinct items

def membersDistinct : List (List Char × JsonValue) → Prop
  | [] => True
  | (_, v) :: members => v.Distinct ∧ membersDistinct members

end

end JsonValue

end Hipscope
