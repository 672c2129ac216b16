import Hipscope.Dsml.Stream

/-! Tool calls as the model writes them: rendering into a block and parsing a block's body. -/
namespace Hipscope.Dsml
open Text

def invokeOpenPrefix : List Char :=
  ['<', '｜', 'D', 'S', 'M', 'L', '｜', 'i', 'n', 'v', 'o', 'k', 'e', ' ', 'n', 'a', 'm', 'e', '=', '"']

def invokeClose : List Char := ['<', '/', '｜', 'D', 'S', 'M', 'L', '｜', 'i', 'n', 'v', 'o', 'k', 'e', '>']

def parameterOpenPrefix : List Char :=
  ['<', '｜', 'D', 'S', 'M', 'L', '｜', 'p', 'a', 'r', 'a', 'm', 'e', 't', 'e', 'r', ' ', 'n', 'a', 'm', 'e',
   '=', '"']

def parameterClose : List Char :=
  ['<', '/', '｜', 'D', 'S', 'M', 'L', '｜', 'p', 'a', 'r', 'a', 'm', 'e', 't', 'e', 'r', '>']

/-- The inner tag one checkpoint writes in place of `invoke`. -/
def toolOpenPrefixAlt : List Char :=
  ['<', '｜', 'D', 'S', 'M', 'L', '｜', 't', 'o', 'o', 'l', ' ', 'n', 'a', 'm', 'e', '=', '"']

def toolCloseAlt : List Char := ['<', '/', '｜', 'D', 'S', 'M', 'L', '｜', 't', 'o', 'o', 'l', '>']

/-- The truncated close some checkpoints write. -/
def genericClose : List Char := ['<', '/', '｜', 'D', 'S', 'M', 'L', '｜', '>']

/-- A JSON number, as the text it prints as. -/
structure Number where
  text : List Char
  nonempty : text ≠ []
  plain : ∀ c ∈ text, c ∈ "0123456789+-.eE".toList

/-- A JSON value; the members of an object keep their order. -/
inductive Value where
  | null
  | bool (b : Bool)
  | number (n : Number)
  | string (s : List Char)
  | array (items : List Value)
  | object (members : List (List Char × Value))

structure ToolCall where
  name : List Char
  arguments : Value

/-- A lower-case hexadecimal digit. -/
def hexDigit (n : ℕ) : Char := "0123456789abcdef".toList.getD n '0'

/-- How a character stands inside a printed JSON string. -/
def jsonEscape (c : Char) : List Char :=
  if c = '"' then "\\\"".toList
  else if c = '\\' then "\\\\".toList
  else if c = '\x08' then "\\b".toList
  else if c = '\t' then "\\t".toList
  else if c = '\n' then "\\n".toList
  else if c = '\x0c' then "\\f".toList
  else if c = '\r' then "\\r".toList
  else if c.toNat < 0x20 then "\\u00".toList ++ [hexDigit (c.toNat / 16), hexDigit (c.toNat % 16)]
  else [c]

def jsonString (s : List Char) : List Char := '"' :: s.flatMap jsonEscape ++ ['"']

mutual

/-- Single-line JSON with `", "` between items and `": "` after keys. -/
def pyCompactJson : Value → List Char
  | .null => "null".toList
  | .bool b => if b then "true".toList else "false".toList
  | .number n => n.text
  | .string s => jsonString s
  | .array items => '[' :: pyItems items ++ [']']
  | .object members => '\x7b' :: pyMembers members ++ ['\x7d']

def pyItems : List Value → List Char
  | [] => []
  | [v] => pyCompactJson v
  | v :: w :: rest => pyCompactJson v ++ ", ".toList ++ pyItems (w :: rest)

def pyMembers : List (List Char × Value) → List Char
  | [] => []
  | [(k, v)] => jsonString k ++ ": ".toList ++ pyCompactJson v
  | (k, v) :: w :: rest => jsonString k ++ ": ".toList ++ pyCompactJson v ++ ", ".toList ++ pyMembers (w :: rest)

end

/-- The four characters that would break an attribute. -/
def xmlEscape (c : Char) : List Char :=
  if c = '"' then "&quot;".toList
  else if c = '&' then "&amp;".toList
  else if c = '<' then "&lt;".toList
  else if c = '>' then "&gt;".toList
  else [c]

def xmlAttrEscape (s : List Char) : List Char := s.flatMap xmlEscape

/-- How a value is written: strings as they are, all else as JSON. -/
def payload : Value → List Char × List Char
  | .string s => ("true".toList, s)
  | other => ("false".toList, pyCompactJson other)

def renderParameter (key : List Char) (value : Value) : List Char :=
  parameterOpenPrefix ++ xmlAttrEscape key ++ "\" string=\"".toList ++ (payload value).1 ++ "\">".toList ++
    (payload value).2 ++ parameterClose ++ ['\n']

def ToolCall.toDsml (call : ToolCall) : List Char :=
  let parameters := match call.arguments with
    | .object members => members.flatMap fun m => renderParameter m.1 m.2
    | _ => []
  invokeOpenPrefix ++ xmlAttrEscape call.name ++ "\">\n".toList ++ parameters ++ invokeClose

def renderAssistantToolCalls (calls : List ToolCall) : List Char :=
  toolCallsOpen ++ ['\n'] ++ calls.flatMap (fun c => c.toDsml ++ ['\n']) ++ toolCallsClose

/-- The earlier of two search results, the first on a tie. -/
def firstHit {α : Type} : Option (ℕ × α) → Option (ℕ × α) → Option (ℕ × α)
  | some a, some b => if a.1 ≤ b.1 then some a else some b
  | some a, none => some a
  | none, hit => hit

/-- Unicode white space. -/
def isWhitespace (c : Char) : Bool :=
  (9 ≤ c.toNat && c.toNat ≤ 13) || (0x2000 ≤ c.toNat && c.toNat ≤ 0x200a) ||
    [0x20, 0x85, 0xa0, 0x1680, 0x2028, 0x2029, 0x202f, 0x205f, 0x3000].contains c.toNat

def trim (s : List Char) : List Char := ((s.dropWhile isWhitespace).reverse.dropWhile isWhitespace).reverse

/-- Insert into a map that keeps the order of first insertion. -/
def mapInsert (map : List (List Char × Value)) (key : List Char) (value : Value) : List (List Char × Value) :=
  if map.any (·.1 = key) then map.map fun m => if m.1 = key then (key, value) else m
  else map ++ [(key, value)]

/-- Collect what a search finds, from the text after each find on; every round shortens the text. -/
def scan {α : Type} (next : List Char → Option (Option α × List Char)) : ℕ → List Char → List α
  | 0, _ => []
  | rounds + 1, text =>
    match next text with
    | none => []
    | some (found, rest) => found.toList ++ scan next rounds rest

section Parse
variable (fromStr : List Char → Option Value)

/-- What follows a parameter's opening tag up to its name's closing quote: whether the value is
a raw string, and where the value begins. -/
def parameterTag (quoted : List Char) : Option (Bool × List Char) := do
  let afterName := quoted.drop 1
  let attr := (memmem afterName ['>']).bind fun stop => memmem (afterName.take stop) "string=\"".toList
  match attr with
  | some at_ =>
    let value := afterName.drop (at_ + "string=\"".toList.length)
    let stop ← memmem value ['"']
    let isString := value.take stop = "true".toList
    let start ← memmem (value.drop stop) "\">".toList
    some (isString, (value.drop stop).drop (start + 2))
  | none =>
    let start ← memmem quoted ['>']
    some (true, quoted.drop (start + 1))

/-- One parameter after its opening marker: its name, its value, and the text after it. -/
def parseParameter (rest : List Char) : Option (List Char × Value × List Char) := do
  let nameEnd ← memmem rest ['"']
  let (isString, content) ← parameterTag (rest.drop nameEnd)
  let contentEnd ← memmem content parameterClose
  let raw := content.take contentEnd
  let value := if isString then .string raw else (fromStr (trim raw)).getD (.string raw)
  some (rest.take nameEnd, value, content.drop (contentEnd + parameterClose.length))

/-- The next parameter and the text after it; a broken one is skipped past its opening marker. -/
def nextParameter (body : List Char) : Option (Option (List Char × Value) × List Char) := do
  let start ← memmem body parameterOpenPrefix
  let rest := body.drop (start + parameterOpenPrefix.length)
  match parseParameter fromStr rest with
  | some (name, value, after) => some (some (name, value), after)
  | none => some (none, rest)

def parseParameters (body : List Char) : Value :=
  .object ((scan (nextParameter fromStr) (body.length + 1) body).foldl (fun map m => mapInsert map m.1 m.2) [])

/-- The next call and the text after it; a truncated one is skipped past its opening. -/
def nextCall (body : List Char) : Option (Option ToolCall × List Char) := do
  let invokeHit := (memmem body invokeOpenPrefix).map fun i => (i, invokeOpenPrefix.length, invokeClose)
  let toolHit := (memmem body toolOpenPrefixAlt).map fun i => (i, toolOpenPrefixAlt.length, toolCloseAlt)
  let (openRel, openLen, closeMarker) ← firstHit invokeHit toolHit
  let rest := body.drop (openRel + openLen)
  match memmem rest ['"', '>'] with
  | none => some (none, rest)
  | some nameEnd =>
    let inner := rest.drop (nameEnd + 2)
    let matchedAt := (memmem inner closeMarker).map fun i => (i, closeMarker.length)
    let genericAt := (memmem inner genericClose).map fun i => (i, genericClose.length)
    match firstHit matchedAt genericAt with
    | none => some (none, inner)
    | some (stop, closeLen) =>
      some (some ⟨rest.take nameEnd, parseParameters fromStr (inner.take stop)⟩, inner.drop (stop + closeLen))

def parseToolCallsBody (body : List Char) : List ToolCall := scan (nextCall fromStr) (body.length + 1) body

end Parse
end Hipscope.Dsml
