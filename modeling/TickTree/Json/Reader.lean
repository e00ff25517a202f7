import TickTree.Json.Number

/-!
# Reading flat documents

A flat document is one object whose members are plain: no value, a truth value,
a number or a text. `readFlat` reads such a text, and answers `none` for
everything else, malformed texts and nested values alike.

Texts are read strictly. A control character must be escaped, and an escaped
code unit of a surrogate pair must stand in its pair.
-/

namespace TickTree.Json

/-! ## Texts -/

/-- The value of a hexadecimal digit. -/
def hexDigit? (c : Char) : Option Nat :=
  if c.isDigit then some (c.toNat - '0'.toNat)
  else if 'a' ≤ c ∧ c ≤ 'f' then some (c.toNat - 'a'.toNat + 10)
  else if 'A' ≤ c ∧ c ≤ 'F' then some (c.toNat - 'A'.toNat + 10)
  else none

/-- The code unit of four hexadecimal digits. -/
def codeUnit? (a b c d : Char) : Option Nat := do
  return (((← hexDigit? a) * 16 + (← hexDigit? b)) * 16 + (← hexDigit? c)) * 16 + (← hexDigit? d)

/-- The character a short escape stands for. -/
def unescape? : Char → Option Char
  | '"' => some '"'
  | '\\' => some '\\'
  | '/' => some '/'
  | 'b' => some '\x08'
  | 'f' => some '\x0c'
  | 'n' => some '\n'
  | 'r' => some '\r'
  | 't' => some '\t'
  | _ => none

/-- The first code unit of a surrogate pair. -/
def isHighSurrogate (unit : Nat) : Bool := 0xd800 ≤ unit && unit < 0xdc00

/-- The second code unit of a surrogate pair. -/
def isLowSurrogate (unit : Nat) : Bool := 0xdc00 ≤ unit && unit < 0xe000

/-- The text up to its closing quote, and the rest. -/
def scanText : List Char → Option (List Char × List Char)
  | [] => none
  | '"' :: rest => some ([], rest)
  | '\\' :: 'u' :: a :: b :: c :: d :: rest =>
      match codeUnit? a b c d with
      | none => none
      | some unit =>
          if isHighSurrogate unit then
            match rest with
            | '\\' :: 'u' :: a' :: b' :: c' :: d' :: rest' =>
                match codeUnit? a' b' c' d' with
                | none => none
                | some low =>
                    if isLowSurrogate low then
                      let point := 0x10000 + (unit - 0xd800) * 0x400 + (low - 0xdc00)
                      (scanText rest').map fun found => (Char.ofNat point :: found.1, found.2)
                    else none
            | _ => none
          else if isLowSurrogate unit then none
          else (scanText rest).map fun found => (Char.ofNat unit :: found.1, found.2)
  | '\\' :: c :: rest =>
      match unescape? c with
      | none => none
      | some c' => (scanText rest).map fun found => (c' :: found.1, found.2)
  | c :: rest =>
      if c.toNat < 0x20 then none
      else (scanText rest).map fun found => (c :: found.1, found.2)

/-! ## Members -/

/-- Blanks between the parts of a document. -/
def isBlank (c : Char) : Bool := c = ' ' || c = '\n' || c = '\t' || c = '\r'

/-- A text without the blanks in front. -/
def skipBlanks (cs : List Char) : List Char := cs.dropWhile isBlank

/-- The plain value a text begins with, and the rest. -/
def scanPlain : List Char → Option (Json × List Char)
  | 'n' :: 'u' :: 'l' :: 'l' :: rest => some (.null, rest)
  | 't' :: 'r' :: 'u' :: 'e' :: rest => some (.bool true, rest)
  | 'f' :: 'a' :: 'l' :: 's' :: 'e' :: rest => some (.bool false, rest)
  | '"' :: rest => (scanText rest).map fun found => (.text (String.ofList found.1), found.2)
  | cs => do
      let (numeral, rest) ← scanNumeral cs
      return (.number (← numeral.value?), rest)

/-- The member a text begins with, and the rest. -/
def scanMember (cs : List Char) : Option ((String × Json) × List Char) := do
  let '"' :: cs := skipBlanks cs | none
  let (key, cs) ← scanText cs
  let ':' :: cs := skipBlanks cs | none
  let (value, cs) ← scanPlain (skipBlanks cs)
  return ((String.ofList key, value), skipBlanks cs)

/-- The members up to the closing brace and what follows it; there are fewer of
them than `bound`. -/
def scanMembers : (bound : Nat) → List Char → Option (List (String × Json) × List Char)
  | 0, _ => none
  | bound + 1, cs => do
      let (member, cs) ← scanMember cs
      match cs with
      | '\x7d' :: rest => return ([member], rest)
      | ',' :: rest =>
          let (members, rest) ← scanMembers bound rest
          return (member :: members, rest)
      | _ => none

/-- The object a text begins with, and the rest. -/
def scanObject (cs : List Char) : Option (List (String × Json) × List Char) := do
  let '\x7b' :: cs := skipBlanks cs | none
  match skipBlanks cs with
  | '\x7d' :: rest => return ([], rest)
  | cs => scanMembers (cs.length + 1) cs

/-- The object of a flat document. -/
def readFlat (text : String) : Option Json := do
  let (members, rest) ← scanObject text.toList
  if (skipBlanks rest).isEmpty then return .object members else none

example : (readFlat "\x7b\"k\": null\x7d").isSome = true := by decide +kernel

example : (readFlat "\x7b\"k\": [1]\x7d").isSome = false := by decide +kernel

end TickTree.Json
