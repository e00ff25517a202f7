import TickTree.Text.Hidden

/-!
# Quoted text

The written form of a string between double quotes. A quote, a backslash and the
four common control characters have short escapes. Every other character that
would not show as itself (`isHidden`) is written as its code point. All else
stands for itself, the single quote included.
-/

namespace TickTree.Text

/-- The code point of a character in lower-case hexadecimal, between braces. -/
def codePoint (c : Char) : List Char :=
  ['\\', 'u', '\x7b'] ++ Nat.toDigits 16 c.toNat ++ ['\x7d']

/-- One character as it stands between quotes. -/
def escape (c : Char) : List Char :=
  match c with
  | '"' => ['\\', '"']
  | '\\' => ['\\', '\\']
  | '\n' => ['\\', 'n']
  | '\t' => ['\\', 't']
  | '\r' => ['\\', 'r']
  | '\x00' => ['\\', '0']
  | c => if isHidden c then codePoint c else [c]

/-- A string between double quotes. -/
def quoted (s : String) : String :=
  String.ofList ('"' :: s.toList.flatMap escape ++ ['"'])

example : quoted "a\"b\n\x07'" = "\"a\\\"b\\n\\u\x7b7\x7d'\"" := by decide +kernel

end TickTree.Text
