import TickTree.Value

/-!
# Document values

The values a JSON document is made of. A number keeps the form it was written
in: an integer stays an integer of any size, and every other number is a binary
floating-point number.
-/

namespace TickTree

/-- A number of a document. -/
inductive Json.Number where
  /-- Written without a fraction or exponent. -/
  | integer (n : Int)
  /-- Any other number. -/
  | float (x : Binary64)
deriving DecidableEq, Inhabited

/-- A value of a document. -/
inductive Json where
  /-- No value. -/
  | null
  /-- A truth value. -/
  | bool (b : Bool)
  /-- A number. -/
  | number (n : Json.Number)
  /-- A text. -/
  | text (s : String)
  /-- Values in a row. -/
  | array (items : List Json)
  /-- Named values, in the order they are written. -/
  | object (members : List (String × Json))
deriving Inhabited

end TickTree
