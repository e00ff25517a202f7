import TickTree.Blackboard
import TickTree.Json.Basic

/-!
# Snapshots of blackboards

A blackboard is saved as one object with a member for each entry, and read back
from it. Values carry no mark of their variant, so reading tries the variants in
turn: truth value, integer, floating-point number, text (`Value.readers`). The
order counts for integers only, which the reader of floating-point numbers takes
too: one that fits into 64 bits is read before that, and one outside becomes a
floating-point number (`Value.ofJson?_eq`). A number that is not finite has no
written form; it is saved as no value, and no value is not read back.
-/

namespace TickTree

/-- The saved form of a value. -/
def Value.toJson : Value → Json
  | .bool b => .bool b
  | .int n => .number (.integer n.toInt)
  | .float x => if x.isFinite then .number (.float x) else .null
  | .text s => .text s

/-- Whether an integer fits into 64 bits with its sign. -/
def fitsInt64 (n : Int) : Bool := -9223372036854775808 ≤ n && n ≤ 9223372036854775807

namespace Value

/-- Reads a truth value. -/
def readBool? : Json → Option Value
  | .bool b => some (.bool b)
  | _ => none

/-- Reads an integer that fits into 64 bits. -/
def readInt? : Json → Option Value
  | .number (.integer n) => if fitsInt64 n then some (.int (Int64.ofInt n)) else none
  | _ => none

/-- Reads any number, an integer as the nearest floating-point number. -/
def readFloat? : Json → Option Value
  | .number (.integer n) => some (.float (.ofFloat (Float.ofInt n)))
  | .number (.float x) => some (.float x)
  | _ => none

/-- Reads a text. -/
def readText? : Json → Option Value
  | .text s => some (.text s)
  | _ => none

/-- The readers of the variants, in the order in which they are tried. -/
def readers : List (Json → Option Value) := [readBool?, readInt?, readFloat?, readText?]

/-- The value of a saved form: what the first variant reads that reads it. -/
def ofJson? (saved : Json) : Option Value := readers.findSome? (· saved)

/-- What comes of trying the variants in turn. -/
theorem ofJson?_eq (saved : Json) : ofJson? saved = match saved with
    | .bool b => some (.bool b)
    | .number (.integer n) =>
        some (if fitsInt64 n then .int (Int64.ofInt n) else .float (.ofFloat (Float.ofInt n)))
    | .number (.float x) => some (.float x)
    | .text s => some (.text s)
    | _ => none := by
  cases saved with
  | number n =>
    cases n with
    | integer n =>
      simp only [ofJson?, readers, List.findSome?_cons, readBool?, readInt?, readFloat?]
      cases fitsInt64 n <;> rfl
    | float x => rfl
  | bool | text | null | array | object => rfl

end Value

namespace Blackboard

/-- The saved form of a board. -/
def toJson (b : Blackboard) : Json := .object (b.entries.map fun entry => (entry.1, entry.2.toJson))

/-- The board of saved members, read after the entries of another board. -/
def ofMembers? (b : Blackboard) : List (String × Json) → Option Blackboard
  | [] => some b
  | (key, saved) :: rest =>
      match Value.ofJson? saved with
      | none => none
      | some value => ofMembers? (b.set key value) rest

/-- The board of a saved form; of two members with one key the later counts. -/
def ofJson? : Json → Option Blackboard
  | .object members => ofMembers? ∅ members
  | _ => none

end Blackboard

end TickTree
