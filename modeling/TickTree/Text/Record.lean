/-!
# Records as text

How a structured value is written for a reader: a name with labelled fields in
braces, a name with arguments in parentheses, a list in brackets, an optional
value. The parts are texts already.
-/

namespace TickTree.Text

/-- A name and its labelled fields. -/
def record (name : String) (fields : List (String × String)) : String :=
  name ++ " \x7b " ++ ", ".intercalate (fields.map fun field => field.1 ++ ": " ++ field.2) ++
    " \x7d"

/-- A name and its arguments. -/
def applied (name : String) (arguments : List String) : String :=
  name ++ "(" ++ ", ".intercalate arguments ++ ")"

/-- The items of a list. -/
def bracketed (items : List String) : String :=
  "[" ++ ", ".intercalate items ++ "]"

/-- A value that may be missing. -/
def optional : Option String → String
  | none => "None"
  | some text => applied "Some" [text]

/-- A truth value. -/
def truth (b : Bool) : String := if b then "true" else "false"

example : record "Point" [("x", "1"), ("tag", optional (some "2"))]
    = "Point \x7b x: 1, tag: Some(2) \x7d" := by decide +kernel

end TickTree.Text
