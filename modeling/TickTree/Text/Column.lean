/-!
# Columns

Padding with blanks to a width counted in characters. A text that is already
wide enough is left as it is: padding never cuts (`length_padRight`,
`length_padLeft`).
-/

namespace TickTree.Text

/-- Blanks that fill a text up to a width. -/
def filling (width : Nat) (s : String) : List Char := List.replicate (width - s.length) ' '

/-- Left-aligned in a column. -/
def padRight (width : Nat) (s : String) : String := String.ofList (s.toList ++ filling width s)

/-- Right-aligned in a column. -/
def padLeft (width : Nat) (s : String) : String := String.ofList (filling width s ++ s.toList)

theorem length_padRight (width : Nat) (s : String) :
    (padRight width s).length = max width s.length := by
  simp [padRight, filling, ← String.length_toList]
  omega

theorem length_padLeft (width : Nat) (s : String) :
    (padLeft width s).length = max width s.length := by
  simp [padLeft, filling, ← String.length_toList]
  omega

end TickTree.Text
