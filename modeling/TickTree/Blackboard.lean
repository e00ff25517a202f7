import TickTree.Table
import TickTree.Value

/-!
# Blackboards

A blackboard maps keys to values. Each agent has one of its own in every tree;
others are shared under a name.

An `Edit` is what a caller does to a board it was lent: it either hands the
board back with an answer or dies on it. A board lent to an edit that dies may
be half changed, so whoever lends it must treat it as damaged afterwards.
-/

namespace TickTree

/-- Keys and what they hold. -/
abbrev Blackboard := Table String Value

/-- Two boards agree when they have the same keys with values that agree. -/
def Blackboard.agrees (a b : Blackboard) : Bool :=
  a.size == b.size && a.entries.all fun entry =>
    match b.get? entry.1 with
    | some v => entry.2.agrees v
    | none => false

/-- What is done to a lent board: the board handed back, or `none` if the edit dies. -/
abbrev Edit := Blackboard → Option Blackboard

/-- What lending a board to an edit comes to. -/
inductive EditResult where
  /-- The edit handed the board back; this is the board it was lent. -/
  | edited (before : Blackboard)
  /-- The edit died. -/
  | died
deriving DecidableEq, Inhabited

/-- The order of texts by code points, which is also that of their bytes. -/
def codePointLe : List Char → List Char → Bool
  | [], _ => true
  | _ :: _, [] => false
  | c :: cs, d :: ds => if c = d then codePointLe cs ds else decide (c.toNat < d.toNat)

/-- The entries of a board in the order of their keys. -/
def Blackboard.sorted (b : Blackboard) : List (String × Value) :=
  b.entries.mergeSort fun x y => codePointLe x.1.toList y.1.toList

end TickTree
