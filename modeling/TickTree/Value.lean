/-!
# Values

What a blackboard can hold: a truth value, a 64-bit integer, a binary
floating-point number or a text.

A floating-point number is held as its 64 bits, so two values are the same
exactly when their bits are. The comparison a program would make is
`Binary64.agrees`: a number that is no number agrees with nothing, and the two
zeros agree with each other.
-/

namespace TickTree

/-- A binary floating-point number of 64 bits, held as its bits. -/
structure Binary64 where
  /-- Sign, exponent and fraction, from the highest bit down. -/
  bits : UInt64
deriving DecidableEq, Repr, Inhabited

namespace Binary64

/-- The eleven bits of the exponent. -/
def exponent (x : Binary64) : Nat := x.bits.toNat / Nat.pow 2 52 % Nat.pow 2 11

/-- The fifty-two bits of the fraction. -/
def fraction (x : Binary64) : Nat := x.bits.toNat % Nat.pow 2 52

/-- Neither an infinity nor a non-number. -/
def isFinite (x : Binary64) : Bool := x.exponent ≠ 2047

/-- No number at all. -/
def isNaN (x : Binary64) : Bool := x.exponent = 2047 ∧ x.fraction ≠ 0

/-- One of the two zeros. -/
def isZero (x : Binary64) : Bool := x.bits.toNat % Nat.pow 2 63 = 0

/-- Numerical equality. -/
def agrees (x y : Binary64) : Bool :=
  !x.isNaN && !y.isNaN && (x.bits == y.bits || x.isZero && y.isZero)

/-- The number a floating-point register holds. -/
def ofFloat (x : Float) : Binary64 := ⟨x.toBits⟩

end Binary64

/-- What a blackboard entry holds. -/
inductive Value where
  /-- A truth value. -/
  | bool (b : Bool)
  /-- A signed integer of 64 bits. -/
  | int (n : Int64)
  /-- A floating-point number. -/
  | float (x : Binary64)
  /-- A text. -/
  | text (s : String)
deriving DecidableEq, Inhabited

/-- Two values agree when they are of one variant and their contents agree. -/
def Value.agrees : Value → Value → Bool
  | .bool a, .bool b => a == b
  | .int a, .int b => a == b
  | .float a, .float b => a.agrees b
  | .text a, .text b => a == b
  | _, _ => false

example : (Binary64.mk 0x7ff8000000000000).agrees ⟨0x7ff8000000000000⟩ = false := by decide

example : (Binary64.mk 0x8000000000000000).agrees ⟨0⟩ = true := by decide

end TickTree
