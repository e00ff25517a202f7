import TickTree.Json.Basic

/-!
# Reading numbers

A number is a sign, whole digits without a leading zero, and optionally a
fraction and an exponent. `Numeral` is a number as it is written and
`Numeral.value?` what it stands for.

Digits are gathered into a significand of 64 bits. Once the next digit would
overflow it, digits are dropped: a dropped whole digit counts towards the
exponent and a dropped digit of the fraction does not. A number with a dropped
digit, a fraction or an exponent is a floating-point number: the significand
scaled by the power of ten, in one rounding step as long as that power is at
most 308. A number too large for that is no number.
-/

namespace TickTree.Json

/-- A number as it is written, its digits as values. -/
structure Numeral where
  /-- A minus sign stands in front. -/
  negative : Bool
  /-- The whole digits. -/
  whole : List Nat
  /-- The digits of the fraction, if there is one. -/
  fraction : Option (List Nat)
  /-- Whether the exponent is negative, and its digits, if there is one. -/
  exponent : Option (Bool × List Nat)
deriving DecidableEq

/-! ## Scanning -/

/-- The value of a decimal digit. -/
def digit? (c : Char) : Option Nat := if c.isDigit then some (c.toNat - '0'.toNat) else none

/-- The digits a text begins with, and the rest. -/
def scanDigits : List Char → List Nat × List Char
  | [] => ([], [])
  | c :: rest =>
      match digit? c with
      | some d => let (digits, rest') := scanDigits rest; (d :: digits, rest')
      | none => ([], c :: rest)

/-- The exponent after its mark: a sign, and at least one digit. -/
def scanExponent (cs : List Char) : Option ((Bool × List Nat) × List Char) :=
  let (negative, cs) :=
    match cs with
    | '-' :: rest => (true, rest)
    | '+' :: rest => (false, rest)
    | cs => (false, cs)
  match scanDigits cs with
  | ([], _) => none
  | (digits, rest) => some ((negative, digits), rest)

/-- The fraction, if a point stands in front of one: at least one digit. -/
def scanFraction : List Char → Option (Option (List Nat) × List Char)
  | '.' :: cs =>
      match scanDigits cs with
      | ([], _) => none
      | (digits, rest) => some (some digits, rest)
  | cs => some (none, cs)

/-- The number a text begins with, and the rest. -/
def scanNumeral (cs : List Char) : Option (Numeral × List Char) := do
  let (negative, cs) :=
    match cs with
    | '-' :: rest => (true, rest)
    | cs => (false, cs)
  let (whole, cs) := scanDigits cs
  match whole with
  | [] => none
  | 0 :: _ :: _ => none
  | _ => pure ()
  let (fraction, cs) ← scanFraction cs
  match cs with
  | 'e' :: rest | 'E' :: rest =>
      let (exponent, rest) ← scanExponent rest
      return (⟨negative, whole, fraction, some exponent⟩, rest)
  | cs => return (⟨negative, whole, fraction, none⟩, cs)

example : scanNumeral "-0.50e+3,".toList
    = some (⟨true, [0], some [5, 0], some (false, [3])⟩, [',']) := by decide

/-! ## Values -/

/-- Gathers digits into a significand while they fit into 64 bits; also how many
were gathered and how many were dropped. -/
def gather : (significand gathered : Nat) → List Nat → Nat × Nat × Nat
  | significand, gathered, [] => (significand, gathered, 0)
  | significand, gathered, d :: rest =>
      if significand * 10 + d < UInt64.size then gather (significand * 10 + d) (gathered + 1) rest
      else (significand, gathered, rest.length + 1)

/-- A power of ten. -/
def powerOfTen (n : Nat) : Float := Float.ofScientific 1 false n

/-- A number divided by a power of ten. -/
def divideByPower (x : Float) (n : Nat) : Float :=
  if n ≤ 308 then x / powerOfTen n
  else if x == 0 then x
  else divideByPower (x / powerOfTen 308) (n - 308)
termination_by n
decreasing_by omega

/-- A number times a power of ten, unless it is too large. -/
def multiplyByPower (x : Float) (n : Nat) : Option Float :=
  if n ≤ 308 then
    let y := x * powerOfTen n
    if y.isInf then none else some y
  else if x == 0 then some x
  else none

/-- A significand scaled by a power of ten. -/
def scale (significand : Nat) (exponent : Int) : Option Float :=
  let x := (UInt64.ofNat significand).toFloat
  if 0 ≤ exponent then multiplyByPower x exponent.toNat
  else some (divideByPower x (-exponent).toNat)

/-- The value of digits in a row. -/
def ofDigits (digits : List Nat) : Nat := digits.foldl (fun n d => n * 10 + d) 0

/-- The floating-point number with a sign. -/
def signed (negative : Bool) (x : Float) : Number := .float (.ofFloat (if negative then -x else x))

/-- What a numeral stands for, unless it is too large. -/
def Numeral.value? (n : Numeral) : Option Number :=
  let (significand, _, dropped) := gather 0 0 n.whole
  match n.fraction, n.exponent, dropped with
  | none, none, 0 =>
      if !n.negative then some (.integer significand)
      else if 0 < significand ∧ significand ≤ 9223372036854775808 then
        some (.integer (-significand))
      else some (signed true (UInt64.ofNat significand).toFloat)
  | fraction, exponent, dropped =>
      let (significand, places, _) := gather significand 0 (fraction.getD [])
      let own : Int := dropped - places
      match exponent with
      | none => (scale significand own).map (signed n.negative)
      | some (negative, digits) =>
          let shift := ofDigits digits
          if shift < 2147483648 then
            (scale significand (own + if negative then -(shift : Int) else shift)).map
              (signed n.negative)
          else if negative || significand = 0 then some (signed n.negative 0)
          else none

end TickTree.Json
