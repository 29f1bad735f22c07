import DocQuery.Number.Numeral

/-! # Reading decimal numbers

A decimal number has a sign, digits with at most one point among them, and an exponent. It is read
as the nearest float, ties to the even significand. -/

namespace DocQuery.Number

/-- A decimal number taken apart: `± significand · 10 ^ exponent`. -/
structure Decimal where
  negative : Bool
  significand : Nat
  exponent : Int
  deriving DecidableEq, Repr

def dropSign : List Char → Bool × List Char
  | '-' :: s => (true, s)
  | '+' :: s => (false, s)
  | s => (false, s)

def readExponent? (s : List Char) : Option Int :=
  let (negative, ds) := dropSign s
  if ds.isEmpty || !ds.all Char.isDigit then none
  else if negative then some (-(digitsValue ds : Int)) else some (digitsValue ds)

/-- Reads `digits [. digits]` with a digit on one side of the point, then an optional exponent. -/
def Decimal.read? (s : List Char) : Option Decimal :=
  let (negative, s) := dropSign s
  let whole := s.takeWhile Char.isDigit
  let s := s.dropWhile Char.isDigit
  let (fraction, s) :=
    match s with
    | '.' :: r => (r.takeWhile Char.isDigit, r.dropWhile Char.isDigit)
    | s => ([], s)
  if whole.isEmpty && fraction.isEmpty then none
  else
    let scaled (e : Int) : Decimal :=
      { negative, significand := digitsValue (whole ++ fraction), exponent := e - fraction.length }
    match s with
    | [] => some (scaled 0)
    | c :: r => if c == 'e' || c == 'E' then (readExponent? r).map scaled else none

/-- The float nearest to `m · 10 ^ e`. Far outside the range of floats the power is not computed. -/
def nearestFloat (m : Nat) (e : Int) : Float :=
  if m = 0 then 0.0
  else
    let magnitude : Int := (numeral m).length + e
    if 310 < magnitude then 1.0 / 0.0
    else if magnitude < -330 then 0.0
    else Float.ofScientific m (e < 0) e.natAbs

def Decimal.toFloat (d : Decimal) : Float :=
  let x := nearestFloat d.significand d.exponent
  if d.negative then -x else x

end DocQuery.Number
