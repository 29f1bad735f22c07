/-! # Binary floating-point numbers taken apart

A 64-bit float is not a number, infinite, or `± significand · 2 ^ exponent`. -/

namespace DocQuery.Number

inductive Binary
  | nan
  | infinite (negative : Bool)
  | finite (negative : Bool) (significand : Nat) (exponent : Int)
  deriving DecidableEq, Repr

def hiddenBit : Nat := 0x10000000000000

def signBit : Nat := 0x8000000000000000

def exponentFields : Nat := 0x800

/-- Exponent of the subnormal numbers and of the least normalized ones. -/
def leastExponent : Int := -1074

def Binary.ofFloat (x : Float) : Binary :=
  let bits := x.toBits.toNat
  let negative : Bool := signBit ≤ bits
  let field : Nat := bits / hiddenBit % exponentFields
  let fraction := bits % hiddenBit
  if field = exponentFields - 1 then
    if fraction = 0 then .infinite negative else .nan
  else if field = 0 then .finite negative fraction leastExponent
  else .finite negative (hiddenBit + fraction) (leastExponent + (field : Int) - 1)

def wholePart (significand : Nat) (exponent : Int) : Nat :=
  significand * Nat.pow 2 exponent.toNat / Nat.pow 2 (-exponent).toNat

def clampInt64 (n : Int) : Int64 :=
  Int64.ofInt (max Int64.minValue.toInt (min Int64.maxValue.toInt n))

/-- The integer of a float: the fraction is dropped, what is too large or too small becomes the
last integer on that side, and not-a-number becomes zero. -/
def truncate (x : Float) : Int64 :=
  match Binary.ofFloat x with
  | .nan => 0
  | .infinite negative => if negative then Int64.minValue else Int64.maxValue
  | .finite negative m q =>
    let whole : Int := wholePart m q
    clampInt64 (if negative then -whole else whole)

/-- The float nearest to an integer, of two of them the one with the even significand. -/
def floatOfInt (n : Int) : Float := .ofModel (.ofInt n)

end DocQuery.Number
