import DocQuery.Value

/-! # Numbers of document formats

The formats know integers of 64 bits with and without sign, and floats. As a value, an integer that
does not fit the signed range becomes the nearest float. -/

namespace DocQuery

inductive Numeric
  | natural (n : UInt64)
  /-- an integer below zero -/
  | negative (n : Int64)
  | float (x : Float)
  deriving Repr

namespace Numeric

def signedBound : Nat := 0x8000000000000000

def toValue : Numeric → Value
  | natural n =>
    if n.toNat < signedBound then .integer (Int64.ofNat n.toNat)
    else .float (Number.floatOfInt n.toNat)
  | negative n => .integer n
  | float x => .float x

end Numeric

end DocQuery
