import DocQuery.Number.Reading
import DocQuery.Value.Numeric

/-! # JSON numbers

A number without fraction and exponent is an integer if it fits 64 bits; `-0` is a float. Every
other number is a float: its digits form a significand for as long as that stays below `2 ^ 64`,
and the significand is then scaled by a power of ten. A number too large for a float has no
value. -/

namespace DocQuery.Json

/-- Appends digits to a significand as long as it stays below `2 ^ 64`; the rest is returned. -/
def absorb : Nat → List Char → Nat × List Char
  | n, [] => (n, [])
  | n, c :: rest =>
    let next := 10 * n + DocQuery.Number.digitValue c
    if next < UInt64.size then absorb next rest else (n, c :: rest)

def greatestPower : Nat := 308

/-- Scales a float by `10 ^ e`, dividing in several steps when the power itself is too large. -/
def scale? (x : Float) (e : Int) : Option Float :=
  if e.natAbs ≤ greatestPower then
    let power := Float.ofScientific 1 false e.natAbs
    if e < 0 then some (x / power)
    else if (x * power).isInf then none else some (x * power)
  else if x == 0.0 then some x
  else if 0 < e then none
  else scale? (x / Float.ofScientific 1 false greatestPower) (e + greatestPower)
termination_by e.natAbs
decreasing_by unfold greatestPower at *; omega

def exponentBound : Nat := 0x80000000

structure Spelling where
  negative : Bool
  whole : List Char
  fraction : List Char
  exponent : Option (Bool × List Char)
  deriving DecidableEq, Repr

def Spelling.of (s : List Char) : Spelling :=
  let negative := s.head? == some '-'
  let s := if negative then s.drop 1 else s
  let whole := s.takeWhile Char.isDigit
  let s := s.dropWhile Char.isDigit
  let (fraction, s) :=
    match s with
    | '.' :: r => (r.takeWhile Char.isDigit, r.dropWhile Char.isDigit)
    | s => ([], s)
  let exponent :=
    match s with
    | _ :: r => some (DocQuery.Number.dropSign r)
    | [] => none
  { negative, whole, fraction, exponent }

/-- The float of a significand, the power of ten that goes with it, and a written exponent. -/
def magnitude? (significand : Nat) (power : Int) : Option (Bool × List Char) → Option Float
  | none => scale? (Float.ofNat significand) power
  | some (negative, digits) =>
    let e := DocQuery.Number.digitsValue digits
    if exponentBound ≤ e then
      if significand = 0 || negative then some 0.0 else none
    else scale? (Float.ofNat significand) (if negative then power - e else power + e)

def signed (negative : Bool) (x : Float) : Float := if negative then -x else x

def Spelling.numeric? (s : Spelling) : Option Numeric :=
  let (n, dropped) := absorb 0 s.whole
  if s.fraction = [] ∧ s.exponent = none ∧ dropped = [] then
    if !s.negative then some (.natural (UInt64.ofNat n))
    else if 0 < n ∧ n ≤ Numeric.signedBound then some (.negative (Int64.ofInt (-n)))
    else some (.float (-Float.ofNat n))
  else
    let (m, ignored) := absorb n s.fraction
    let used := s.fraction.length - ignored.length
    (magnitude? m (dropped.length - used) s.exponent).map fun x => .float (signed s.negative x)

def numeric? (spelling : List Char) : Option Numeric := (Spelling.of spelling).numeric?

end DocQuery.Json
