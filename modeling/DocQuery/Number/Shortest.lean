import DocQuery.Number.Binary
import DocQuery.Number.Numeral

/-! # The shortest decimal of a float

Every real number in a small interval around `m · 2 ^ q` reads back as that float; the ends of the
interval belong to it when `m` is even. `shortest` finds the fewest decimal digits with a value in
the interval, and of these the value nearest to the float. All comparisons are exact. -/

namespace DocQuery.Number

inductive Tie
  | toEven
  | up
  deriving DecidableEq, Repr

/-- The number `0.d₁d₂… · 10 ^ point`; neither the first digit nor the last is zero. -/
structure Shortest where
  digits : List Char
  point : Int
  deriving DecidableEq, Repr

/-- The value of a float and the ends of its interval, as numerators over one denominator. -/
structure Interval where
  low : Nat
  value : Nat
  high : Nat
  denominator : Nat
  closed : Bool

/-- The interval of `m · 2 ^ q`. Below a power of two the neighbour is only half as far away. -/
def Interval.of (m : Nat) (q : Int) : Interval :=
  let gap := if m = hiddenBit ∧ leastExponent < q then 1 else 2
  let up := Nat.pow 2 (q - 2).toNat
  { low := (4 * m - gap) * up
    value := 4 * m * up
    high := (4 * m + 2) * up
    denominator := Nat.pow 2 (2 - q).toNat
    closed := m % 2 == 0 }

/-- With the decimal point moved so many places to the right, every float has a digit before it. -/
def places : Nat := 400

def Interval.point (i : Interval) : Int :=
  (numeral (i.value * Nat.pow 10 places / i.denominator)).length - (places : Int)

/-- The multiple of `10 ^ e` next to the value that lies in the interval, as a multiplier; the
nearer one if both neighbours do. -/
def Interval.onGrid? (tie : Tie) (i : Interval) (e : Int) : Option Nat :=
  let scale := Nat.pow 10 (-e).toNat
  let unit := i.denominator * Nat.pow 10 e.toNat
  let value := i.value * scale
  let below := value / unit
  let within (a b : Nat) : Bool := if i.closed then a ≤ b else a < b
  match within (i.low * scale) (below * unit), within ((below + 1) * unit) (i.high * scale) with
  | true, true =>
    let twice := 2 * (value - below * unit)
    if twice < unit then some below
    else if unit < twice then some (below + 1)
    else
      match tie with
      | .up => some (below + 1)
      | .toEven => some (if below % 2 = 0 then below else below + 1)
  | true, false => some below
  | false, true => some (below + 1)
  | false, false => none

def Interval.coarsest (tie : Tie) (i : Interval) (point : Int) : Nat → Nat → Nat × Int
  | 0, _ => (i.value / i.denominator, 0)
  | grids + 1, used =>
    match i.onGrid? tie (point - used) with
    | some n => (n, point - used)
    | none => i.coarsest tie point grids (used + 1)

def significantDigits (n : Nat) : List Char :=
  ((numeral n).reverse.dropWhile (· == '0')).reverse

def shortest (tie : Tie) (m : Nat) (q : Int) : Shortest :=
  let i := Interval.of m q
  let (n, e) := i.coarsest tie i.point 17 1
  { digits := significantDigits n, point := (numeral n).length + e }

end DocQuery.Number
