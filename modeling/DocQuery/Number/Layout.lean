import DocQuery.Number.Shortest

/-! # Written forms of floats

All written forms use the shortest digits. A `Layout` fixes the rest: which numbers are written
positionally, whether a whole number keeps a fraction, how an exponent is signed, and the words for
the values that are no numbers. -/

namespace DocQuery.Number

structure Layout where
  tie : Tie
  /-- Exponents `e` with `from ≤ e < to` of `d.ddd · 10 ^ e` are written positionally; all if
  there is no bound. -/
  positional : Option (Int × Int)
  keepFraction : Bool
  plusSign : Bool
  nan : String
  infinity : String
  minusInfinity : String

def positionalDigits (keepFraction : Bool) (s : Shortest) : List Char :=
  if s.point ≤ 0 then '0' :: '.' :: (List.replicate (-s.point).toNat '0' ++ s.digits)
  else
    let whole := s.point.toNat
    if s.digits.length ≤ whole then
      s.digits ++ List.replicate (whole - s.digits.length) '0' ++
        (if keepFraction then ['.', '0'] else [])
    else s.digits.take whole ++ '.' :: s.digits.drop whole

def scientificDigits (plusSign : Bool) (s : Shortest) : List Char :=
  let exponent := s.point - 1
  s.digits.take 1 ++ (if s.digits.length ≤ 1 then [] else '.' :: s.digits.drop 1) ++
    'e' :: ((if plusSign && 0 < exponent then ['+'] else []) ++ intNumeral exponent)

def Layout.magnitude (l : Layout) (m : Nat) (q : Int) : List Char :=
  if m = 0 then if l.keepFraction then ['0', '.', '0'] else ['0']
  else
    let s := shortest l.tie m q
    match l.positional with
    | none => positionalDigits l.keepFraction s
    | some (least, bound) =>
      if least < s.point && s.point ≤ bound then positionalDigits l.keepFraction s
      else scientificDigits l.plusSign s

def Layout.write (l : Layout) (x : Float) : List Char :=
  match Binary.ofFloat x with
  | .nan => l.nan.toList
  | .infinite negative => (if negative then l.minusInfinity else l.infinity).toList
  | .finite negative m q => (if negative then ['-'] else []) ++ l.magnitude m q

end DocQuery.Number
