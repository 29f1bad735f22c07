import DocQuery.Number.Reading
import DocQuery.Value.Numeric

/-! # Meaning of plain scalars

A plain scalar is null, a boolean, a number, or text, by its spelling alone. Integers may have a
sign and a radix; a row of digits that begins with a superfluous zero is text. Integers of more than
64 bits and at most 128 have no meaning; beyond that they are floats. -/

namespace DocQuery.Yaml

inductive Scalar
  | null
  | boolean (b : Bool)
  | number (n : Numeric)
  | text (s : String)
  deriving Repr

def isNullWord (s : String) : Bool := s == "null" || s == "Null" || s == "NULL" || s == "~"

def booleanTag : String := "tag:yaml.org,2002:bool"

def boolean? (s : String) : Option Bool :=
  if s == "true" || s == "True" || s == "TRUE" then some true
  else if s == "false" || s == "False" || s == "FALSE" then some false
  else none

def radixDigit? (radix : Nat) (c : Char) : Option Nat :=
  let n :=
    if c.isDigit then c.toNat - '0'.toNat
    else if 'a' ≤ c ∧ c ≤ 'z' then c.toNat - 'a'.toNat + 10
    else if 'A' ≤ c ∧ c ≤ 'Z' then c.toNat - 'A'.toNat + 10
    else radix
  if n < radix then some n else none

def natural? (radix : Nat) (ds : List Char) : Option Nat :=
  if ds = [] then none
  else ds.foldlM (fun n c => (radixDigit? radix c).map (radix * n + ·)) 0

def hasLeadingZero (s : List Char) : Bool :=
  match (Number.dropSign s).2 with
  | '0' :: d :: ds => (d :: ds).all Char.isDigit
  | _ => false

def magnitude? (s : List Char) : Option Nat :=
  match s with
  | '0' :: 'x' :: ds => natural? 16 ds
  | '0' :: 'o' :: ds => natural? 8 ds
  | '0' :: 'b' :: ds => natural? 2 ds
  | ds => if hasLeadingZero ds then none else natural? 10 ds

def integer? (s : List Char) : Option Int :=
  let (negative, ds) := Number.dropSign s
  (magnitude? ds).map fun n => if negative then -(n : Int) else n

def isInfinityWord (s : List Char) : Bool :=
  s == ".inf".toList || s == ".Inf".toList || s == ".INF".toList

def isNanWord (s : List Char) : Bool :=
  s == ".nan".toList || s == ".NaN".toList || s == ".NAN".toList

def float? (s : List Char) : Option Float :=
  let (negative, word) := Number.dropSign s
  if isInfinityWord word then some (if negative then -1.0 / 0.0 else 1.0 / 0.0)
  else if isNanWord s then some (0.0 / 0.0)
  else
    match Number.Decimal.read? s with
    | some d => if d.toFloat.isFinite then some d.toFloat else none
    | none => none

def wideBound : Nat := 0x80000000000000000000000000000000

/-- What an integer or float says; none if it has no meaning. -/
def number? (s : List Char) : Option (Option Numeric) :=
  match integer? s with
  | some n =>
    if 0 ≤ n ∧ n < UInt64.size then some (some (.natural (UInt64.ofNat n.toNat)))
    else if -Numeric.signedBound ≤ n ∧ n < 0 then some (some (.negative (Int64.ofInt n)))
    else if -wideBound ≤ n ∧ n < 2 * wideBound then none
    else some (wide s)
  | none => some (if hasLeadingZero s then none else (float? s).map .float)
where
  wide (s : List Char) : Option Numeric := (float? s).map .float

def Scalar.ofPlain? (s : String) : Option Scalar :=
  if s = "" || isNullWord s then some .null
  else
    match boolean? s with
    | some b => some (.boolean b)
    | none =>
      (number? s.toList).map fun
        | some n => .number n
        | none => .text s

end DocQuery.Yaml
