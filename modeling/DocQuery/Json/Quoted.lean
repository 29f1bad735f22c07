/-! # Quoted text

Between quotes, a quote, a backslash and the characters below U+0020 are written as escapes;
reading also knows the escape of a slash and the escape of any character by its UTF-16 units. -/

namespace DocQuery.Json

def hexDigit (n : Nat) : Char :=
  if n < 10 then Char.ofNat ('0'.toNat + n) else Char.ofNat ('a'.toNat + (n - 10))

def hexDigitValue (c : Char) : Nat :=
  if c.isDigit then c.toNat - '0'.toNat
  else if 'a' ≤ c then c.toNat - 'a'.toNat + 10
  else c.toNat - 'A'.toNat + 10

def hexValue (ds : List Char) : Nat := ds.foldl (fun n c => 16 * n + hexDigitValue c) 0

def escape (c : Char) : List Char :=
  match c with
  | '"' => ['\\', '"']
  | '\\' => ['\\', '\\']
  | '\x08' => ['\\', 'b']
  | '\x0c' => ['\\', 'f']
  | '\n' => ['\\', 'n']
  | '\r' => ['\\', 'r']
  | '\t' => ['\\', 't']
  | c =>
    if c < ' ' then ['\\', 'u', '0', '0', hexDigit (c.toNat / 16), hexDigit (c.toNat % 16)]
    else [c]

def encode (s : List Char) : List Char := s.flatMap escape

inductive Unit16
  | char (c : Char)
  /-- half of a pair of UTF-16 units -/
  | half (n : Nat)
  deriving DecidableEq, Repr

def Unit16.ofNat (n : Nat) : Unit16 :=
  if 0xD800 ≤ n ∧ n < 0xE000 then .half n else .char (Char.ofNat n)

def unescape : Char → Char
  | 'b' => '\x08'
  | 'f' => '\x0c'
  | 'n' => '\n'
  | 'r' => '\r'
  | 't' => '\t'
  | c => c

def units : List Char → List Unit16
  | [] => []
  | '\\' :: 'u' :: a :: b :: c :: d :: rest => .ofNat (hexValue [a, b, c, d]) :: units rest
  | '\\' :: c :: rest => .char (unescape c) :: units rest
  | c :: rest => .char c :: units rest

/-- Joins the halves of pairs; a half without its partner has no meaning. -/
def joinHalves? : List Unit16 → Option (List Char)
  | [] => some []
  | .char c :: rest => (joinHalves? rest).map (c :: ·)
  | .half high :: .half low :: rest =>
    if high < 0xDC00 ∧ 0xDC00 ≤ low then
      let c := Char.ofNat (0x10000 + (high - 0xD800) * 0x400 + (low - 0xDC00))
      (joinHalves? rest).map (c :: ·)
    else none
  | .half _ :: _ => none

def decode? (spelling : List Char) : Option String :=
  (joinHalves? (units spelling)).map String.ofList

end DocQuery.Json
