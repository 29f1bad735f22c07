/-! # JSON tokens

A JSON text is a row of tokens with white space between them. Strings and numbers are kept as they
are spelled; what they mean is decided where they are used. A text is taken apart in one pass, and
every token takes at least one character. -/

namespace DocQuery.Json

inductive Token
  | openArray
  | closeArray
  | openObject
  | closeObject
  | comma
  | colon
  | null
  | boolean (b : Bool)
  | number (spelling : List Char)
  | string (spelling : List Char)
  deriving DecidableEq, Repr

def Token.written : Token → List Char
  | openArray => ['[']
  | closeArray => [']']
  | openObject => ['{']
  | closeObject => ['}']
  | comma => [',']
  | colon => [':']
  | null => ['n', 'u', 'l', 'l']
  | boolean true => ['t', 'r', 'u', 'e']
  | boolean false => ['f', 'a', 'l', 's', 'e']
  | number spelling => spelling
  | string spelling => '"' :: (spelling ++ ['"'])

def isSpace (c : Char) : Bool := c == ' ' || c == '\t' || c == '\n' || c == '\r'

def isHexDigit (c : Char) : Bool :=
  c.isDigit || ('a' ≤ c && c ≤ 'f') || ('A' ≤ c && c ≤ 'F')

def isShortEscape (c : Char) : Bool :=
  c == '"' || c == '\\' || c == '/' || c == 'b' || c == 'f' || c == 'n' || c == 'r' || c == 't'

/-- The number of characters before the closing quote. Control characters have to be escaped. -/
def closingQuote? : List Char → Option Nat
  | [] => none
  | '"' :: _ => some 0
  | '\\' :: 'u' :: a :: b :: c :: d :: rest =>
    if isHexDigit a && isHexDigit b && isHexDigit c && isHexDigit d then
      (closingQuote? rest).map (· + 6)
    else none
  | '\\' :: c :: rest => if isShortEscape c then (closingQuote? rest).map (· + 2) else none
  | c :: rest => if c < ' ' || c == '\\' then none else (closingQuote? rest).map (· + 1)

def digitsLength (s : List Char) : Nat := (s.takeWhile Char.isDigit).length

def wholeLength? : List Char → Option Nat
  | '0' :: _ => some 1
  | s => if digitsLength s = 0 then none else some (digitsLength s)

def fractionLength? : List Char → Option Nat
  | '.' :: s => if digitsLength s = 0 then none else some (1 + digitsLength s)
  | _ => some 0

def exponentLength? : List Char → Option Nat
  | c :: s =>
    if c == 'e' || c == 'E' then
      let sign := if s.head? = some '+' ∨ s.head? = some '-' then 1 else 0
      let digits := digitsLength (s.drop sign)
      if digits = 0 then none else some (1 + sign + digits)
    else some 0
  | [] => some 0

def numberLength? (s : List Char) : Option Nat := do
  let sign := if s.head? = some '-' then 1 else 0
  let whole ← wholeLength? (s.drop sign)
  let fraction ← fractionLength? (s.drop (sign + whole))
  let exponent ← exponentLength? (s.drop (sign + whole + fraction))
  pure (sign + whole + fraction + exponent)

/-- The token that begins with `c`, and how many characters of `rest` belong to it. -/
def lexeme? (c : Char) (rest : List Char) : Option (Token × Nat) :=
  match c with
  | '[' => some (.openArray, 0)
  | ']' => some (.closeArray, 0)
  | '{' => some (.openObject, 0)
  | '}' => some (.closeObject, 0)
  | ',' => some (.comma, 0)
  | ':' => some (.colon, 0)
  | 'n' => if ['u', 'l', 'l'].isPrefixOf rest then some (.null, 3) else none
  | 't' => if ['r', 'u', 'e'].isPrefixOf rest then some (.boolean true, 3) else none
  | 'f' => if ['a', 'l', 's', 'e'].isPrefixOf rest then some (.boolean false, 4) else none
  | '"' => (closingQuote? rest).map fun n => (.string (rest.take n), n + 1)
  | c => (numberLength? (c :: rest)).map fun n => (.number ((c :: rest).take n), n - 1)

def lex : List Char → Option (List Token)
  | [] => some []
  | c :: rest =>
    if isSpace c then lex rest
    else
      match lexeme? c rest with
      | none => none
      | some (token, n) => (lex (rest.drop n)).map (token :: ·)
termination_by s => s.length
decreasing_by
  all_goals simp only [List.length_cons, List.length_drop]; omega

end DocQuery.Json
