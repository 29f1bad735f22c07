import DocQuery.Json.Quoted
import DocQuery.Json.Token
import DocQuery.Number.Layout
import DocQuery.Value

/-! # JSON texts of values

A value is written as a row of tokens, in the order of its entries. The compact form writes the
tokens one behind the other; the pretty form puts line breaks, indentation and spaces between them
and is the same apart from that. -/

namespace DocQuery

/-- Floats in JSON: positional between `1e-5` and `1e16`, with a fraction; exponents carry their
sign; what is no number is null. -/
def Json.floatLayout : Number.Layout :=
  { tie := .toEven, positional := some (-5, 16), keepFraction := true, plusSign := true
    nan := "null", infinity := "null", minusInfinity := "null" }

/-- Floats on their own: always positional, whole numbers without fraction. -/
def Value.floatLayout : Number.Layout :=
  { tie := .up, positional := none, keepFraction := false, plusSign := false
    nan := "NaN", infinity := "inf", minusInfinity := "-inf" }

namespace Json

def floatToken (x : Float) : Token :=
  if x.isFinite then .number (floatLayout.write x) else .null

mutual

def tokens : Value → List Token
  | .null => [.null]
  | .boolean b => [.boolean b]
  | .integer n => [.number (Number.intNumeral n.toInt)]
  | .float x => [floatToken x]
  | .text s => [.string (encode s.toList)]
  | .sequence items => .openArray :: (itemTokens items ++ [.closeArray])
  | .mapping entries => .openObject :: (entryTokens entries ++ [.closeObject])

def itemTokens : List Value → List Token
  | [] => []
  | [value] => tokens value
  | value :: rest => tokens value ++ .comma :: itemTokens rest

def entryTokens : List (String × Value) → List Token
  | [] => []
  | [(key, value)] => .string (encode key.toList) :: .colon :: tokens value
  | (key, value) :: rest =>
    .string (encode key.toList) :: .colon :: (tokens value ++ .comma :: entryTokens rest)

end

def packed (ts : List Token) : List Char := ts.flatMap Token.written

def Token.opens : Token → Bool
  | openArray | openObject => true
  | _ => false

def Token.closes : Token → Bool
  | closeArray | closeObject => true
  | _ => false

def lineBreak (depth : Nat) : List Char := '\n' :: List.replicate (2 * depth) ' '

def gap (depth : Nat) (before after : Token) : List Char :=
  if before.opens then if after.closes then [] else lineBreak depth
  else if after.closes then lineBreak (depth - 1)
  else if before = .comma then lineBreak depth
  else if before = .colon then [' ']
  else []

def spread (depth : Nat) : List Token → List Char
  | [] => []
  | [t] => t.written
  | t :: u :: rest =>
    let inside := if t.opens then depth + 1 else if t.closes then depth - 1 else depth
    t.written ++ gap inside t u ++ spread inside (u :: rest)

end Json

namespace Value

def json (v : Value) : String := String.ofList (Json.packed (Json.tokens v))

def pretty (v : Value) : String := String.ofList (Json.spread 0 (Json.tokens v))

/-- How a value reads in messages: text bare, sequences and mappings as JSON. -/
def display : Value → String
  | null => "null"
  | boolean true => "true"
  | boolean false => "false"
  | integer n => String.ofList (Number.intNumeral n.toInt)
  | float x => String.ofList (floatLayout.write x)
  | text s => s
  | sequence items => (sequence items).json
  | mapping entries => (mapping entries).json

end Value

end DocQuery
