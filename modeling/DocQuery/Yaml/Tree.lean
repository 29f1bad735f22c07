import DocQuery.Number.Layout
import DocQuery.Value.Numeric

/-! # YAML trees

The meaning of a YAML text: scalars of the core kinds, sequences, mappings with keys of any kind,
and nodes with a local tag. A scalar key is addressed by its text. -/

namespace DocQuery.Yaml

inductive Tree
  | null
  | boolean (b : Bool)
  | number (n : Numeric)
  | text (s : String)
  | sequence (items : List Tree)
  | mapping (entries : List (Tree × Tree))
  | tagged (tag : String) (inner : Tree)
  deriving Repr, Inhabited

/-- Floats as keys: positional between `1e-5` and `1e16`, with a fraction. -/
def keyLayout : Number.Layout :=
  { tie := .toEven, positional := some (-5, 16), keepFraction := true, plusSign := false
    nan := ".nan", infinity := ".inf", minusInfinity := "-.inf" }

def numberText : Numeric → String
  | .natural n => Number.natText n.toNat
  | .negative n => String.ofList (Number.intNumeral n.toInt)
  | .float x => String.ofList (keyLayout.write x)

namespace Tree

def keyText? : Tree → Option String
  | null => some "null"
  | boolean true => some "true"
  | boolean false => some "false"
  | number n => some (numberText n)
  | text s => some s
  | sequence _ => none
  | mapping _ => none
  | tagged _ inner => keyText? inner

end Tree

end DocQuery.Yaml
