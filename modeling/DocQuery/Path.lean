import DocQuery.Number.Numeral
import DocQuery.Text.Split

/-! # Paths

A path is a descent route through a document, written as segments with dots between them:

    path     =  segment ("." segment)*
    segment  =  name | name "[" digits "]"
    name     =  any run of characters other than "." and "["

The empty text is the path without segments. -/

namespace DocQuery

inductive Segment
  | field (name : String)
  /-- an element, counted from zero, of the sequence under a name -/
  | indexed (name : String) (index : UInt64)
  deriving DecidableEq, Repr

namespace Segment

def name : Segment → String
  | field name => name
  | indexed name _ => name

def index? : Segment → Option UInt64
  | field _ => none
  | indexed _ index => some index

def written : Segment → List Char
  | field name => name.toList
  | indexed name index => name.toList ++ '[' :: (Number.numeral index.toNat ++ [']'])

def text (s : Segment) : String := String.ofList s.written

end Segment

structure Path where
  source : String
  segments : List Segment
  deriving DecidableEq, Repr

namespace Path

def written (segments : List Segment) : List Char := Text.join '.' (segments.map Segment.written)

def isNameChar (c : Char) : Bool := c != '.' && c != '['

end Path

end DocQuery
