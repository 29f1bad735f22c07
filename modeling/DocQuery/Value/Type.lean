import DocQuery.Value

/-! # Requested types

A caller may ask for a value of a certain type. Integer and float both accept any number; apart
from that a type accepts the kind of its own name, and nothing is converted. -/

namespace DocQuery

inductive ValueType
  | text
  | integer
  | float
  | boolean
  | sequence
  | mapping
  deriving DecidableEq, Repr

namespace ValueType

def all : List ValueType := [text, integer, float, boolean, sequence, mapping]

def name : ValueType → String
  | text => "text"
  | integer => "integer"
  | float => "float"
  | boolean => "boolean"
  | sequence => "sequence"
  | mapping => "mapping"

def ofName? (name : String) : Option ValueType := all.find? (·.name = name)

def accepts : ValueType → Kind → Bool
  | text, .text => true
  | integer, kind => kind.isNumeric
  | float, kind => kind.isNumeric
  | boolean, .boolean => true
  | sequence, .sequence => true
  | mapping, .mapping => true
  | _, _ => false

/-- The content of a value at the type: the value itself, or the number converted between integer
and float. -/
def extract? : ValueType → Value → Option Value
  | text, v => v.text?.map .text
  | integer, v => v.integer?.map .integer
  | float, v => v.float?.map .float
  | boolean, v => v.boolean?.map .boolean
  | sequence, v => v.sequence?.map .sequence
  | mapping, v => v.mapping?.map .mapping

@[simp] theorem ofName?_name (t : ValueType) : ofName? t.name = some t := by
  cases t <;> rfl

end ValueType

end DocQuery
