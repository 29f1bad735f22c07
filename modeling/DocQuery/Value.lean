import DocQuery.Number.Binary

/-! # Values

A document is a tree of mappings, sequences and scalars, whatever format it was written in. A
mapping is a list of entries in order; its keys are distinct as long as entries are only added by
`Mapping.insert`. -/

namespace DocQuery

inductive Value
  | null
  | boolean (b : Bool)
  | integer (n : Int64)
  | float (x : Float)
  | text (s : String)
  | sequence (items : List Value)
  | mapping (entries : List (String × Value))
  deriving Repr, Inhabited

abbrev Mapping := List (String × Value)

inductive Kind
  | null
  | boolean
  | integer
  | float
  | text
  | sequence
  | mapping
  deriving DecidableEq, Repr

namespace Kind

def name : Kind → String
  | null => "null"
  | boolean => "boolean"
  | integer => "integer"
  | float => "float"
  | text => "text"
  | sequence => "sequence"
  | mapping => "mapping"

def isNumeric : Kind → Bool
  | integer | float => true
  | _ => false

end Kind

namespace Mapping

def get? : Mapping → String → Option Value
  | [], _ => none
  | (k, v) :: rest, key => if k = key then some v else get? rest key

/-- Stores a value. A key that is present keeps its place, a new one goes to the end. -/
def insert : Mapping → String → Value → Mapping
  | [], key, value => [(key, value)]
  | (k, v) :: rest, key, value =>
    if k = key then (k, value) :: rest else (k, v) :: insert rest key value

def ofEntries (entries : List (String × Value)) : Mapping :=
  entries.foldl (fun m (k, v) => insert m k v) []

def keys (m : Mapping) : List String := m.map Prod.fst

theorem get?_insert_self (m : Mapping) (key : String) (value : Value) :
    (insert m key value).get? key = some value := by
  induction m with
  | nil => simp [insert, get?]
  | cons entry rest ih =>
    obtain ⟨k, v⟩ := entry
    by_cases h : k = key <;> simp [insert, get?, h, ih]

theorem get?_insert_of_ne (m : Mapping) {key other : String} (value : Value) (h : other ≠ key) :
    (insert m key value).get? other = get? m other := by
  induction m with
  | nil => simp [insert, get?, Ne.symm h]
  | cons entry rest ih =>
    obtain ⟨k, v⟩ := entry
    by_cases hk : k = key
    · subst hk; simp [insert, get?, Ne.symm h]
    · by_cases ho : k = other
      · subst ho; simp [insert, get?, hk]
      · simp [insert, get?, hk, ho, ih]

theorem keys_insert (m : Mapping) (key : String) (value : Value) :
    keys (insert m key value) = if key ∈ keys m then keys m else keys m ++ [key] := by
  induction m with
  | nil => simp [insert, keys]
  | cons entry rest ih =>
    obtain ⟨k, v⟩ := entry
    by_cases hk : k = key
    · simp [insert, keys, hk]
    · have hk' : ¬ key = k := fun h => hk h.symm
      simp only [keys] at ih
      by_cases hm : key ∈ rest.map Prod.fst <;> simp [insert, keys, hk, hk', hm, ih]

end Mapping

namespace Value

def kind : Value → Kind
  | null => .null
  | boolean _ => .boolean
  | integer _ => .integer
  | float _ => .float
  | text _ => .text
  | sequence _ => .sequence
  | mapping _ => .mapping

def isNull : Value → Bool
  | null => true
  | _ => false

def text? : Value → Option String
  | text s => some s
  | _ => none

def boolean? : Value → Option Bool
  | boolean b => some b
  | _ => none

/-- A number as an integer; the fraction of a float is dropped. -/
def integer? : Value → Option Int64
  | integer n => some n
  | float x => some (Number.truncate x)
  | _ => none

/-- A number as a float; an integer becomes the nearest one. -/
def float? : Value → Option Float
  | integer n => some (Number.floatOfInt n.toInt)
  | float x => some x
  | _ => none

def sequence? : Value → Option (List Value)
  | sequence items => some items
  | _ => none

def mapping? : Value → Option Mapping
  | mapping entries => some entries
  | _ => none

def get? (v : Value) (key : String) : Option Value := v.mapping?.bind (Mapping.get? · key)

@[simp] theorem isNull_iff (v : Value) : v.isNull = true ↔ v = null := by
  cases v <;> simp [isNull]

end Value

end DocQuery
