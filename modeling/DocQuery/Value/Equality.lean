import DocQuery.Value

/-! # Equality of values

Two mappings are equal when they have equally many entries and each entry of the one has an equal
counterpart in the other; order does not matter. Numbers of different kinds are never equal, and
not-a-number is not equal to itself. -/

namespace DocQuery.Value

mutual

/-- Equality that ignores the order of entries. -/
def agrees : Value → Value → Bool
  | null, null => true
  | boolean a, boolean b => a == b
  | integer a, integer b => a == b
  | float x, float y => x == y
  | text s, text t => s == t
  | sequence xs, sequence ys => agreesItems xs ys
  | mapping xs, mapping ys => xs.length == ys.length && agreesEntries xs ys
  | _, _ => false

def agreesItems : List Value → List Value → Bool
  | [], [] => true
  | x :: xs, y :: ys => agrees x y && agreesItems xs ys
  | _, _ => false

def agreesEntries : List (String × Value) → Mapping → Bool
  | [], _ => true
  | (key, value) :: rest, ys =>
    (match Mapping.get? ys key with
    | some other => agrees value other
    | none => false) && agreesEntries rest ys

end

end DocQuery.Value
