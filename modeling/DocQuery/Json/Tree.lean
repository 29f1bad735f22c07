import DocQuery.Json.Node
import DocQuery.Json.Number
import DocQuery.Json.Quoted

/-! # JSON trees

The meaning of a JSON text. Objects are sorted by their keys; a repeated key has the last of its
values. -/

namespace DocQuery.Json

inductive Tree
  | null
  | boolean (b : Bool)
  | number (n : Numeric)
  | text (s : String)
  | array (items : List Tree)
  | object (members : List (String × Tree))
  deriving Repr, Inhabited

def depthBound : Nat := 127

def insertSorted (members : List (String × Tree)) (key : String) (tree : Tree) :
    List (String × Tree) :=
  match members with
  | [] => [(key, tree)]
  | (k, t) :: rest =>
    if key < k then (key, tree) :: (k, t) :: rest
    else if key = k then (key, tree) :: rest
    else (k, t) :: insertSorted rest key tree

namespace Node

mutual

/-- The meaning of a syntax tree; none if a number is too large or an escape means nothing. -/
def tree? : Node → Option Tree
  | null => some .null
  | boolean b => some (.boolean b)
  | number spelling => (numeric? spelling).map .number
  | string spelling => (decode? spelling).map .text
  | array items => (trees? items).map .array
  | object members => (members? [] members).map .object

def trees? : List Node → Option (List Tree)
  | [] => some []
  | node :: rest => do
    let tree ← tree? node
    let trees ← trees? rest
    pure (tree :: trees)

def members? (done : List (String × Tree)) :
    List (List Char × Node) → Option (List (String × Tree))
  | [] => some done
  | (spelling, node) :: rest => do
    let key ← decode? spelling
    let tree ← tree? node
    members? (insertSorted done key tree) rest

end

end Node

namespace Tree

def read? (text : String) : Option Tree :=
  match Node.read? text.toList with
  | some node => if node.depth ≤ depthBound then node.tree? else none
  | none => none

mutual

def toValue : Tree → Value
  | null => .null
  | boolean b => .boolean b
  | number n => n.toValue
  | text s => .text s
  | array items => .sequence (toValues items)
  | object members => .mapping (Mapping.ofEntries (toEntries members))

def toValues : List Tree → List Value
  | [] => []
  | tree :: rest => toValue tree :: toValues rest

def toEntries : List (String × Tree) → List (String × Value)
  | [] => []
  | (key, tree) :: rest => (key, toValue tree) :: toEntries rest

end

end Tree

end DocQuery.Json
