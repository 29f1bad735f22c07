import DocQuery.Json.Token

/-! # JSON syntax trees

The structure of a JSON text: arrays and objects in their written order, with repeated keys, and
leaves as they are spelled. The tokens are read one by one; the arrays and objects that are still
open are held on a stack. -/

namespace DocQuery.Json

inductive Node
  | null
  | boolean (b : Bool)
  | number (spelling : List Char)
  | string (spelling : List Char)
  | array (items : List Node)
  | object (members : List (List Char × Node))
  deriving Repr, Inhabited

/-- An array or object that is still open; what it holds so far is in reverse order. -/
inductive Frame
  | array (items : List Node)
  | object (members : List (List Char × Node)) (key : List Char)
  deriving Repr

/-- What has been read, and what may come next. -/
inductive Reading
  | value (stack : List Frame)
  | firstItem (stack : List Frame)
  | firstKey (stack : List Frame)
  | key (members : List (List Char × Node)) (stack : List Frame)
  | colon (members : List (List Char × Node)) (key : List Char) (stack : List Frame)
  | complete (node : Node) (stack : List Frame)
  deriving Repr

namespace Reading

def begin? (stack : List Frame) : Token → Option Reading
  | .null => some (complete .null stack)
  | .boolean b => some (complete (.boolean b) stack)
  | .number spelling => some (complete (.number spelling) stack)
  | .string spelling => some (complete (.string spelling) stack)
  | .openArray => some (firstItem stack)
  | .openObject => some (firstKey stack)
  | _ => none

def step? : Reading → Token → Option Reading
  | value stack, token => begin? stack token
  | firstItem stack, .closeArray => some (complete (.array []) stack)
  | firstItem stack, token => begin? (.array [] :: stack) token
  | firstKey stack, .closeObject => some (complete (.object []) stack)
  | firstKey stack, .string k => some (colon [] k stack)
  | key members stack, .string k => some (colon members k stack)
  | colon members k stack, .colon => some (value (.object members k :: stack))
  | complete node (.array items :: stack), .comma => some (value (.array (node :: items) :: stack))
  | complete node (.array items :: stack), .closeArray =>
    some (complete (.array (node :: items).reverse) stack)
  | complete node (.object members k :: stack), .comma => some (key ((k, node) :: members) stack)
  | complete node (.object members k :: stack), .closeObject =>
    some (complete (.object ((k, node) :: members).reverse) stack)
  | _, _ => none

def run? (r : Reading) (tokens : List Token) : Option Reading := tokens.foldlM step? r

end Reading

namespace Node

def ofTokens? (tokens : List Token) : Option Node :=
  match Reading.run? (.value []) tokens with
  | some (.complete node []) => some node
  | _ => none

def read? (text : List Char) : Option Node := (lex text).bind ofTokens?

mutual

def depth : Node → Nat
  | array items => depthItems items + 1
  | object members => depthMembers members + 1
  | _ => 0

def depthItems : List Node → Nat
  | [] => 0
  | node :: rest => max (depth node) (depthItems rest)

def depthMembers : List (List Char × Node) → Nat
  | [] => 0
  | (_, node) :: rest => max (depth node) (depthMembers rest)

end

end Node

end DocQuery.Json
