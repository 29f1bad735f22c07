import DocQuery.Yaml.Token.Lexer

/-! # YAML syntax trees

The structure of a YAML text: scalars as they are written, sequences, mappings in their written
order, and aliases. Anchored nodes are numbered; a number is the count of different names that were
anchored before, and an alias means the last node with the number of its name. -/

namespace DocQuery.Yaml

inductive Node
  | scalar (tag : Option String) (style : Style) (text : String)
  | sequence (tag : Option String) (items : List Node)
  | mapping (tag : Option String) (entries : List (Node × Node))
  | reference (number : Nat)
  deriving Repr, Inhabited

def Node.empty : Node := .scalar none .plain ""

structure Anchored where
  number : Nat
  /-- the count of nodes anchored before it -/
  order : Nat
  node : Node
  deriving Repr

structure Stream where
  root : Option Node
  anchored : List Anchored
  deriving Repr

namespace Node

mutual

/-- The length of a tree in events: two for a collection and one for any other node. -/
def size : Node → Nat
  | scalar _ _ _ => 1
  | reference _ => 1
  | sequence _ items => 2 + sizeItems items
  | mapping _ entries => 2 + sizeEntries entries

def sizeItems : List Node → Nat
  | [] => 0
  | node :: rest => size node + sizeItems rest

def sizeEntries : List (Node × Node) → Nat
  | [] => 0
  | (key, value) :: rest => size key + size value + sizeEntries rest

end

end Node

/-- The node that an alias means: of the nodes with its number, the one anchored last. -/
def Stream.target? (s : Stream) (number : Nat) : Option Node :=
  let nodes := s.anchored.filter (·.number == number)
  (nodes.foldl (fun best a =>
    match best with
    | none => some a
    | some b => some (if b.order ≤ a.order then a else b)) none).map (·.node)

/-! ## Reading -/

structure Reader where
  tokens : List Token
  handles : List (String × String) := []
  names : List (String × Nat) := []
  count : Nat := 0
  anchored : List Anchored := []

abbrev Read := StateT Reader Option

namespace Read

def peek : Read (Option Token) := do return (← get).tokens.head?

def advance : Read Unit := modify fun r => { r with tokens := r.tokens.drop 1 }

def isNext (ts : List Token) : Read Bool := do
  match ← peek with
  | some t => return ts.contains t
  | none => return false

def accept (t : Token) : Read Bool := do
  if (← peek) == some t then
    advance
    return true
  else return false

def expect (t : Token) : Read Unit := do if !(← accept t) then failure

def standardHandles : List (String × String) := [("!", "!"), ("!!", "tag:yaml.org,2002:")]

def tagOf (handle suffix : String) : Read String := do
  if handle = "" then return suffix
  match ((← get).handles ++ standardHandles).lookup handle with
  | some replacement => return replacement ++ suffix
  | none => failure

def anchor (name : String) : Read (Nat × Nat) := do
  let r ← get
  let number := r.names.length
  let others := r.names.map fun (n, i) => (n, if n = name then number else i)
  let names := if (r.names.lookup name).isSome then others else (name, number) :: r.names
  set { r with names, count := r.count + 1 }
  return (number, r.count)

def properties : Read (Option String × Option String) := do
  let anchorName : Read (Option String) := do
    match ← peek with
    | some (.anchor name) => advance; return some name
    | _ => return none
  let tag : Read (Option (String × String)) := do
    match ← peek with
    | some (.tag handle suffix) => advance; return some (handle, suffix)
    | _ => return none
  let before ← anchorName
  let spelled ← tag
  let name ← if before.isNone && spelled.isSome then anchorName else pure before
  match spelled with
  | some (handle, suffix) => return (name, some (← tagOf handle suffix))
  | none => return (name, none)

def emptyIf (mayBeEmpty : Bool) (tag : Option String) : Read Node :=
  if mayBeEmpty then return .scalar tag .plain "" else failure

mutual

/-- Reads a node. Block collections are read only where they are allowed, and sequences without
indentation of their own only as values of block mappings. -/
def node : (steps : Nat) → (block indentless : Bool) → Read Node
  | 0, _, _ => failure
  | steps + 1, block, indentless => do
    if let some (.reference name) ← peek then
      advance
      match (← get).names.lookup name with
      | some number => return .reference number
      | none => failure
    let (name, tag) ← properties
    let place ← name.mapM anchor
    let n ← content steps block indentless (name.isSome || tag.isSome) tag
    if let some (number, order) := place then
      modify fun r => { r with anchored := ⟨number, order, n⟩ :: r.anchored }
    return n

def content : (steps : Nat) → (block indentless mayBeEmpty : Bool) → Option String → Read Node
  | 0, _, _, _, _ => failure
  | steps + 1, block, indentless, mayBeEmpty, tag => do
    match ← peek with
    | some (.scalar text style) =>
      advance
      return .scalar tag style text
    | some .flowSequenceStart =>
      advance
      return .sequence tag (← flowItems steps true)
    | some .flowMappingStart =>
      advance
      return .mapping tag (← flowEntries steps true)
    | some .blockSequenceStart =>
      if !block then emptyIf mayBeEmpty tag
      else
        advance
        return .sequence tag (← blockItems steps)
    | some .blockMappingStart =>
      if !block then emptyIf mayBeEmpty tag
      else
        advance
        return .mapping tag (← blockEntries steps)
    | some .blockEntry =>
      if indentless then return .sequence tag (← indentlessItems steps)
      else emptyIf mayBeEmpty tag
    | _ => emptyIf mayBeEmpty tag

def nodeUnless : (steps : Nat) → (block indentless : Bool) → List Token → Read Node
  | 0, _, _, _ => failure
  | steps + 1, block, indentless, ends => do
    if ← isNext ends then return .empty else node steps block indentless

def blockItems : (steps : Nat) → Read (List Node)
  | 0 => failure
  | steps + 1 => do
    if ← accept .blockEnd then return []
    expect .blockEntry
    let item ← nodeUnless steps true false [.blockEntry, .blockEnd]
    return item :: (← blockItems steps)

def indentlessItems : (steps : Nat) → Read (List Node)
  | 0 => failure
  | steps + 1 => do
    if !(← accept .blockEntry) then return []
    let item ← nodeUnless steps true false [.blockEntry, .key, .value, .blockEnd]
    return item :: (← indentlessItems steps)

def blockEntries : (steps : Nat) → Read (List (Node × Node))
  | 0 => failure
  | steps + 1 => do
    if ← accept .blockEnd then return []
    expect .key
    let key ← nodeUnless steps true true [.key, .value, .blockEnd]
    let value ←
      if ← accept .value then nodeUnless steps true true [.key, .value, .blockEnd]
      else pure .empty
    return (key, value) :: (← blockEntries steps)

/-- Reads the items of a flow sequence. An item may be a pair, a mapping of one entry. -/
def flowItems : (steps : Nat) → (first : Bool) → Read (List Node)
  | 0, _ => failure
  | steps + 1, first => do
    if ← accept .flowSequenceEnd then return []
    if !first then expect .flowEntry
    if !first && (← accept .flowSequenceEnd) then return []
    let item ← if ← accept .key then flowPair steps else node steps false false
    return item :: (← flowItems steps false)

/-- Reads a pair behind its key token. Where the key is empty, the token behind it is left out. -/
def flowPair : (steps : Nat) → Read Node
  | 0 => failure
  | steps + 1 => do
    let key ←
      if ← isNext [.value, .flowEntry, .flowSequenceEnd] then
        advance
        pure Node.empty
      else node steps false false
    let value ←
      if ← accept .value then nodeUnless steps false false [.flowEntry, .flowSequenceEnd]
      else pure .empty
    return .mapping none [(key, value)]

def flowEntries : (steps : Nat) → (first : Bool) → Read (List (Node × Node))
  | 0, _ => failure
  | steps + 1, first => do
    if ← accept .flowMappingEnd then return []
    if !first then expect .flowEntry
    if !first && (← accept .flowMappingEnd) then return []
    let entry ←
      if ← accept .key then do
        let key ← nodeUnless steps false false [.value, .flowEntry, .flowMappingEnd]
        let value ←
          if ← accept .value then nodeUnless steps false false [.flowEntry, .flowMappingEnd]
          else pure .empty
        pure (key, value)
      else do pure (← node steps false false, Node.empty)
    return entry :: (← flowEntries steps false)

end

/-- Reads directives: at most one version, which has to be 1.1 or 1.2, and a handle once each. -/
def directives : (steps : Nat) → (versioned : Bool) → Read Unit
  | 0, _ => failure
  | steps + 1, versioned => do
    match ← peek with
    | some (.version major minor) =>
      if versioned || major != 1 || (minor != 1 && minor != 2) then failure
      advance
      directives steps true
    | some (.tagHandle handle replacement) =>
      let r ← get
      if (r.handles.lookup handle).isSome then failure
      set { r with handles := r.handles ++ [(handle, replacement)] }
      advance
      directives steps versioned
    | _ => return ()

def isDirective : Read Bool := do
  match ← peek with
  | some (.version _ _) | some (.tagHandle _ _) => return true
  | _ => return false

def stream (steps : Nat) : Read (Option Node) := do
  if (← get).tokens.isEmpty then return none
  let explicit := (← isDirective) || (← isNext [.documentStart])
  let root ←
    if explicit then do
      directives steps false
      expect .documentStart
      let empty := (← get).tokens.isEmpty || (← isDirective) ||
        (← isNext [.documentStart, .documentEnd])
      if empty then pure .empty else node steps true false
    else node steps true false
  modify fun r => { r with tokens := r.tokens.dropWhile (· == .documentEnd) }
  if (← get).tokens.isEmpty then return some root else failure

end Read

/-- Reads the one document of a row of tokens. Every step of the reader that takes no token leads to
one that does. -/
def Stream.ofTokens? (tokens : List Token) : Option Stream := do
  let (root, r) ← (Read.stream (4 * tokens.length + 4)).run { tokens }
  pure { root, anchored := r.anchored }

def Stream.read? (text : String) : Option Stream := (lex text.toList).bind Stream.ofTokens?

end DocQuery.Yaml
