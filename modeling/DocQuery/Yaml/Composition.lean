import DocQuery.Yaml.Node
import DocQuery.Yaml.Plain
import DocQuery.Yaml.Tree

/-! # From YAML syntax to meaning

Plain scalars get the meaning of their spelling, unless one of the core tags asks for a certain one;
a local tag stays around its node. An alias stands for a copy of its node. Collections may be nested
128 deep, aliases may be followed a hundred times as often as the text is long, and no mapping may
have two equal keys. -/

namespace DocQuery.Yaml

def localTag? : Option String → Option String
  | some tag =>
    match tag.toList with
    | '!' :: name => some (String.ofList name)
    | _ => none
  | none => none

def tagName (tag : String) : List Char :=
  match tag.toList with
  | '!' :: c :: name => c :: name
  | name => name

namespace Tree

def ofScalar : Scalar → Tree
  | .null => null
  | .boolean b => boolean b
  | .number n => number n
  | .text s => text s

/-- The meaning of a scalar with a core tag; other tags make it text. -/
def ofCore? (tag s : String) : Option Tree :=
  if tag = booleanTag then (boolean? s).map boolean
  else if tag = "tag:yaml.org,2002:int" then
    match integer? s.toList with
    | some _ =>
      match number? s.toList with
      | some (some (.float _)) => none
      | some (some n) => some (number n)
      | _ => none
    | none => none
  else if tag = "tag:yaml.org,2002:float" then (float? s.toList).map fun x => number (.float x)
  else if tag = "tag:yaml.org,2002:null" then if isNullWord s then some null else none
  else some (text s)

def ofScalar? (tag : Option String) (style : Style) (s : String) : Option Tree :=
  match tag, localTag? tag with
  | some tag, none => ofCore? tag s
  | _, _ => if style = .plain then (Scalar.ofPlain? s).map ofScalar else some (text s)

mutual

/-- Equality as keys: the order of entries does not count, and not-a-number equals itself. -/
def same : Tree → Tree → Bool
  | null, null => true
  | boolean a, boolean b => a == b
  | number a, number b => sameNumber a b
  | text s, text t => s == t
  | sequence xs, sequence ys => sameItems xs ys
  | mapping xs, mapping ys => xs.length == ys.length && sameEntries xs ys
  | tagged s x, tagged t y => tagName s == tagName t && same x y
  | _, _ => false

def sameItems : List Tree → List Tree → Bool
  | [], [] => true
  | x :: xs, y :: ys => same x y && sameItems xs ys
  | _, _ => false

def sameEntries : List (Tree × Tree) → List (Tree × Tree) → Bool
  | [], _ => true
  | (key, value) :: rest, ys =>
    ys.any (fun (k, v) => same key k && same value v) && sameEntries rest ys

def sameNumber : Numeric → Numeric → Bool
  | .natural a, .natural b => a == b
  | .negative a, .negative b => a == b
  | .float x, .float y => x == y || (x.isNaN && y.isNaN)
  | _, _ => false

end

abbrev Compose := StateT Nat Option

def depthBound : Nat := 128

/-- Adds the entries of a mapping to those that are done; equal keys are an error. -/
def composeEntries (compose : Node → Compose Tree) (done : List (Tree × Tree)) :
    List (Node × Node) → Compose (List (Tree × Tree))
  | [] => pure done
  | (k, v) :: rest => do
    let key ← compose k
    if done.any (fun (other, _) => same key other) then failure
    let value ← compose v
    composeEntries compose (done ++ [(key, value)]) rest

def wrap? (tag : Option String) (t : Tree) : Option Tree :=
  match localTag? tag with
  | none => some t
  | some "" => none
  | some name => some (tagged name t)

def compose (s : Stream) : (depth : Nat) → Node → Compose Tree
  | depth, node => do
    let node ←
      match node with
      | .reference n => do
        modify (· + 1)
        if 100 * (s.root.map Node.size).getD 1 < (← get) then failure
        match s.target? n with
        | some target => pure target
        | none => failure
      | node => pure node
    match node, depth with
    | .reference _, _ => failure
    | .scalar tag style content, _ => do
      let t ← (ofScalar? tag style content : Option Tree)
      (wrap? tag t : Option Tree)
    | .sequence _ _, 0 => failure
    | .mapping _ _, 0 => failure
    | .sequence tag items, depth + 1 => do
      let t := sequence (← items.mapM (compose s depth))
      (wrap? tag t : Option Tree)
    | .mapping tag entries, depth + 1 => do
      let t := mapping (← composeEntries (compose s depth) [] entries)
      (wrap? tag t : Option Tree)

def ofStream? (s : Stream) : Option Tree :=
  match s.root with
  | none => some null
  | some root => ((compose s depthBound root).run 0).map Prod.fst

def read? (text : String) : Option Tree := (Stream.read? text).bind ofStream?

end Tree

end DocQuery.Yaml
