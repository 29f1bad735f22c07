import DocQuery.Settings

/-! # Reading settings

A `Form` is what a settings text offers at one place: for a leaf, the texts and flags that it can
be read as; for a section, its fields in their written order, or its items by position. A field
that is left out has its default, a field that is given twice is an error, and what no setting asks
for is not looked at. -/

namespace DocQuery.Settings

inductive Form
  /-- a leaf: as text, as a flag, as one of several words, as a section without fields -/
  | leaf (text? : Option String) (flag? : Option Bool) (word? : Option String) (blank : Bool)
  /-- a section with named fields; some are also one of several words -/
  | fields (entries : List (String × Form)) (word? : Option String)
  | items (values : List Form)
  deriving Inhabited

namespace Form

def unusable : Form := .leaf none none none false

def flag? : Form → Option Bool
  | leaf _ flag _ _ => flag
  | _ => none

def text? : Form → Option String
  | leaf text _ _ _ => text
  | _ => none

def choice? (choices : List (String × α)) : Form → Option α
  | leaf _ _ word _ => word.bind fun w => choices.lookup w
  | fields _ word => word.bind fun w => choices.lookup w
  | items _ => none

def isSection (size : Nat) : Form → Bool
  | leaf _ _ _ blank => blank
  | fields _ _ => true
  | items values => values.length ≤ size

def field? (read : Form → Option α) (default : α) (position : Nat) (name : String) :
    Form → Option α
  | leaf _ _ _ blank => if blank then some default else none
  | items values =>
    match values[position]? with
    | some form => read form
    | none => some default
  | fields entries _ =>
    match entries.filter (·.1 = name) with
    | [] => some default
    | [(_, form)] => read form
    | _ => none

def section? (size : Nat) (f : Form) : Option Form := if f.isSection size then some f else none

def queries? (f : Form) : Option Resolution.Options := do
  let f ← f.section? 2
  let throwOnMissing ← f.field? flag? true 0 "throw_on_missing"
  let emptyPath ← f.field?
    (choice? [("resolve_to_empty_string", .emptyText), ("reject", .reject)]) .emptyText 1 "empty_path"
  pure { throwOnMissing, emptyPath }

def tags? (f : Form) : Option Tag.Options := do
  let f ← f.section? 1
  let emptyTokens ← f.field? (choice? [("keep", .keep), ("reject", .reject)]) .keep 0 "empty_tokens"
  pure { emptyTokens }

def cache? (f : Form) : Option Cache.Settings := do
  let f ← f.section? 3
  let baseDirectory ← f.field? text? "" 0 "base_dir"
  let extension ← f.field? text? Cache.standardExtension 1 "default_extension"
  let queries ← f.field? queries? {} 2 "engine"
  pure { baseDirectory, extension, queries }

def settings? (f : Form) : Option Settings := do
  let f ← f.section? 3
  let queries ← f.field? queries? {} 0 "engine"
  let tags ← f.field? tags? {} 1 "tags"
  let cache ← f.field? cache? {} 2 "cache"
  pure { queries, tags, cache }

end Form

end DocQuery.Settings
