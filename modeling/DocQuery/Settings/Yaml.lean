import DocQuery.Settings.Form
import DocQuery.Yaml.Node
import DocQuery.Yaml.Plain

/-! # Settings in YAML

A section is a mapping, or nothing at all; any scalar can be read as text, as it is written, and a
plain one, or a literal one with the tag of booleans, as a flag. A word is a scalar, or a local tag
on an empty one. -/

namespace DocQuery.Settings

def wordOfScalar? (tag : Option String) (style : Yaml.Style) (text : String) : Option String :=
  match tag.map String.toList with
  | some ('!' :: name) =>
    if style = .plain ∧ (text = "" ∨ Yaml.isNullWord text) then some (String.ofList name) else none
  | _ => some text

def flagOfScalar? (tag : Option String) (style : Yaml.Style) (text : String) : Option Bool :=
  if style = .plain ∨ (style = .literal ∧ tag = some Yaml.booleanTag) then Yaml.boolean? text
  else none

def formOfScalar (tag : Option String) (style : Yaml.Style) (text : String) : Form :=
  .leaf (some text) (flagOfScalar? tag style text) (wordOfScalar? tag style text)
    (style = .plain ∧ text = "")

def keyOf? (s : Yaml.Stream) (key : Yaml.Node) : Option String :=
  let key :=
    match key with
    | .reference number => (s.target? number).getD key
    | key => key
  match key with
  | .scalar _ _ text => some text
  | _ => none

def formOfYaml (s : Yaml.Stream) : (depth : Nat) → Yaml.Node → Form
  | 0, _ => .unusable
  | depth + 1, node =>
    let node :=
      match node with
      | .reference number => (s.target? number).getD node
      | node => node
    match node with
    | .scalar tag style text => formOfScalar tag style text
    | .mapping _ entries =>
      match entries.mapM fun (key, _) => keyOf? s key with
      | some keys => .fields (keys.zip (entries.map fun (_, value) => formOfYaml s depth value)) none
      | none => .unusable
    | _ => .unusable

/-- Settings are nested no deeper than this: sections, the sections in them, and their leaves. -/
def nesting : Nat := 4

def ofYaml (text : String) : Except Error Settings :=
  let form? := (Yaml.Stream.read? text).map fun s =>
    match s.root with
    | some root => formOfYaml s nesting root
    | none => .fields [] none
  match form?.bind Form.settings? with
  | some s => .ok s
  | none => .error (.invalidArgument .malformedSettings)

end DocQuery.Settings
