import DocQuery.Json.Node
import DocQuery.Json.Quoted
import DocQuery.Settings.Form

/-! # Settings in JSON

A section is an object, or an array of its fields in their order; a word is a string, or an object
with that word as its only key and null as the value. -/

namespace DocQuery.Settings

/-- The word of an object `{"word": null}`. -/
def wordOf? : List (List Char × Json.Node) → Option String
  | [(spelling, .null)] => Json.decode? spelling
  | _ => none

mutual

def formOf : Json.Node → Form
  | .boolean b => .leaf none (some b) none false
  | .string spelling => .leaf (Json.decode? spelling) none (Json.decode? spelling) false
  | .array items => .items (formsOf items)
  | .object members =>
    match fieldsOf? members with
    | some fields => .fields fields (wordOf? members)
    | none => .unusable
  | .null | .number _ => .unusable

def formsOf : List Json.Node → List Form
  | [] => []
  | node :: rest => formOf node :: formsOf rest

def fieldsOf? : List (List Char × Json.Node) → Option (List (String × Form))
  | [] => some []
  | (spelling, node) :: rest => do
    let key ← Json.decode? spelling
    let fields ← fieldsOf? rest
    pure ((key, formOf node) :: fields)

end

def ofJson (text : String) : Except Error Settings :=
  match (Json.Node.read? text.toList).bind fun node => (formOf node).settings? with
  | some s => .ok s
  | none => .error (.invalidArgument .malformedSettings)

end DocQuery.Settings
