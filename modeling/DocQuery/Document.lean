import DocQuery.Failure
import DocQuery.Json.Tree
import DocQuery.Yaml.Composition
import DocQuery.Yaml.Conversion

/-! # Documents

A document is a mapping and the key that it was loaded under. Its name is the file name in that
key, without directories and extension. -/

namespace DocQuery

structure Document where
  key : String
  root : Mapping
  deriving Repr

namespace Document

/-- The file name in a key. A dot at its front does not begin an extension. -/
def nameOf (key : List Char) : List Char :=
  let file := Text.afterLast '/' key
  match Text.beforeLast? '.' file with
  | some (c :: front) => c :: front
  | _ => file

def name (d : Document) : String := String.ofList (nameOf d.key.toList)

/-- The document with a given root. The root of a document is a mapping; null, the value of an
empty file, stands for the empty mapping. -/
def ofValue (key : String) : Value → Except Error Document
  | .mapping root => .ok { key, root }
  | .null => .ok { key, root := [] }
  | other => .error (.invalidArgument (.rootNotMapping key other.kind))

def ofJson (text : String) : Except Error Document :=
  match Json.Tree.read? text with
  | some tree => ofValue "" tree.toValue
  | none => .error (.invalidArgument (.malformedDocument .json))

def ofYaml (text : String) : Logged (Except Error Document) :=
  match Yaml.Tree.read? text with
  | some tree =>
    let v := tree.toValue
    { result := ofValue "" v.result, log := v.log }
  | none => { result := .error (.invalidArgument (.malformedDocument .yaml)), log := [] }

end Document

end DocQuery
