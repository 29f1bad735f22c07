import DocQuery.Cache.Settings
import DocQuery.Command.Words
import DocQuery.Query
import DocQuery.Tag

/-! # Commands

`get` prints the value at a path of a document file and `tags` the clauses of a tag expression. A
command that fails prints nothing but its error. -/

namespace DocQuery.Command

structure Get where
  /-- a path, or a template if there are arguments -/
  path : String
  file : String
  arguments : List String := []
  type : Option ValueType := none
  lenient : Bool := false
  pretty : Bool := false
  deriving Repr

structure Tags where
  expression : String
  strict : Bool := false
  deriving Repr

inductive Invocation
  | get (g : Get)
  | tags (t : Tags)
  | version
  | help
  | misuse
  deriving Repr

/-! ## Reading command lines -/

structure GetWords where
  path : Option String := none
  file : Option String := none
  arguments : List String := []
  type : Option ValueType := none
  lenient : Bool := false
  pretty : Bool := false

def getChoices : List Choice :=
  [{ long := "file", short := 'f', hasValue := true }, { long := "arg", short := 'a', hasValue := true },
    { long := "type", short := 't', hasValue := true }, { long := "lenient", short := 'l' },
    { long := "pretty", short := 'p' }]

/-- Only arguments may be given more than once. -/
def GetWords.add (w : GetWords) : Item → Option GetWords
  | .positional word => if w.path.isSome then none else some { w with path := some word }
  | .valued 'f' value => if w.file.isSome then none else some { w with file := some value }
  | .valued 'a' value => some { w with arguments := w.arguments ++ [value] }
  | .valued 't' value =>
    if w.type.isSome then none else (ValueType.ofName? value).map fun t => { w with type := some t }
  | .flag 'l' => if w.lenient then none else some { w with lenient := true }
  | .flag 'p' => if w.pretty then none else some { w with pretty := true }
  | _ => none

def GetWords.command? (w : GetWords) : Option Get :=
  match w.path, w.file with
  | some path, some file =>
    some { path, file, arguments := w.arguments, type := w.type, lenient := w.lenient,
           pretty := w.pretty }
  | _, _ => none

structure TagsWords where
  expression : Option String := none
  strict : Bool := false

def tagsChoices : List Choice := [{ long := "strict", short := 's' }]

def TagsWords.add (w : TagsWords) : Item → Option TagsWords
  | .positional word =>
    if w.expression.isSome then none else some { w with expression := some word }
  | .flag 's' => if w.strict then none else some { w with strict := true }
  | _ => none

def TagsWords.command? (w : TagsWords) : Option Tags :=
  w.expression.map fun expression => { expression, strict := w.strict }

namespace Invocation

def ofParsed (command? : α → Option Invocation) : Parsed α → Invocation
  | .ok words => (command? words).getD misuse
  | .help => help
  | .misuse => misuse

def ofHelp : List String → Invocation
  | [] => help
  | name :: rest =>
    if rest = [] ∧ ["get", "tags", "help"].contains name then help else misuse

def ofWords : List String → Invocation
  | [] => misuse
  | command :: words =>
    if command = "get" then
      ofParsed (fun w => (GetWords.command? w).map get)
        (collect GetWords.add {} (items getChoices words))
    else if command = "tags" then
      ofParsed (fun w => (TagsWords.command? w).map tags)
        (collect TagsWords.add {} (items tagsChoices words))
    else if command = "help" then ofHelp words
    else if command = "--help" then help
    else if command = "--version" then version
    else
      match command.toList with
      | '-' :: 'h' :: _ => help
      | '-' :: 'V' :: _ => version
      | _ => misuse

end Invocation

/-! ## Running commands -/

abbrev Files := String → Except FileFault String

def load (files : Files) (key : String) : Except LoadFault Value :=
  match files key with
  | .error fault => .error (.unreadable key fault)
  | .ok text =>
    if ".json".toList.isSuffixOf key.toList then
      match Json.Tree.read? text with
      | some tree => .ok tree.toValue
      | none => .error (.malformed .json key)
    else
      match Yaml.Tree.read? text with
      | some tree => .ok tree.toValue.result
      | none => .error (.malformed .yaml key)

namespace Get

def settings (g : Get) : Cache.Settings :=
  { Cache.Settings.forFile g.file with queries := { throwOnMissing := !g.lenient } }

def document (files : Files) (g : Get) : Except Error Document := do
  let key ← g.settings.key g.file
  match load files key with
  | .ok root => Document.ofValue key root
  | .error fault => throw (.invalidArgument (.loadFailed key fault))

def pathText (g : Get) : String :=
  if g.arguments = [] then g.path else Template.expand ⟨g.path⟩ g.arguments

def wanted (g : Get) : Wanted :=
  match g.type with
  | none => .value
  | some t => .checked t

def value? (g : Get) (d : Document) : Except Error (Option Value) :=
  Query.run g.settings.queries d ⟨.path g.pathText, g.wanted⟩

def print (files : Files) (g : Get) : Except Error String := do
  let d ← g.document files
  let v := (← g.value? d).getD .null
  pure ((if g.pretty then v.pretty else v.json) ++ "\n")

end Get

def Tags.print (t : Tags) : Except Error String := do
  let e ← Tag.compile (if t.strict then .strict else {}) t.expression
  pure (String.join (e.texts.map (· ++ "\n")))

inductive Outcome
  | printed (text : String)
  | failed (e : Error)
  | misused
  deriving Repr

namespace Outcome

def exit : Outcome → Nat
  | printed _ => 0
  | failed _ => 1
  | misused => 2

def stdout : Outcome → String
  | printed text => text
  | _ => ""

def usage : String :=
  "Usage: docpath get <PATH> --file <FILE> [--arg <ARG>]... [--type <TYPE>] [--lenient] [--pretty]\n" ++
  "       docpath tags <EXPRESSION> [--strict]\n"

def stderr : Outcome → String
  | printed _ => ""
  | failed e => "error: " ++ e.message ++ "\n"
  | misused => usage

def ofResult : Except Error String → Outcome
  | .ok text => printed text
  | .error e => failed e

end Outcome

def Invocation.run (files : Files) : Invocation → Outcome
  | get g => .ofResult (g.print files)
  | tags t => .ofResult t.print
  | version => .printed "docpath 0.1.0\n"
  | help => .printed Outcome.usage
  | misuse => .misused

end DocQuery.Command
