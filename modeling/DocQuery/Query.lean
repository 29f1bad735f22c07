import DocQuery.Resolution
import DocQuery.Template

/-! # Queries

A query names a place in a document, by the text of a path, by a path that was read before, or by a
template and its arguments, and says what is wanted from there: the value as it is, the value if it
has a type, or its content at a type. A value of another type is an error. `Query.runLogged` answers
a query, with the lines that are written on the way. -/

namespace DocQuery

inductive Place
  | path (text : String)
  | parsed (path : Path)
  | template (t : Template) (arguments : List String)
  deriving Repr

inductive Wanted
  | value
  | checked (t : ValueType)
  | content (t : ValueType)
  deriving DecidableEq, Repr

structure Query where
  place : Place
  wanted : Wanted
  deriving Repr

/-- The text of the path that a place stands for. A template needs an argument. -/
def Place.text : Place → Except Error String
  | path text => .ok text
  | parsed p => .ok p.source
  | template t [] => .error (.invalidArgument (.noTemplateArguments t.source))
  | template t arguments => .ok (t.expand arguments)

def Wanted.answer (path : String) : Wanted → Option Value → Except Error (Option Value)
  | _, none => .ok none
  | value, some v => .ok (some v)
  | checked t, some v =>
    if t.accepts v.kind then .ok (some v) else .error (.wrongType path t.name v.kind.name)
  | content t, some v =>
    match t.extract? v with
    | some held => .ok (some held)
    | none => .error (.wrongType path t.name v.kind.name)

namespace Query

def runLogged (o : Resolution.Options) (d : Document) (q : Query) :
    Logged (Except Error (Option Value)) :=
  match q.place, q.wanted with
  | .parsed p, .value => Resolution.resolvePathLogged o d p
  | place, wanted =>
    match place.text with
    | .ok path => (Resolution.resolveLogged o d path).map (· >>= wanted.answer path)
    | .error e => ⟨.error e, []⟩

def run (o : Resolution.Options) (d : Document) (q : Query) : Except Error (Option Value) :=
  (q.runLogged o d).result

def log (o : Resolution.Options) (d : Document) (q : Query) : List LogLine := (q.runLogged o d).log

end Query

end DocQuery
