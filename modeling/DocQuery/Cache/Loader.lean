import DocQuery.Cache.Settings
import DocQuery.Document

/-! # Loaders

The cache asks a loader for the value of a key. What a loader does may depend on all that has
happened before. While it runs it may ask the cache for whatever it likes, any number of times,
and go on according to the replies. -/

namespace DocQuery.Cache

/-- A document in the cache. The number tells instances with equal content apart. -/
structure Instance where
  number : Nat
  document : Document
  deriving Repr

def commonName : String := "common"

inductive Request
  | build (name : String)
  | has (name : String)
  | key (name : String)
  | size
  deriving DecidableEq, Repr

def Request.common : Request := .build commonName

def Request.buildFor (typeName : String) : Request := .build (shortTypeName typeName)

inductive Reply
  | document (i : Instance)
  | flag (b : Bool)
  | key (key : String)
  | size (n : Nat)
  | failed (e : Error)

def Reply.ofBuild : Except Error Instance → Reply
  | .ok i => document i
  | .error e => failed e

inductive Event
  | wrote (line : LogLine)
  | called (key : String)
  | returned (key : String) (result : Except Error Instance)

namespace Event

def line? : Event → Option LogLine
  | wrote line => some line
  | _ => none

def load? : Event → Option String
  | called key => some key
  | _ => none

end Event

/-- A load either ends, or asks the cache and goes on with its reply. -/
inductive Load
  | ends (loaded : Except LoadFault Value)
  | asks (r : Request) (next : Reply → Load)

abbrev Loader := List Event → String → Load

structure Table where
  entries : Mapping := []

namespace Table

def insert (t : Table) (key : String) (value : Value) : Table :=
  ⟨Mapping.insert t.entries key value⟩

def contains (t : Table) (key : String) : Bool := (Mapping.get? t.entries key).isSome

def insertJson (t : Table) (key text : String) : Except LoadFault Table :=
  match Json.Tree.read? text with
  | some tree => .ok (t.insert key tree.toValue)
  | none => .error (.malformedEntry .json key)

def insertYaml (t : Table) (key text : String) : Except LoadFault Table :=
  match Yaml.Tree.read? text with
  | some tree => .ok (t.insert key tree.toValue.result)
  | none => .error (.malformedEntry .yaml key)

def loader (t : Table) : Loader := fun _ key =>
  match Mapping.get? t.entries key with
  | some value => .ends (.ok value)
  | none => .ends (.error (.missing key))

end Table

/-- A load that was laid down: it builds the named document first, if there is one. -/
structure Planned where
  nested : Option String := none
  result : Except LoadFault Value

def Planned.load (p : Planned) : Load :=
  match p.nested with
  | none => .ends p.result
  | some name => .asks (.build name) fun _ => .ends p.result

/-- Loads by key, in their order; the last one stays. -/
structure Script where
  entries : List (String × List Planned)

namespace Script

def pick? (n : Nat) (loads : List Planned) : Option Planned :=
  match loads[n]? with
  | some load => some load
  | none => loads.getLast?

def loader (s : Script) : Loader := fun history key =>
  match (s.entries.lookup key).bind (pick? ((history.filterMap Event.load?).count key)) with
  | some planned => planned.load
  | none => .ends (.error (.unscripted key))

/-- How deep loads can be nested if they come to an end: in a chain of nested loads every one that
was laid down is used at most once before it is the last one of its key, and at most once after
that. -/
def nesting (s : Script) : Nat := 2 * (s.entries.flatMap Prod.snd).length + 2

end Script

end DocQuery.Cache
