import DocQuery.Json.Printer
import DocQuery.Yaml.Tree

/-! # Log lines

Queries, conversions and the document cache report what they do in lines of a level and a text.
`Logged` is a result together with the lines that were written on the way to it. -/

namespace DocQuery

inductive LogLine
  | resolved (document path : String) (value : Value)
  /-- an entry was left out because its key is not a scalar -/
  | skippedKey (key : Yaml.Tree)
  | loading (key : String)
  /-- a document was loaded, but another load of its key had finished first -/
  | overtaken (key : String)
  deriving Repr

namespace LogLine

def level : LogLine → String
  | resolved _ _ _ => "TRACE"
  | skippedKey _ => "WARN"
  | loading _ => "DEBUG"
  | overtaken _ => "WARN"

/-- The YAML library lays out a key that was left out; how it does so is a parameter. -/
def message (debug : Yaml.Tree → String) : LogLine → String
  | resolved document path value => "[" ++ document ++ "] " ++ path ++ " = " ++ value.display
  | skippedKey key => "Skipping non-scalar mapping key " ++ debug key
  | loading key => "Loading document " ++ key
  | overtaken key => "Document " ++ key ++ " was loaded concurrently, keeping the first copy"

def text (debug : Yaml.Tree → String) (l : LogLine) : String := l.level ++ " " ++ l.message debug

end LogLine

structure Logged (α : Type) where
  result : α
  log : List LogLine
  deriving Repr

def Logged.map (f : α → β) (r : Logged α) : Logged β := { result := f r.result, log := r.log }

end DocQuery
