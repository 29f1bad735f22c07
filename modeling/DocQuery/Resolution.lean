import DocQuery.Document
import DocQuery.Path.Reader

/-! # Resolving paths

A path is walked from the root of a document: each segment looks its name up in the current
mapping, takes an element if it has an index, and must not land on null; every segment but the last
must land on a mapping. By the options, missing data is an error or no value. -/

namespace DocQuery

inductive EmptyPath
  | emptyText
  | reject
  deriving DecidableEq, Repr

namespace Resolution

structure Options where
  throwOnMissing : Bool := true
  emptyPath : EmptyPath := .emptyText
  deriving DecidableEq, Repr

def Options.lenient : Options := { throwOnMissing := false }

def step (current : Mapping) (segment : Segment) : Except PathFault Value := do
  let name := segment.name
  let field ←
    match Mapping.get? current name with
    | some field => pure field
    | none => throw (.fieldNotFound name)
  let value ←
    match segment with
    | .field _ => pure field
    | .indexed _ index =>
      match field.sequence? with
      | none => throw (.notSequence name field.kind)
      | some items =>
        match items[index.toNat]? with
        | some item => pure item
        | none => throw (.indexOutOfRange index name items.length)
  if value.isNull then throw (.nullValue segment) else pure value

def walk (current : Mapping) : List Segment → Except PathFault Value
  | [] => throw .emptyPath
  | [segment] => step current segment
  | segment :: rest => do
    match ← step current segment with
    | .mapping inner => walk inner rest
    | value => throw (.notMapping segment value.kind)

/-- The value of a path, missing data being an error. A walk that succeeds writes a line; the empty
path is not walked. -/
def lookupPath (o : Options) (d : Document) (p : Path) : Logged (Except Error Value) :=
  if p.segments = [] then
    match o.emptyPath with
    | .emptyText => ⟨.ok (.text ""), []⟩
    | .reject => ⟨.error (.invalidPath (some "") .emptyPath), []⟩
  else
    match walk d.root p.segments with
    | .ok value => ⟨.ok value, [.resolved d.name p.source value]⟩
    | .error fault => ⟨.error (.invalidPath (some p.source) fault), []⟩

def lookup (o : Options) (d : Document) (path : String) : Logged (Except Error Value) :=
  match Path.parse path with
  | .ok p => lookupPath o d p
  | .error e => ⟨.error e, []⟩

def suppress (o : Options) : Except Error α → Except Error (Option α)
  | .ok a => .ok (some a)
  | .error e => if e.isMissing && !o.throwOnMissing then .ok none else .error e

def resolvePathLogged (o : Options) (d : Document) (p : Path) :
    Logged (Except Error (Option Value)) :=
  (lookupPath o d p).map (suppress o)

def resolveLogged (o : Options) (d : Document) (path : String) :
    Logged (Except Error (Option Value)) :=
  (lookup o d path).map (suppress o)

def resolvePath (o : Options) (d : Document) (p : Path) : Except Error (Option Value) :=
  (resolvePathLogged o d p).result

def resolve (o : Options) (d : Document) (path : String) : Except Error (Option Value) :=
  (resolveLogged o d path).result

variable (o : Options) (d : Document)

theorem resolveLogged_parsed {path : String} {p : Path} (h : Path.parse path = .ok p) :
    resolveLogged o d path = resolvePathLogged o d p := by
  rw [resolveLogged, lookup, h]
  rfl

theorem resolveLogged_unparsed {path : String} {e : Error} (h : Path.parse path = .error e) :
    resolveLogged o d path = ⟨suppress o (.error e), []⟩ := by
  rw [resolveLogged, lookup, h]
  rfl

theorem resolve_parsed {path : String} {p : Path} (h : Path.parse path = .ok p) :
    resolve o d path = resolvePath o d p :=
  congrArg Logged.result (resolveLogged_parsed o d h)

theorem resolve_unparsed {path : String} {e : Error} (h : Path.parse path = .error e) :
    resolve o d path = suppress o (.error e) :=
  congrArg Logged.result (resolveLogged_unparsed o d h)

theorem resolvePath_empty {p : Path} (h : p.segments = []) :
    resolvePath o d p = suppress o (match o.emptyPath with
      | .emptyText => .ok (.text "")
      | .reject => .error (.invalidPath (some "") .emptyPath)) := by
  rw [resolvePath, resolvePathLogged, lookupPath, if_pos h]
  cases o.emptyPath <;> rfl

theorem resolve_empty :
    resolve o d "" = suppress o (match o.emptyPath with
      | .emptyText => .ok (.text "")
      | .reject => .error (.invalidPath (some "") .emptyPath)) := by
  rw [resolve_parsed o d (show Path.parse "" = .ok ⟨"", []⟩ from rfl), resolvePath_empty o d rfl]

theorem resolvePath_walk {p : Path} (h : p.segments ≠ []) :
    resolvePath o d p =
      suppress o ((walk d.root p.segments).mapError (.invalidPath (some p.source))) := by
  rw [resolvePath, resolvePathLogged, lookupPath, if_neg h]
  cases walk d.root p.segments <;> rfl

end Resolution

def Document.get (d : Document) (path : String) : Except Error Value :=
  (Resolution.lookup {} d path).result

end DocQuery
