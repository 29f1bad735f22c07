import DocQuery.Cache.Loader

/-! # Document cache

The cache keeps each document that was loaded under its key. A load may fail, and then nothing is
kept; while it runs, the loader may build other documents, and the one it was asked for, and the
first document that is stored under a key stays. Everything that happens is recorded in the
history, from which the loads and the log lines can be read off. -/

namespace DocQuery.Cache

/-- The cached documents by key in the order of their insertion, and all that has happened. -/
structure State where
  entries : List (String × Instance) := []
  history : List Event := []

namespace State

def get? (s : State) (key : String) : Option Instance := s.entries.lookup key

def size (s : State) : Nat := s.entries.length

def record (s : State) (e : Event) : State := { s with history := s.history ++ [e] }

def loads (s : State) : List String := s.history.filterMap Event.load?

def log (s : State) : List LogLine := s.history.filterMap Event.line?

def store (s : State) (key : String) (d : Document) : State × Instance :=
  let i : Instance := { number := s.entries.length, document := d }
  ({ s with entries := s.entries ++ [(key, i)] }, i)

/-- Makes a document of what the loader returned. If one is there already, it is the one. -/
def settle (s : State) (key : String) : Except LoadFault Value → State × Except Error Instance
  | .error fault => (s, .error (.invalidArgument (.loadFailed key fault)))
  | .ok root =>
    match Document.ofValue key root with
    | .error e => (s, .error e)
    | .ok document =>
      match s.get? key with
      | some first => (s.record (.wrote (.overtaken key)), .ok first)
      | none =>
        let (s, i) := s.store key document
        (s, .ok i)

def finish (s : State) (key : String) (result : Except Error Instance) :
    State × Except Error Instance :=
  (s.record (.returned key result), result)

end State

def has (c : Settings) (s : State) (name : String) : Bool :=
  match c.key name with
  | .ok key => (s.get? key).isSome
  | .error _ => false

def reply? (c : Settings) (s : State) : Request → Option Reply
  | .build _ => none
  | .has name => some (.flag (has c s name))
  | .key name =>
    match c.key name with
    | .ok key => some (.key key)
    | .error e => some (.failed e)
  | .size => some (.size s.size)

def answer (c : Settings) (build : State → String → Option (State × Except Error Instance))
    (s : State) : Request → Option (State × Reply)
  | .build name => (build s name).map fun (s, result) => (s, .ofBuild result)
  | r => (reply? c s r).map fun reply => (s, reply)

def follow (ask : State → Request → Option (State × Reply)) (s : State) :
    Load → Option (State × Except LoadFault Value)
  | .ends loaded => some (s, loaded)
  | .asks r next =>
    match ask s r with
    | none => none
    | some (s, reply) => follow ask s (next reply)

/-- Returns the document of a name, loading it if it is not in the cache. Loads are nested at most
`depth` deep; there is no answer if that is not enough. -/
def build (c : Settings) (l : Loader) :
    (depth : Nat) → State → String → Option (State × Except Error Instance)
  | 0, _, _ => none
  | depth + 1, s, name =>
    match c.key name with
    | .error e => some (s, .error e)
    | .ok key =>
      match s.get? key with
      | some i => some (s.finish key (.ok i))
      | none =>
        let called := (s.record (.wrote (.loading key))).record (.called key)
        (follow (answer c (build c l depth)) called (l s.history key)).map fun (s, loaded) =>
          let (s, result) := s.settle key loaded
          s.finish key result

def perform (c : Settings) (l : Loader) (depth : Nat) (s : State) (r : Request) :
    Option (State × Reply) :=
  answer c (build c l depth) s r

def run (c : Settings) (l : Loader) (depth : Nat) (s : State) :
    List Request → Option (State × List Reply)
  | [] => some (s, [])
  | r :: rest =>
    match perform c l depth s r with
    | none => none
    | some (s, reply) => (run c l depth s rest).map fun (s, replies) => (s, reply :: replies)

end DocQuery.Cache
