/-! # Words of a command line

The words behind a command are options and their values, and positional words. Options have a long
name and a letter; letters of options without value can be put together, and a value may stand
behind its option, in the same word or the next. The word `--` ends the options. -/

namespace DocQuery.Command

structure Choice where
  long : String
  short : Char
  hasValue : Bool := false
  deriving Repr

inductive Item
  | flag (short : Char)
  | valued (short : Char) (value : String)
  | positional (word : String)
  | help
  /-- words that say nothing; what follows does not count -/
  | misuse
  deriving DecidableEq, Repr

def isValue (word : String) : Bool :=
  match word.toList with
  | '-' :: _ :: _ => false
  | _ => true

/-- A word of letters behind a hyphen, and the letter that waits for a value. -/
def cluster (choices : List Choice) : List Char → List Item × Option Char
  | [] => ([], none)
  | c :: rest =>
    if c = 'h' then ([.help], none)
    else
      match choices.find? (·.short = c) with
      | none => ([.misuse], none)
      | some choice =>
        if choice.hasValue then
          match rest with
          | [] => ([], some c)
          | '=' :: value => ([.valued c (String.ofList value)], none)
          | value => ([.valued c (String.ofList value)], none)
        else
          let (items, waiting) := cluster choices rest
          (.flag c :: items, waiting)

def long (choices : List Choice) (word : List Char) : List Item × Option Char :=
  let name := word.takeWhile (· != '=')
  let value? := (word.dropWhile (· != '=')).tail?
  if name = ['h', 'e', 'l', 'p'] ∧ value? = none then ([.help], none)
  else
    match choices.find? (·.long.toList = name), value? with
    | none, _ => ([.misuse], none)
    | some choice, some value =>
      if choice.hasValue then ([.valued choice.short (String.ofList value)], none)
      else ([.misuse], none)
    | some choice, none =>
      if choice.hasValue then ([], some choice.short) else ([.flag choice.short], none)

def items (choices : List Choice) : List String → List Item
  | [] => []
  | word :: rest =>
    let (here, waiting) :=
      match word.toList with
      | ['-', '-'] => ([], none)
      | '-' :: '-' :: name => long choices name
      | '-' :: c :: letters => cluster choices (c :: letters)
      | _ => ([.positional word], none)
    if word = "--" then rest.map .positional
    else
      match waiting, rest with
      | none, rest => here ++ items choices rest
      | some _, [] => here ++ [.misuse]
      | some c, value :: rest =>
        if isValue value then here ++ .valued c value :: items choices rest
        else here ++ [.misuse]

inductive Parsed (α : Type)
  | ok (a : α)
  | help
  | misuse
  deriving Repr

/-- Collects items in order; the first one that cannot be used, or that asks for help, decides. -/
def collect (add : α → Item → Option α) (a : α) : List Item → Parsed α
  | [] => .ok a
  | .help :: _ => .help
  | .misuse :: _ => .misuse
  | item :: rest =>
    match add a item with
    | some a => collect add a rest
    | none => .misuse

end DocQuery.Command
