import DocQuery.Failure
import DocQuery.Text.Blank

/-! # Tag expressions

A tag expression selects tests by their tags: clauses separated by single spaces must all match,
and of the tags of a clause, separated by commas, one must match. `~` in front negates a tag, and
`@` before the name may be left out. The written form of an expression always has the `@`. Doubled
separators leave empty tokens, which are kept unless the options say otherwise. -/

namespace DocQuery.Tag

inductive Token
  | blank
  | tag (negated : Bool) (name : String)
  deriving DecidableEq, Repr

/-- Alternatives of which one must match. -/
structure Clause where
  tokens : List Token
  deriving DecidableEq, Repr

/-- Clauses that must all match. -/
structure Expression where
  clauses : List Clause
  deriving DecidableEq, Repr

namespace Token

def nameOf : List Char → String
  | '@' :: name => String.ofList name
  | name => String.ofList name

def read : List Char → Token
  | [] => blank
  | '~' :: rest => tag true (nameOf rest)
  | rest => tag false (nameOf rest)

def written : Token → List Char
  | blank => []
  | tag true name => '~' :: '@' :: name.toList
  | tag false name => '@' :: name.toList

def isBlank : Token → Bool
  | blank => true
  | tag _ _ => false

end Token

namespace Clause

def read (group : List Char) : Clause := ⟨(Text.split ',' group).map Token.read⟩

def written (c : Clause) : List Char := Text.join ',' (c.tokens.map Token.written)

def text (c : Clause) : String := String.ofList c.written

end Clause

namespace Expression

/-- Blanks around the expression do not count, and a blank text has no clauses. -/
def read (input : List Char) : Expression :=
  match Text.trim input with
  | [] => ⟨[]⟩
  | trimmed => ⟨(Text.split ' ' trimmed).map Clause.read⟩

def written (e : Expression) : List Char := Text.join ' ' (e.clauses.map Clause.written)

def text (e : Expression) : String := String.ofList e.written

def isEmpty (e : Expression) : Bool := e.clauses.isEmpty

def hasBlank (e : Expression) : Bool := e.clauses.any (·.tokens.any Token.isBlank)

def texts (e : Expression) : List String := e.clauses.map Clause.text

end Expression

inductive EmptyTokens
  | keep
  | reject
  deriving DecidableEq, Repr

structure Options where
  emptyTokens : EmptyTokens := .keep
  deriving DecidableEq, Repr

def Options.strict : Options := { emptyTokens := .reject }

def compile (o : Options) (input : String) : Except Error Expression :=
  let e := Expression.read input.toList
  if o.emptyTokens = .reject ∧ e.hasBlank then .error (.invalidArgument (.emptyTag input))
  else .ok e

def clauseTexts (input : String) : List String := (Expression.read input.toList).texts

end DocQuery.Tag
