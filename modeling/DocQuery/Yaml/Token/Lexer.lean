import DocQuery.Yaml.Token.Property

/-! # Reading YAML tokens

Whether a text in front of a colon is a key shows only at the colon. So each token that could begin
a key is remembered as a candidate, one for every open flow collection and one for the block around
them; at the colon, the key token is put in front of the candidate. A candidate has to end in its
own line within 1024 characters. In blocks, a wider indentation opens a collection and a narrower
one closes those that are deeper. -/

namespace DocQuery.Yaml

/-- A token that a key may begin with. -/
structure Candidate where
  position : Nat
  line : Nat
  column : Nat
  index : Nat
  required : Bool
  deriving Repr

structure Lexer where
  cursor : Cursor
  tokens : List Token := []
  count : Nat := 0
  /-- the column where lines of the innermost block may begin, plus one; zero outside blocks -/
  level : Nat := 0
  outer : List Nat := []
  keyAllowed : Bool := true
  candidate : Option Candidate := none
  enclosing : List (Option Candidate) := []
  deriving Repr

namespace Lexer

def inFlow (l : Lexer) : Bool := !l.enclosing.isEmpty

def push (l : Lexer) (t : Token) : Lexer :=
  { l with tokens := t :: l.tokens, count := l.count + 1 }

def insert (l : Lexer) (position : Nat) (t : Token) : Lexer :=
  let after := l.count - position
  { l with tokens := l.tokens.take after ++ t :: l.tokens.drop after, count := l.count + 1 }

def closeBlocks (target : Nat) : (outer : List Nat) → Lexer → Lexer
  | [], l => l
  | level :: outer, l =>
    if target < l.level then
      closeBlocks target outer { l.push .blockEnd with level, outer }
    else l

/-- Closes the blocks that lie deeper than a level; inside flow collections indentation has no
meaning. -/
def unroll (l : Lexer) (target : Nat) : Lexer :=
  if l.inFlow then l else closeBlocks target l.outer l

def roll (l : Lexer) (column position : Nat) (t : Token) : Lexer :=
  if l.inFlow || column < l.level then l
  else { l.insert position t with level := column + 1, outer := l.level :: l.outer }

def isFresh (l : Lexer) (k : Candidate) : Bool :=
  l.cursor.line ≤ k.line && l.cursor.index ≤ k.index + 1024

/-- Drops a candidate that can no longer become a key; a required one must not be lost. -/
def freshen? (l : Lexer) : Option Candidate → Option (Option Candidate)
  | none => some none
  | some k => if l.isFresh k then some (some k) else if k.required then none else some none

def dropStale? (l : Lexer) : Option Lexer := do
  let candidate ← l.freshen? l.candidate
  let enclosing ← l.enclosing.mapM l.freshen?
  pure { l with candidate, enclosing }

def dropCandidate? (l : Lexer) : Option Lexer :=
  match l.candidate with
  | none => some l
  | some k => if k.required then none else some { l with candidate := none }

def saveCandidate? (l : Lexer) : Option Lexer :=
  if !l.keyAllowed then some l
  else do
    let l ← l.dropCandidate?
    let c := l.cursor
    let required := !l.inFlow && l.level == c.column + 1
    pure { l with candidate := some ⟨l.count, c.line, c.column, c.index, required⟩ }

def skip (l : Lexer) (n : Nat) : Lexer := { l with cursor := l.cursor.skip n }

/-- Moves over blanks, comments and line breaks to the next token. Tabs may stand only where no
key can begin; in a block, a new line may begin with a key. -/
def skipSpace : (steps : Nat) → Lexer → Lexer
  | 0, l => l
  | steps + 1, l =>
    let c := l.cursor
    let c := if c.column = 0 ∧ c.head? = some byteOrderMark then c.skip 1 else c
    let tabs := l.inFlow || !l.keyAllowed
    let c := (c.skipWhile fun ch => ch == ' ' || (tabs && ch == '\t')).skipComment
    if (c.head?.map isBreak).getD false then
      skipSpace steps
        { l with cursor := c.skipBreak.1, keyAllowed := l.keyAllowed || !l.inFlow }
    else { l with cursor := c }

/-! ## One token -/

def openFlow? (l : Lexer) (t : Token) : Option Lexer := do
  let l ← l.saveCandidate?
  let l := l.push t
  pure { l.skip 1 with
    enclosing := l.candidate :: l.enclosing, candidate := none, keyAllowed := true }

def closeFlow? (l : Lexer) (t : Token) : Option Lexer := do
  let l ← l.dropCandidate?
  let l := (l.push t).skip 1
  match l.enclosing with
  | [] => pure { l with keyAllowed := false }
  | candidate :: enclosing => pure { l with candidate, enclosing, keyAllowed := false }

def flowEntry? (l : Lexer) : Option Lexer := do
  let l ← l.dropCandidate?
  pure { (l.push .flowEntry).skip 1 with keyAllowed := true }

def blockEntry? (l : Lexer) : Option Lexer := do
  if !l.inFlow && !l.keyAllowed then none
  let l := l.roll l.cursor.column l.count .blockSequenceStart
  let l ← l.dropCandidate?
  pure { (l.push .blockEntry).skip 1 with keyAllowed := true }

def key? (l : Lexer) : Option Lexer := do
  if !l.inFlow && !l.keyAllowed then none
  let l := l.roll l.cursor.column l.count .blockMappingStart
  let l ← l.dropCandidate?
  pure { (l.push .key).skip 1 with keyAllowed := !l.inFlow }

def value? (l : Lexer) : Option Lexer :=
  match l.candidate with
  | some k =>
    let l := l.insert k.position .key
    let l := l.roll k.column k.position .blockMappingStart
    some { (l.push .value).skip 1 with candidate := none, keyAllowed := false }
  | none =>
    if !l.inFlow && !l.keyAllowed then none
    else
      let l := l.roll l.cursor.column l.count .blockMappingStart
      some { (l.push .value).skip 1 with keyAllowed := !l.inFlow }

/-- A token that a key may begin with, and after which none may. -/
def word? (l : Lexer) (take : Cursor → Option (Token × Cursor)) : Option Lexer := do
  let l ← l.saveCandidate?
  let (t, cursor) ← take l.cursor
  pure { l.push t with cursor, keyAllowed := false }

def blockScalar? (l : Lexer) (literal : Bool) : Option Lexer := do
  let l ← l.dropCandidate?
  let s ← takeBlock literal l.level (l.cursor.skip 1)
  let t := Token.scalar (String.ofList s.text) (if literal then .literal else .folded)
  pure { l.push t with cursor := s.cursor, keyAllowed := true }

def quotedScalar? (l : Lexer) (single : Bool) : Option Lexer :=
  l.word? fun c => do
    let s ← takeQuoted single (c.rest.length + 1) [] (c.skip 1)
    pure (.scalar (String.ofList s.text) (if single then .singleQuoted else .doubleQuoted), s.cursor)

def plainScalar? (l : Lexer) : Option Lexer := do
  let l ← l.saveCandidate?
  let c := l.cursor
  let s ← takePlain l.inFlow l.level (c.rest.length + 1) [] {} c
  let t := Token.scalar (String.ofList s.text) .plain
  pure { l.push t with cursor := s.cursor, keyAllowed := s.broken }

def endBlocks? (l : Lexer) : Option Lexer := do
  let l ← (l.unroll 0).dropCandidate?
  pure { l with keyAllowed := false }

def documentMark? (l : Lexer) (t : Token) : Option Lexer := do
  let l ← l.endBlocks?
  pure ((l.push t).skip 3)

def directive? (l : Lexer) : Option Lexer := do
  let l ← l.endBlocks?
  let (t, cursor) ← takeDirective? (l.cursor.skip 1)
  pure { l.push t with cursor }

def isIndicator (c : Char) : Bool := "-?:,[]\x7b\x7d#&*!|>'\"%@`".toList.contains c

/-- Whether a plain scalar begins here: `-`, and outside flow collections `?` and `:`, may begin
one if the word goes on. -/
def beginsPlain (l : Lexer) (c : Char) (next : Option Char) : Bool :=
  !(endsWord (some c) || isIndicator c) ||
    (c == '-' && !(next.map isBlank).getD false) ||
    (!l.inFlow && (c == '?' || c == ':') && !endsWord next)

def token? (l : Lexer) (c : Char) : Option Lexer :=
  let next := l.cursor.ahead? 1
  let alone := l.inFlow || endsWord next
  if l.cursor.column = 0 ∧ c = '%' then l.directive?
  else if l.cursor.column = 0 ∧ l.cursor.atTriple '-' then l.documentMark? .documentStart
  else if l.cursor.column = 0 ∧ l.cursor.atTriple '.' then l.documentMark? .documentEnd
  else if c = '[' then l.openFlow? .flowSequenceStart
  else if c = '{' then l.openFlow? .flowMappingStart
  else if c = ']' then l.closeFlow? .flowSequenceEnd
  else if c = '}' then l.closeFlow? .flowMappingEnd
  else if c = ',' then l.flowEntry?
  else if c = '-' ∧ endsWord next then l.blockEntry?
  else if c = '?' ∧ alone then l.key?
  else if c = ':' ∧ alone then l.value?
  else if c = '*' then l.word? fun c => (takeName? (c.skip 1)).map fun (name, c) => (.reference name, c)
  else if c = '&' then l.word? fun c => (takeName? (c.skip 1)).map fun (name, c) => (.anchor name, c)
  else if c = '!' then l.word? (takeTag? l.inFlow)
  else if c = '|' ∧ !l.inFlow then l.blockScalar? true
  else if c = '>' ∧ !l.inFlow then l.blockScalar? false
  else if c = '\'' then l.quotedScalar? true
  else if c = '"' then l.quotedScalar? false
  else if l.beginsPlain c next then l.plainScalar?
  else none

def run? : (steps : Nat) → Lexer → Option (List Token)
  | 0, _ => none
  | steps + 1, l => do
    let l := skipSpace (l.cursor.rest.length + 1) l
    let l ← l.dropStale?
    let l := l.unroll (l.cursor.column + 1)
    match l.cursor.head? with
    | none =>
      let l ← l.endBlocks?
      pure l.tokens.reverse
    | some c => run? steps (← l.token? c)

end Lexer

def lex (text : List Char) : Option (List Token) :=
  if text.all isAllowed then Lexer.run? (text.length + 1) { cursor := { rest := text } } else none

end DocQuery.Yaml
