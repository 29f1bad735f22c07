/-! # Positions in YAML texts

A cursor is the unread part of a text with its line, its column and the number of characters before
it. Five characters break lines; a carriage return and a line feed together are one break. -/

namespace DocQuery.Yaml

structure Cursor where
  rest : List Char
  line : Nat := 0
  column : Nat := 0
  index : Nat := 0
  deriving Repr

def isAllowed (c : Char) : Bool :=
  c == '\t' || c == '\n' || c == '\r' || (' ' ≤ c && c ≤ '~') || c == '\x85' ||
  ('\xa0' ≤ c && c ≤ '\ufffd') || 0x10000 ≤ c.toNat

def isBreak (c : Char) : Bool :=
  c == '\n' || c == '\r' || c == '\x85' || c == '\u2028' || c == '\u2029'

def isBlank (c : Char) : Bool := c == ' ' || c == '\t'

def isWordChar (c : Char) : Bool := c.isAlphanum || c == '_' || c == '-'

def endsWord : Option Char → Bool
  | none => true
  | some c => isBlank c || isBreak c

def byteOrderMark : Char := '\ufeff'

namespace Cursor

def head? (c : Cursor) : Option Char := c.rest.head?

def ahead? (c : Cursor) (n : Nat) : Option Char := c.rest[n]?

def skip (c : Cursor) (n : Nat) : Cursor :=
  { c with rest := c.rest.drop n, column := c.column + n, index := c.index + n }

def takeWhile (c : Cursor) (p : Char → Bool) : List Char := c.rest.takeWhile p

def skipWhile (c : Cursor) (p : Char → Bool) : Cursor := c.skip (c.takeWhile p).length

/-- Moves over a line break and gives its text: the breaks of Unicode stand for themselves, all
others for a line feed. -/
def skipBreak (c : Cursor) : Cursor × List Char :=
  match c.rest with
  | [] => (c, [])
  | '\r' :: '\n' :: rest => (⟨rest, c.line + 1, 0, c.index + 2⟩, ['\n'])
  | b :: rest =>
    (⟨rest, c.line + 1, 0, c.index + 1⟩,
      if b == '\u2028' || b == '\u2029' then [b] else ['\n'])

def skipComment (c : Cursor) : Cursor :=
  if c.head? = some '#' then c.skipWhile (!isBreak ·) else c

def atTriple (c : Cursor) (mark : Char) : Bool :=
  c.rest.take 3 == [mark, mark, mark] && endsWord (c.ahead? 3)

def atDocumentMark (c : Cursor) : Bool := c.column == 0 && (c.atTriple '-' || c.atTriple '.')

def atLineEnd (c : Cursor) : Bool :=
  match c.head? with
  | none => true
  | some ch => isBreak ch

def skipLineEnd? (c : Cursor) : Option Cursor :=
  let c := (c.skipWhile isBlank).skipComment
  if c.atLineEnd then some c.skipBreak.1 else none

end Cursor

end DocQuery.Yaml
