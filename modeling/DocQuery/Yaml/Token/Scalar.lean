import DocQuery.Yaml.Cursor

/-! # Scalars of YAML texts

Scalars may run over several lines. In plain and quoted scalars a single line break between words
becomes a space and of several breaks the first is dropped; block scalars keep their lines, folded
ones joining lines of equal indentation. All readers return the text and where it ends; the number
of steps they may take is bounded by the length of the text. -/

namespace DocQuery.Yaml

/-- Blanks and line breaks between two words of a scalar. -/
structure Gap where
  blanks : List Char := []
  first : List Char := []
  more : List Char := []
  broken : Bool := false

def Gap.joined (g : Gap) : List Char :=
  if !g.broken then g.blanks
  else if g.first = ['\n'] then if g.more = [] then [' '] else g.more
  else g.first ++ g.more

/-- Reads a gap. Tabs may not stand for indentation: none is allowed at the front of a line
before the column `level`. -/
def takeGap (level : Nat) : (steps : Nat) → Gap → Cursor → Option (Gap × Cursor)
  | 0, g, c => some (g, c)
  | steps + 1, g, c =>
    match c.head? with
    | none => some (g, c)
    | some ch =>
      if isBlank ch then
        if !g.broken then takeGap level steps { g with blanks := g.blanks ++ [ch] } (c.skip 1)
        else if ch = '\t' ∧ c.column < level then none
        else takeGap level steps g (c.skip 1)
      else if isBreak ch then
        let (c, b) := c.skipBreak
        if g.broken then takeGap level steps { g with more := g.more ++ b } c
        else takeGap level steps { first := b, broken := true } c
      else some (g, c)

/-! ## Plain scalars -/

def isFlowIndicator (c : Char) : Bool :=
  c == ',' || c == '[' || c == ']' || c == '{' || c == '}'

/-- The characters up to a blank, a break or an indicator. In a flow collection a colon must not
touch an indicator. -/
def plainRun? (flow : Bool) : List Char → Option (List Char)
  | [] => some []
  | c :: rest =>
    if isBlank c || isBreak c then some []
    else if flow && c == ':' &&
        (match rest.head? with
        | some next => isFlowIndicator next || next == '?'
        | none => false) then none
    else if c == ':' && endsWord rest.head? then some []
    else if flow && isFlowIndicator c then some []
    else (plainRun? flow rest).map (c :: ·)

structure Scanned where
  text : List Char
  cursor : Cursor
  broken : Bool

def takePlain (flow : Bool) (level : Nat) :
    (steps : Nat) → (done : List Char) → Gap → Cursor → Option Scanned
  | 0, _, _, _ => none
  | steps + 1, done, gap, c =>
    if c.atDocumentMark || c.head? == some '#' then some ⟨done, c, gap.broken⟩
    else
      match plainRun? flow c.rest with
      | none => none
      | some [] => some ⟨done, c, gap.broken⟩
      | some run =>
        let done := done ++ gap.joined ++ run
        let start := c.skip run.length
        match takeGap level start.rest.length {} start with
        | none => none
        | some (gap, c) =>
          if gap.blanks.isEmpty && !gap.broken then some ⟨done, c, false⟩
          else if !flow && c.column < level then some ⟨done, c, gap.broken⟩
          else takePlain flow level steps done gap c

/-! ## Quoted scalars -/

def shortEscape? : Char → Option Char
  | '0' => some '\x00'
  | 'a' => some '\x07'
  | 'b' => some '\x08'
  | 't' => some '\t'
  | '\t' => some '\t'
  | 'n' => some '\n'
  | 'v' => some '\x0b'
  | 'f' => some '\x0c'
  | 'r' => some '\r'
  | 'e' => some '\x1b'
  | ' ' => some ' '
  | '"' => some '"'
  | '/' => some '/'
  | '\\' => some '\\'
  | 'N' => some '\x85'
  | '_' => some '\xa0'
  | 'L' => some '\u2028'
  | 'P' => some '\u2029'
  | _ => none

def escapeWidth? : Char → Option Nat
  | 'x' => some 2
  | 'u' => some 4
  | 'U' => some 8
  | _ => none

def hexDigit? (c : Char) : Option Nat :=
  if c.isDigit then some (c.toNat - '0'.toNat)
  else if 'a' ≤ c ∧ c ≤ 'f' then some (c.toNat - 'a'.toNat + 10)
  else if 'A' ≤ c ∧ c ≤ 'F' then some (c.toNat - 'A'.toNat + 10)
  else none

def hexValue? (width : Nat) (s : List Char) : Option Nat :=
  if s.length < width then none
  else (s.take width).foldlM (fun n c => (hexDigit? c).map (16 * n + ·)) 0

def charOfCode? (n : Nat) : Option Char := if n.isValidChar then some (Char.ofNat n) else none

/-- The character of an escape, and how many characters behind the backslash spell it. -/
def escape? : List Char → Option (Char × Nat)
  | [] => none
  | letter :: rest =>
    match escapeWidth? letter with
    | some width => do
      let c ← charOfCode? (← hexValue? width rest)
      pure (c, width + 1)
    | none => (shortEscape? letter).map fun c => (c, 1)

def quote (single : Bool) : Char := if single then '\'' else '"'

/-- Reads up to a blank, a break, an escaped break or the closing quote. The text is in reverse
order; the flag tells an escaped break. -/
def quotedRun (single : Bool) :
    (steps : Nat) → (done : List Char) → Cursor → Option (List Char × Cursor × Bool)
  | 0, done, c => some (done, c, false)
  | steps + 1, done, c =>
    match c.rest with
    | [] => some (done, c, false)
    | ch :: rest =>
      if endsWord (some ch) then some (done, c, false)
      else if single && ch == '\'' && rest.head? == some '\'' then
        quotedRun single steps ('\'' :: done) (c.skip 2)
      else if ch == quote single then some (done, c, false)
      else if !single && ch == '\\' then
        if (rest.head?.map isBreak).getD false then
          some (done, (c.skip 1).skipBreak.1, true)
        else
          match escape? rest with
          | none => none
          | some (e, n) => quotedRun single steps (e :: done) (c.skip (n + 1))
      else quotedRun single steps (ch :: done) (c.skip 1)

def takeQuoted (single : Bool) : (steps : Nat) → (done : List Char) → Cursor → Option Scanned
  | 0, _, _ => none
  | steps + 1, done, c =>
    if c.atDocumentMark || c.rest.isEmpty then none
    else
      match quotedRun single c.rest.length done c with
      | none => none
      | some (done, c, escaped) =>
        if c.head? = some (quote single) then some ⟨done.reverse, c.skip 1, false⟩
        else
          match takeGap 0 c.rest.length { broken := escaped } c with
          | none => none
          | some (gap, c) => takeQuoted single steps (gap.joined.reverse ++ done) c

/-! ## Block scalars -/

inductive Chomping
  | clip
  | strip
  | keep
  deriving DecidableEq, Repr

def chomping? : Char → Option Chomping
  | '-' => some .strip
  | '+' => some .keep
  | _ => none

def increment? (c : Char) : Option Nat :=
  if c.isDigit ∧ c ≠ '0' then some (c.toNat - '0'.toNat) else none

/-- The indicators behind `|` or `>`, in either order; the increment is zero if there is none. -/
def blockHeader? (c : Cursor) : Option (Chomping × Nat × Cursor) :=
  let digit (c : Cursor) : Option (Nat × Cursor) :=
    match c.head? with
    | some d =>
      if d.isDigit then (increment? d).map fun n => (n, c.skip 1) else some (0, c)
    | none => some (0, c)
  let mark (c : Cursor) : Chomping × Cursor :=
    match c.head?.bind chomping? with
    | some chomping => (chomping, c.skip 1)
    | none => (.clip, c)
  match c.head?.bind chomping? with
  | some chomping => (digit (c.skip 1)).map fun (n, c) => (chomping, n, c)
  | none => (digit c).map fun (n, c) => if n = 0 then (.clip, 0, c) else ((mark c).1, n, (mark c).2)

/-- Reads indentation and empty lines. An unknown indentation, given as zero, is found on the way:
it is the widest that stands before the first line with content, and at least `least`. -/
def takeBreaks (indentation least : Nat) :
    (steps : Nat) → (breaks : List Char) → (widest : Nat) → Cursor →
      Option (List Char × Nat × Cursor)
  | 0, _, _, _ => none
  | steps + 1, breaks, widest, c =>
    let spaces := (c.takeWhile (· == ' ')).length
    let c := c.skip (if indentation = 0 then spaces else min spaces (indentation - c.column))
    let widest := max widest c.column
    if (indentation = 0 ∨ c.column < indentation) ∧ c.head? = some '\t' then none
    else if (c.head?.map isBreak).getD false then
      let (c, b) := c.skipBreak
      takeBreaks indentation least steps (breaks ++ b) widest c
    else some (breaks, if indentation = 0 then max widest (max least 1) else indentation, c)

structure BlockPart where
  done : List Char := []
  lineBreak : List Char := []
  empties : List Char := []
  indented : Bool := false

/-- Whether the break between two lines is folded: neither begins with a blank. -/
def BlockPart.folds (p : BlockPart) (literal indented : Bool) : Bool :=
  !literal && p.lineBreak.head? == some '\n' && !p.indented && !indented

def takeLines (literal : Bool) (chomping : Chomping) (indentation : Nat) :
    (steps : Nat) → BlockPart → Cursor → Option Scanned
  | 0, _, _ => none
  | steps + 1, p, c =>
    match c.head? with
    | some ch =>
      if c.column = indentation then
        let indented := isBlank ch
        let joint :=
          if p.folds literal indented then if p.empties = [] then [' '] else p.empties
          else p.lineBreak ++ p.empties
        let line := c.takeWhile (!isBreak ·)
        let (c, lineBreak) := (c.skip line.length).skipBreak
        match takeBreaks indentation 0 (c.rest.length + 1) [] 0 c with
        | none => none
        | some (empties, _, c) =>
          let done := p.done ++ joint ++ line
          takeLines literal chomping indentation steps { done, lineBreak, empties, indented } c
      else finished p c
    | none => finished p c
where
  finished (p : BlockPart) (c : Cursor) : Option Scanned :=
    let lineBreak := if chomping = .strip then [] else p.lineBreak
    let empties := if chomping = .keep then p.empties else []
    some ⟨p.done ++ lineBreak ++ empties, c, false⟩

def takeBlock (literal : Bool) (level : Nat) (c : Cursor) : Option Scanned := do
  let (chomping, increment, c) ← blockHeader? c
  let c ← c.skipLineEnd?
  let given := if increment = 0 then 0 else level - 1 + increment
  let (empties, indentation, c) ← takeBreaks given level (c.rest.length + 1) [] 0 c
  takeLines literal chomping indentation (c.rest.length + 1) { empties } c

end DocQuery.Yaml
