import DocQuery.Yaml.Token
import DocQuery.Yaml.Token.Scalar

/-! # Names, tags and directives of YAML texts

Anchors and aliases are words. A tag is `!` alone, a local tag `!suffix`, a tag with a handle
`!handle!suffix`, or a tag in full `!<tag>`. A directive stands alone in its line. -/

namespace DocQuery.Yaml

def takeName? (c : Cursor) : Option (String × Cursor) :=
  let name := c.takeWhile isWordChar
  let c := c.skip name.length
  let ends :=
    match c.head? with
    | none => true
    | some ch => endsWord (some ch) || "?:,]\x7d%@`".toList.contains ch
  if name.isEmpty || !ends then none else some (String.ofList name, c)

def isTagChar (full : Bool) (c : Char) : Bool :=
  isWordChar c || ";/?:@&=+$.!~*'()".toList.contains c || (full && ",[]".toList.contains c)

def utf8Width? (byte : Nat) : Option Nat :=
  if byte < 0x80 then some 1
  else if 0xC0 ≤ byte ∧ byte < 0xE0 then some 2
  else if 0xE0 ≤ byte ∧ byte < 0xF0 then some 3
  else if 0xF0 ≤ byte ∧ byte < 0xF8 then some 4
  else none

def escapedByte? (c : Cursor) : Option Nat :=
  if c.head? = some '%' then hexValue? 2 (c.rest.drop 1) else none

def continuation? : (bytes : Nat) → (code : Nat) → Cursor → Option (Nat × Cursor)
  | 0, code, c => some (code, c)
  | bytes + 1, code, c => do
    let byte ← escapedByte? c
    if 0x80 ≤ byte ∧ byte < 0xC0 then
      continuation? bytes (code * 0x40 + (byte - 0x80)) (c.skip 3)
    else none

def takeEscaped? (c : Cursor) : Option (Char × Cursor) := do
  let byte ← escapedByte? c
  let width ← utf8Width? byte
  let start := if width = 1 then byte else byte % Nat.pow 2 (7 - width)
  let (code, c) ← continuation? (width - 1) start (c.skip 3)
  let ch ← charOfCode? code
  if ch.utf8Size = width then some (ch, c) else none

def takeTagText (full : Bool) :
    (steps : Nat) → (done : List Char) → Cursor → Option (List Char × Cursor)
  | 0, done, c => some (done, c)
  | steps + 1, done, c =>
    match c.head? with
    | none => some (done, c)
    | some ch =>
      if ch == '%' then
        match takeEscaped? c with
        | some (e, c) => takeTagText full steps (done ++ [e]) c
        | none => none
      else if isTagChar full ch then takeTagText full steps (done ++ [ch]) (c.skip 1)
      else some (done, c)

def takeHandle (c : Cursor) : List Char × Cursor :=
  let word := (c.skip 1).takeWhile isWordChar
  let c := c.skip (1 + word.length)
  if c.head? = some '!' then ('!' :: word ++ ['!'], c.skip 1) else ('!' :: word, c)

def takeTag? (flow : Bool) (c : Cursor) : Option (Token × Cursor) := do
  let (handle, suffix, c) ←
    if c.ahead? 1 = some '<' then
      let (suffix, c) ← takeTagText true c.rest.length [] (c.skip 2)
      if suffix.isEmpty || c.head? != some '>' then none else some ([], suffix, c.skip 1)
    else
      let (handle, c) := takeHandle c
      if 1 < handle.length ∧ handle.getLast? = some '!' then
        let (suffix, c) ← takeTagText false c.rest.length [] c
        if suffix.isEmpty then none else some (handle, suffix, c)
      else
        let (suffix, c) ← takeTagText false c.rest.length (handle.drop 1) c
        if suffix.isEmpty then some ([], ['!'], c) else some (['!'], suffix, c)
  if endsWord c.head? || (flow && c.head? == some ',') then
    some (.tag (String.ofList handle) (String.ofList suffix), c)
  else none

def takeVersionNumber? (c : Cursor) : Option (Nat × Cursor) :=
  let ds := c.takeWhile Char.isDigit
  if ds.isEmpty || 9 < ds.length then none
  else some (ds.foldl (fun n d => 10 * n + (d.toNat - '0'.toNat)) 0, c.skip ds.length)

def takeDirective? (c : Cursor) : Option (Token × Cursor) := do
  let name := c.takeWhile isWordChar
  let c := c.skip name.length
  if name.isEmpty || !endsWord c.head? then none
  let (token, c) ←
    if name == "YAML".toList then do
      let (major, c) ← takeVersionNumber? (c.skipWhile isBlank)
      if c.head? != some '.' then none
      let (minor, c) ← takeVersionNumber? (c.skip 1)
      some (Token.version major minor, c)
    else if name == "TAG".toList then do
      let c := c.skipWhile isBlank
      if c.head? != some '!' then none
      let (handle, c) := takeHandle c
      if handle != ['!'] && handle.getLast? != some '!' then none
      if !(c.head?.map isBlank).getD false then none
      let c := c.skipWhile isBlank
      let (replacement, c) ← takeTagText true c.rest.length [] c
      if replacement.isEmpty || !endsWord c.head? then none
      some (Token.tagHandle (String.ofList handle) (String.ofList replacement), c)
    else none
  let c ← c.skipLineEnd?
  some (token, c)

end DocQuery.Yaml
