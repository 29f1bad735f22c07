import DocQuery.Log

/-! # Values of YAML trees

A document's values have text keys, so the conversion of a tree to a value addresses scalar keys by
their text, leaves out the entries whose key is a sequence or a mapping, and warns of each. -/

namespace DocQuery.Yaml.Tree

/-- A value and the keys of the entries that were left out, in the order of the text. -/
structure Conversion (α : Type) where
  result : α
  skipped : List Tree

mutual

/-- The value of a tree. Entries are stored one after the other, so of several entries with the
same key text the last value stands in the place of the first. -/
def convert : Tree → Conversion Value
  | null => ⟨.null, []⟩
  | boolean b => ⟨.boolean b, []⟩
  | number n => ⟨n.toValue, []⟩
  | text s => ⟨.text s, []⟩
  | sequence items =>
    let c := convertItems items
    ⟨.sequence c.result, c.skipped⟩
  | mapping entries =>
    let c := convertEntries [] entries
    ⟨.mapping c.result, c.skipped⟩
  | tagged _ inner => convert inner

def convertItems : List Tree → Conversion (List Value)
  | [] => ⟨[], []⟩
  | tree :: rest =>
    let c := convert tree
    let cs := convertItems rest
    ⟨c.result :: cs.result, c.skipped ++ cs.skipped⟩

def convertEntries (done : Mapping) : List (Tree × Tree) → Conversion Mapping
  | [] => ⟨done, []⟩
  | (key, tree) :: rest =>
    match keyText? key with
    | none =>
      let cs := convertEntries done rest
      ⟨cs.result, key :: cs.skipped⟩
    | some name =>
      let c := convert tree
      let cs := convertEntries (Mapping.insert done name c.result) rest
      ⟨cs.result, c.skipped ++ cs.skipped⟩

end

def toValue (t : Tree) : Logged Value :=
  let c := convert t
  { result := c.result, log := c.skipped.map .skippedKey }

end DocQuery.Yaml.Tree
