import DocQuery.Proofs.JsonRoundTrip
import DocQuery.Proofs.KeptEntries
import DocQuery.Query

/-! # One value for both formats

A JSON tree can be read as a YAML tree: arrays are sequences, objects are mappings with texts as
keys, and a number is one that agrees with it as an integer and as a float. The two formats are
converted by different rules, all entries at once or one after the other under the texts of their
keys, but the value is the same, and no entry is left out on the way. -/

namespace DocQuery

namespace Numeric

def integer? : Numeric → Option Int64
  | natural n => if n.toNat < signedBound then some (Int64.ofNat n.toNat) else none
  | negative n => some n
  | float _ => none

def asFloat : Numeric → Float
  | natural n => Number.floatOfInt n.toNat
  | negative n => Number.floatOfInt n.toInt
  | float x => x

/-- Two numbers that cannot be told apart, as integers or as floats. -/
structure Agrees (n m : Numeric) : Prop where
  integer : n.integer? = m.integer?
  float : n.asFloat = m.asFloat

theorem toValue_eq (n : Numeric) :
    n.toValue = (n.integer?.map Value.integer).getD (.float n.asFloat) := by
  cases n with
  | natural n =>
    rw [toValue, integer?]
    split <;> rfl
  | negative n => rfl
  | float x => rfl

theorem Agrees.toValue {n m : Numeric} (h : n.Agrees m) : n.toValue = m.toValue := by
  rw [toValue_eq, toValue_eq, h.integer, h.float]

end Numeric

namespace Json.Tree

mutual

/-- The same tree in YAML, with entries in the same order. -/
inductive Corresponds : Tree → Yaml.Tree → Prop where
  | null : Corresponds .null .null
  | boolean (b : Bool) : Corresponds (.boolean b) (.boolean b)
  | number {n m : Numeric} : n.Agrees m → Corresponds (.number n) (.number m)
  | text (s : String) : Corresponds (.text s) (.text s)
  | array {ts : List Tree} {us : List Yaml.Tree} : CorrespondingItems ts us →
      Corresponds (.array ts) (.sequence us)
  | object {members : List (String × Tree)} {entries : List (Yaml.Tree × Yaml.Tree)} :
      CorrespondingEntries members entries → Corresponds (.object members) (.mapping entries)

inductive CorrespondingItems : List Tree → List Yaml.Tree → Prop where
  | nil : CorrespondingItems [] []
  | cons {t : Tree} {u : Yaml.Tree} {ts : List Tree} {us : List Yaml.Tree} : Corresponds t u →
      CorrespondingItems ts us → CorrespondingItems (t :: ts) (u :: us)

inductive CorrespondingEntries : List (String × Tree) → List (Yaml.Tree × Yaml.Tree) → Prop where
  | nil : CorrespondingEntries [] []
  | cons (key : String) {t : Tree} {u : Yaml.Tree} {members : List (String × Tree)}
      {entries : List (Yaml.Tree × Yaml.Tree)} : Corresponds t u →
      CorrespondingEntries members entries →
      CorrespondingEntries ((key, t) :: members) ((.text key, u) :: entries)

end

mutual

/-- The value with the same nodes as the tree, and entries in the same order. A number that is no
integer of 64 bits with sign is a float. -/
inductive Mirrored : Tree → Value → Prop where
  | null : Mirrored .null .null
  | boolean (b : Bool) : Mirrored (.boolean b) (.boolean b)
  | integer {n : Numeric} {i : Int64} : n.integer? = some i → Mirrored (.number n) (.integer i)
  | float {n : Numeric} : n.integer? = none → Mirrored (.number n) (.float n.asFloat)
  | text (s : String) : Mirrored (.text s) (.text s)
  | array {ts : List Tree} {values : List Value} : MirroredItems ts values →
      Mirrored (.array ts) (.sequence values)
  | object {members : List (String × Tree)} {entries : List (String × Value)} :
      MirroredEntries members entries → Mirrored (.object members) (.mapping entries)

inductive MirroredItems : List Tree → List Value → Prop where
  | nil : MirroredItems [] []
  | cons {t : Tree} {v : Value} {ts : List Tree} {values : List Value} : Mirrored t v →
      MirroredItems ts values → MirroredItems (t :: ts) (v :: values)

inductive MirroredEntries : List (String × Tree) → List (String × Value) → Prop where
  | nil : MirroredEntries [] []
  | cons (key : String) {t : Tree} {v : Value} {members : List (String × Tree)}
      {entries : List (String × Value)} : Mirrored t v → MirroredEntries members entries →
      MirroredEntries ((key, t) :: members) ((key, v) :: entries)

end

/-- No object in the tree has two members with one key. -/
inductive Distinct : Tree → Prop where
  | null : Distinct .null
  | boolean (b : Bool) : Distinct (.boolean b)
  | number (n : Numeric) : Distinct (.number n)
  | text (s : String) : Distinct (.text s)
  | array {ts : List Tree} : (∀ t ∈ ts, Distinct t) → Distinct (.array ts)
  | object {members : List (String × Tree)} : (members.map Prod.fst).Nodup →
      (∀ member ∈ members, Distinct member.2) → Distinct (.object members)

theorem mirrored_number (n : Numeric) : Mirrored (.number n) n.toValue := by
  rw [Numeric.toValue_eq]
  cases hn : n.integer? with
  | some i => exact .integer hn
  | none => exact .float hn

mutual

theorem Distinct.mirrored : {t : Tree} → t.Distinct → Mirrored t t.toValue
  | _, .null => .null
  | _, .boolean b => .boolean b
  | _, .number n => mirrored_number n
  | _, .text s => .text s
  | .array ts, .array h => .array (mirroredItems ts h)
  | .object members, .object hkeys h => by
    have hnodup : (Mapping.keys (toEntries members)).Nodup := by
      rw [toEntries_keys]
      exact hkeys
    rw [toValue, Mapping.ofEntries_of_nodup hnodup]
    exact .object (mirroredEntries members h)

theorem mirroredItems : (ts : List Tree) → (∀ t ∈ ts, t.Distinct) → MirroredItems ts (toValues ts)
  | [], _ => .nil
  | t :: rest, h => by
    rw [List.forall_mem_cons] at h
    exact .cons h.1.mirrored (mirroredItems rest h.2)

theorem mirroredEntries : (members : List (String × Tree)) →
    (∀ member ∈ members, member.2.Distinct) → MirroredEntries members (toEntries members)
  | [], _ => .nil
  | (key, t) :: rest, h => by
    rw [List.forall_mem_cons] at h
    exact .cons key h.1.mirrored (mirroredEntries rest h.2)

end

mutual

theorem corresponds_exists : (t : Tree) → ∃ u, Corresponds t u
  | .null => ⟨_, .null⟩
  | .boolean b => ⟨_, .boolean b⟩
  | .number _ => ⟨_, .number ⟨rfl, rfl⟩⟩
  | .text s => ⟨_, .text s⟩
  | .array ts => by
    obtain ⟨us, h⟩ := correspondingItems_exists ts
    exact ⟨_, .array h⟩
  | .object members => by
    obtain ⟨entries, h⟩ := correspondingEntries_exists members
    exact ⟨_, .object h⟩

theorem correspondingItems_exists : (ts : List Tree) → ∃ us, CorrespondingItems ts us
  | [] => ⟨_, .nil⟩
  | t :: rest => by
    obtain ⟨u, h⟩ := corresponds_exists t
    obtain ⟨us, hrest⟩ := correspondingItems_exists rest
    exact ⟨_, .cons h hrest⟩

theorem correspondingEntries_exists : (members : List (String × Tree)) →
    ∃ entries, CorrespondingEntries members entries
  | [] => ⟨_, .nil⟩
  | (key, t) :: rest => by
    obtain ⟨u, h⟩ := corresponds_exists t
    obtain ⟨entries, hrest⟩ := correspondingEntries_exists rest
    exact ⟨_, .cons key h hrest⟩

end

open Yaml.Tree (Becomes BecomesItems BecomesRows)

mutual

theorem Corresponds.becomes : {t : Tree} → {u : Yaml.Tree} → Corresponds t u →
    Becomes u t.toValue []
  | _, _, .null => .null
  | _, _, .boolean b => .boolean b
  | _, _, .number (m := m) h => by
    rw [toValue, h.toValue]
    exact .number m
  | _, _, .text s => .text s
  | _, _, .array h => .sequence h.becomes
  | _, _, .object h => .mapping h.becomes (Mapping.merges_ofEntries _)

theorem CorrespondingItems.becomes : {ts : List Tree} → {us : List Yaml.Tree} →
    CorrespondingItems ts us → BecomesItems us (toValues ts) []
  | _, _, .nil => .nil
  | _, _, .cons h hrest => .cons h.becomes hrest.becomes

theorem CorrespondingEntries.becomes : {members : List (String × Tree)} →
    {entries : List (Yaml.Tree × Yaml.Tree)} → CorrespondingEntries members entries →
    BecomesRows entries (toEntries members) []
  | _, _, .nil => .nil
  | _, _, .cons key h hrest => .kept (.text key) h.becomes hrest.becomes

end

/-- Every JSON tree can be read as a YAML tree, and however this is done, both conversions give the
same value, the second without a line in the log. If keys are distinct, that value has the nodes of
the tree, with entries in their order. So a query has the same answer on both documents. -/
theorem formats_agree (t : Tree) :
    (∃ u, Corresponds t u) ∧ (t.Distinct → Mirrored t t.toValue) ∧
    ∀ u, Corresponds t u → u.toValue = ⟨t.toValue, []⟩ ∧
      ∀ (key : String) (o : Resolution.Options) (q : Query),
        (Document.ofValue key u.toValue.result >>= q.run o) =
          (Document.ofValue key t.toValue >>= q.run o) := by
  refine ⟨corresponds_exists t, Distinct.mirrored, ?_⟩
  intro u h
  have hvalue : u.toValue = ⟨t.toValue, []⟩ := by
    rw [Yaml.Tree.toValue, h.becomes.convert_eq]
    rfl
  refine ⟨hvalue, ?_⟩
  intro key o q
  rw [hvalue]

end Json.Tree

end DocQuery
