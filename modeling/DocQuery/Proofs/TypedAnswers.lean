import DocQuery.Proofs.NearestFloat
import DocQuery.Proofs.PathGrammar
import DocQuery.Proofs.QueryRules

/-! # Typed answers

A value can be checked against a type or have its content taken out at the type. The two know the
types by different tables, one over the kinds and one over the values, and agree on every query:
what the one accepts the other takes out, and what the one refuses the other refuses in the same
words. Between integers and floats the content is the number, as far as the type can hold it. -/

namespace DocQuery

/-- What a value holds at a type. It is the value itself, unless the one is an integer and the other
a float. Then the fraction is dropped, or the integer becomes the nearest float. -/
inductive Holds : ValueType → Value → Value → Prop where
  | itself {t : ValueType} {v : Value} : v.kind.name = t.name → Holds t v v
  | truncated {x : Float} {n : Int64} : Number.Truncates x n →
      Holds .integer (.float x) (.integer n)
  | widened {n : Int64} {x : Float} {v : ℚ} : Number.Nearest n.toInt x v →
      Holds .float (.integer n) (.float x)

/-- The outcomes of resolving a path, of checking the value and of taking its content out. -/
inductive TypedOutcome (t : ValueType) (path : String) :
    (resolved checked content : Except Error (Option Value)) → Prop where
  | failed (e : Error) : TypedOutcome t path (.error e) (.error e) (.error e)
  | missing : TypedOutcome t path (.ok none) (.ok none) (.ok none)
  | accepted {v held : Value} : t.accepts v.kind = true → Holds t v held →
      TypedOutcome t path (.ok (some v)) (.ok (some v)) (.ok (some held))
  | refused {v : Value} : t.accepts v.kind = false →
      TypedOutcome t path (.ok (some v)) (.error (.wrongType path t.name v.kind.name))
        (.error (.wrongType path t.name v.kind.name))

theorem Holds.ofInt (n : Int64) :
    Holds .float (.integer n) (.float (Number.floatOfInt n.toInt)) := by
  have hlow : -9223372036854775808 ≤ n.toInt := Int64.minValue_le_toInt n
  have hhigh : n.toInt ≤ 9223372036854775807 := Int64.toInt_le n
  have hbits : n.toInt.natAbs.log2 ≤ 64 := by
    by_cases hzero : n.toInt.natAbs = 0
    · rw [hzero]
      decide
    · have : n.toInt.natAbs.log2 < 64 := (Nat.log2_lt hzero).mpr (by omega)
      omega
  obtain ⟨v, hv⟩ := Number.floatOfInt_nearest hbits
  exact .widened hv

theorem extract_holds {t : ValueType} {v held : Value} (h : t.extract? v = some held) :
    Holds t v held := by
  have hself : ∀ {v held : Value}, v.kind.name = t.name → some v = some held → Holds t v held := by
    intro v held hname he
    cases he
    exact .itself hname
  cases t with
  | integer =>
    cases v with
    | integer n => exact hself rfl h
    | float x => cases h; exact .truncated (Number.truncates_iff.mpr rfl)
    | _ => cases h
  | float =>
    cases v with
    | float x => exact hself rfl h
    | integer n => cases h; exact .ofInt n
    | _ => cases h
  | text =>
    cases v with
    | text s => exact hself rfl h
    | _ => cases h
  | boolean =>
    cases v with
    | boolean b => exact hself rfl h
    | _ => cases h
  | sequence =>
    cases v with
    | sequence items => exact hself rfl h
    | _ => cases h
  | mapping =>
    cases v with
    | mapping entries => exact hself rfl h
    | _ => cases h

theorem accepts_iff_extract (t : ValueType) (v : Value) :
    t.accepts v.kind = true ↔ ∃ held, t.extract? v = some held := by
  cases t <;> cases v <;> simp [ValueType.accepts, ValueType.extract?, Value.kind, Kind.isNumeric,
    Value.text?, Value.integer?, Value.float?, Value.boolean?, Value.sequence?, Value.mapping?]

theorem answers_outcome (t : ValueType) (path : String) (resolved : Except Error (Option Value)) :
    TypedOutcome t path resolved (resolved >>= Wanted.answer path (.checked t))
      (resolved >>= Wanted.answer path (.content t)) := by
  cases resolved with
  | error e => exact .failed e
  | ok found =>
    cases found with
    | none => exact .missing
    | some v =>
      change TypedOutcome t path _ (Wanted.answer path (.checked t) (some v))
        (Wanted.answer path (.content t) (some v))
      by_cases ht : t.accepts v.kind = true
      · obtain ⟨held, hheld⟩ := (accepts_iff_extract t v).mp ht
        simp only [Wanted.answer, if_pos ht, hheld]
        exact .accepted ht (extract_holds hheld)
      · have hnone : t.extract? v = none := by
          cases hx : t.extract? v with
          | none => rfl
          | some held => exact absurd ((accepts_iff_extract t v).mpr ⟨held, hx⟩) ht
        simp only [Wanted.answer, if_neg ht, hnone]
        exact .refused (Bool.eq_false_iff.mpr ht)

theorem TypedOutcome.some_iff {t : ValueType} {path : String}
    {resolved checked content : Except Error (Option Value)}
    (h : TypedOutcome t path resolved checked content) :
    ((∃ v, checked = .ok (some v)) ↔
      ∃ v, resolved = .ok (some v) ∧ t.accepts v.kind = true) ∧
    ((∃ held, content = .ok (some held)) ↔
      ∃ v, resolved = .ok (some v) ∧ t.accepts v.kind = true) := by
  cases h with
  | failed e => simp
  | missing => simp
  | accepted ht hheld => simp [ht]
  | refused ht => simp [ht]

theorem TypedOutcome.nearest {path : String} {n : Int64}
    {checked content : Except Error (Option Value)}
    (h : TypedOutcome .float path (.ok (some (.integer n))) checked content) :
    ∃ x v, Number.Nearest n.toInt x v ∧ content = .ok (some (.float x)) := by
  cases h with
  | refused ht => cases ht
  | accepted ht hheld =>
    cases hheld with
    | itself hname => exact absurd (show "integer" = "float" from hname) (by decide)
    | widened hx => exact ⟨_, _, hx, rfl⟩

namespace Query

variable (o : Resolution.Options) (d : Document)

theorem run_outcome (t : ValueType) {place : Place} {path : String} (h : place.text = .ok path)
    (hread : place.Read) :
    TypedOutcome t path (run o d ⟨place, .value⟩) (run o d ⟨place, .checked t⟩)
      (run o d ⟨place, .content t⟩) := by
  have hvalue : run o d ⟨place, .value⟩ = Resolution.resolve o d path := by
    have hrun := run_read o d (q := ⟨place, .value⟩) h hread
    rw [hrun]
    cases Resolution.resolve o d path with
    | error e => rfl
    | ok found => cases found <;> rfl
  have hchecked := run_read o d (q := ⟨place, .checked t⟩) h hread
  have hcontent := run_read o d (q := ⟨place, .content t⟩) h hread
  rw [hvalue, hchecked, hcontent]
  exact answers_outcome t path _

theorem run_empty (h : o.emptyPath = .emptyText) (w : Wanted) :
    run o d ⟨.path "", w⟩ = w.answer "" (some (.text "")) := by
  rw [run_read o d (q := ⟨.path "", w⟩) rfl trivial, Resolution.resolve_empty, h]
  rfl

/-- Checking a value and taking out its content agree on every query. Both miss the value, both
fail for the same reason, or the value has a kind that the type accepts: then it passes the check
unchanged, and its content is itself or the number turned from integer to float or back. A value of
another kind is refused by both, with the path, the type and the kind. The empty path is a text by
default, and of no other type. -/
theorem typed_answers_agree (t : ValueType) (place : Place) (hread : place.Read) :
    (∀ path, place.text = .ok path →
      TypedOutcome t path (run o d ⟨place, .value⟩) (run o d ⟨place, .checked t⟩)
        (run o d ⟨place, .content t⟩)) ∧
    (∀ e, place.text = .error e → ∀ w, run o d ⟨place, w⟩ = .error e) ∧
    ((∃ v, run o d ⟨place, .checked t⟩ = .ok (some v)) ↔
      ∃ v, run o d ⟨place, .value⟩ = .ok (some v) ∧ t.accepts v.kind = true) ∧
    ((∃ held, run o d ⟨place, .content t⟩ = .ok (some held)) ↔
      ∃ v, run o d ⟨place, .value⟩ = .ok (some v) ∧ t.accepts v.kind = true) ∧
    (o.emptyPath = .emptyText →
      run o d ⟨.path "", .content .text⟩ = .ok (some (.text "")) ∧
      (t ≠ .text →
        run o d ⟨.path "", .checked t⟩ = .error (.wrongType "" t.name "text") ∧
        run o d ⟨.path "", .content t⟩ = .error (.wrongType "" t.name "text"))) := by
  have hrefused : ∀ e, place.text = .error e → ∀ w, run o d ⟨place, w⟩ = .error e :=
    fun e he w => run_refused o d (q := ⟨place, w⟩) he
  refine ⟨fun path h => run_outcome o d t h hread, hrefused, ?_⟩
  rw [← and_assoc]
  constructor
  · cases hplace : place.text with
    | ok path => exact (run_outcome o d t hplace hread).some_iff
    | error e =>
      rw [hrefused e hplace, hrefused e hplace, hrefused e hplace]
      simp
  · intro hempty
    refine ⟨run_empty o d hempty _, ?_⟩
    intro ht
    rw [run_empty o d hempty, run_empty o d hempty]
    cases t with
    | text => exact absurd rfl ht
    | _ => exact ⟨rfl, rfl⟩

/-- A number at a path read before is no text, and its path, type and kind are reported. As a float
it is the nearest one, since it has more bits than a significand. -/
theorem number_as_text_and_float :
    (Place.parsed ⟨"count", [.field "count"]⟩).Read ∧
    TypedOutcome .text "count" (.ok (some (.integer 9007199254740993)))
      (run {} ⟨"", [("count", .integer 9007199254740993)]⟩
        ⟨.parsed ⟨"count", [.field "count"]⟩, .checked .text⟩)
      (run {} ⟨"", [("count", .integer 9007199254740993)]⟩
        ⟨.parsed ⟨"count", [.field "count"]⟩, .content .text⟩) ∧
    ∃ x v, Number.Nearest 9007199254740993 x v ∧
      run {} ⟨"", [("count", .integer 9007199254740993)]⟩
        ⟨.parsed ⟨"count", [.field "count"]⟩, .content .float⟩ = .ok (some (.float x)) := by
  have hcount : Path.Spells (.field "count") "count".toList := .field (by simp [Path.Plain])
  have hread : (Place.parsed ⟨"count", [.field "count"]⟩).Read :=
    (Path.parse_ok_iff _ _).mpr ⟨rfl, .inr ⟨by simp, by simp, _, .cons hcount .nil, rfl⟩⟩
  have hagree := fun t =>
    (typed_answers_agree {} ⟨"", [("count", .integer 9007199254740993)]⟩ t _ hread).1 _ rfl
  exact ⟨hread, hagree .text, (hagree .float).nearest⟩

end Query

end DocQuery
