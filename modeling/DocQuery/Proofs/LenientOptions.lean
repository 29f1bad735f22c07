import DocQuery.Proofs.PathComposition
import DocQuery.Proofs.QueryRules

/-! # Lenient and strict options

Two engines that treat the empty path alike answer every query alike, except that missing data is an
error of the strict one and no value of the lenient one. What the caller did wrong is an error of
both. Both write the same lines: a line is written where the walk ends, before the options decide
what becomes of its outcome. -/

namespace DocQuery

namespace Resolution

/-- Two answers to one question, of which the second gives no value where the first misses data. -/
inductive Softens : Except Error (Option Value) → Except Error (Option Value) → Prop where
  | missing (path : Option String) (fault : PathFault) :
      Softens (.error (.invalidPath path fault)) (.ok none)
  | found (value : Value) : Softens (.ok (some value)) (.ok (some value))
  | refused {e : Error} : e.isMissing = false → Softens (.error e) (.error e)

theorem missing_error {e : Error} (h : e.isMissing = true) :
    ∃ path fault, e = .invalidPath path fault := by
  cases e with
  | invalidPath path fault => exact ⟨path, fault, rfl⟩
  | wrongType path expected actual => cases h
  | invalidArgument fault => cases h

/-- How the answers of a strict engine and of a lenient one may differ. -/
structure DifferByMissing (strict lenient : Except Error (Option Value)) : Prop where
  none_iff : lenient = .ok none ↔ ∃ path fault, strict = .error (.invalidPath path fault)
  otherwise_same : (¬ ∃ path fault, strict = .error (.invalidPath path fault)) → lenient = strict
  strict_answers : strict ≠ .ok none
  wrong_type_kept : ∀ path expected actual, strict = .error (.wrongType path expected actual) ↔
    lenient = .error (.wrongType path expected actual)
  argument_kept : ∀ fault, strict = .error (.invalidArgument fault) ↔
    lenient = .error (.invalidArgument fault)

theorem Softens.error_iff {r s : Except Error (Option Value)} (h : Softens r s) {e : Error}
    (he : e.isMissing = false) : r = .error e ↔ s = .error e := by
  cases h with
  | missing path fault =>
    constructor
    · intro h
      cases h
      cases he
    · intro h; cases h
  | found value => rfl
  | refused _ => rfl

theorem Softens.none_iff {r s : Except Error (Option Value)} (h : Softens r s) :
    s = .ok none ↔ ∃ path fault, r = .error (.invalidPath path fault) := by
  cases h with
  | missing path fault => exact ⟨fun _ => ⟨path, fault, rfl⟩, fun _ => rfl⟩
  | found value => simp
  | @refused e he =>
    constructor
    · intro h; cases h
    · rintro ⟨path, fault, h⟩
      cases h
      cases he

theorem Softens.differ {r s : Except Error (Option Value)} (h : Softens r s) :
    DifferByMissing r s where
  none_iff := h.none_iff
  otherwise_same := by
    intro hr
    cases h with
    | missing path fault => exact absurd ⟨path, fault, rfl⟩ hr
    | found value => rfl
    | refused he => rfl
  strict_answers := by
    intro hr
    subst hr
    cases h
  wrong_type_kept := by
    intro path expected actual
    exact h.error_iff rfl
  argument_kept := by
    intro fault
    exact h.error_iff rfl

theorem Softens.answer {r s : Except Error (Option Value)} (h : Softens r s) (path : String)
    (w : Wanted) : Softens (r >>= w.answer path) (s >>= w.answer path) := by
  cases h with
  | missing path fault => cases w <;> exact .missing path fault
  | refused he => exact .refused he
  | found value =>
    change Softens (w.answer path (some value)) (w.answer path (some value))
    cases w with
    | value => exact .found value
    | checked t =>
      by_cases ht : t.accepts value.kind = true
      · rw [Wanted.answer, if_pos ht]
        exact .found value
      · rw [Wanted.answer, if_neg ht]
        exact .refused rfl
    | content t =>
      cases ht : t.extract? value with
      | some held =>
        simp only [Wanted.answer, ht]
        exact .found held
      | none =>
        simp only [Wanted.answer, ht]
        exact .refused rfl

theorem lookupPath_options {o o' : Options} (h : o.emptyPath = o'.emptyPath) (d : Document)
    (p : Path) : lookupPath o d p = lookupPath o' d p := by
  rw [lookupPath, lookupPath, h]

theorem lookupPath_log (o o' : Options) (d : Document) (p : Path) :
    (lookupPath o d p).log = (lookupPath o' d p).log := by
  rw [lookupPath, lookupPath]
  by_cases hp : p.segments = []
  · rw [if_pos hp, if_pos hp]
    cases o.emptyPath <;> cases o'.emptyPath <;> rfl
  · rw [if_neg hp, if_neg hp]

theorem resolveLogged_log (o o' : Options) (d : Document) (path : String) :
    (resolveLogged o d path).log = (resolveLogged o' d path).log := by
  cases hp : Path.parse path with
  | error e => rw [resolveLogged_unparsed o d hp, resolveLogged_unparsed o' d hp]
  | ok p =>
    rw [resolveLogged_parsed o d hp, resolveLogged_parsed o' d hp]
    exact lookupPath_log o o' d p

section

variable {strict lenient : Options} (hs : strict.throwOnMissing = true)
  (hl : lenient.throwOnMissing = false) (he : strict.emptyPath = lenient.emptyPath)

include hs hl

theorem suppress_softens (r : Except Error Value) :
    Softens (suppress strict r) (suppress lenient r) := by
  cases r with
  | ok value => exact .found value
  | error e =>
    cases hm : e.isMissing with
    | true =>
      obtain ⟨path, fault, rfl⟩ := missing_error hm
      simp only [suppress, hs, hl, hm]
      exact .missing path fault
    | false =>
      simp only [suppress, hm]
      exact .refused hm

include he

theorem resolvePath_softens (d : Document) (p : Path) :
    Softens (resolvePath strict d p) (resolvePath lenient d p) := by
  rw [resolvePath, resolvePath, resolvePathLogged, resolvePathLogged, lookupPath_options he]
  exact suppress_softens hs hl _

theorem resolve_softens (d : Document) (path : String) :
    Softens (resolve strict d path) (resolve lenient d path) := by
  cases hp : Path.parse path with
  | error e =>
    rw [resolve_unparsed strict d hp, resolve_unparsed lenient d hp]
    exact suppress_softens hs hl _
  | ok p =>
    rw [resolve_parsed strict d hp, resolve_parsed lenient d hp]
    exact resolvePath_softens hs hl he d p

end

end Resolution

namespace Query

open Resolution

theorem log_options (o o' : Options) (d : Document) (q : Query) : q.log o d = q.log o' d := by
  by_cases hq : ∃ p, q = ⟨.parsed p, .value⟩
  · obtain ⟨p, rfl⟩ := hq
    exact lookupPath_log o o' d p
  · have hq : ∀ p, q ≠ ⟨.parsed p, .value⟩ := fun p hp => hq ⟨p, hp⟩
    cases ht : q.place.text with
    | error e => rw [log, log, runLogged_refused o d ht, runLogged_refused o' d ht]
    | ok path =>
      rw [log, log, runLogged_text o d ht hq, runLogged_text o' d ht hq]
      exact resolveLogged_log o o' d path

theorem run_softens {strict lenient : Options} (hs : strict.throwOnMissing = true)
    (hl : lenient.throwOnMissing = false) (he : strict.emptyPath = lenient.emptyPath)
    (d : Document) (q : Query) : Softens (q.run strict d) (q.run lenient d) := by
  by_cases hq : ∃ p, q = ⟨.parsed p, .value⟩
  · obtain ⟨p, rfl⟩ := hq
    exact resolvePath_softens hs hl he d p
  · have hq : ∀ p, q ≠ ⟨.parsed p, .value⟩ := fun p hp => hq ⟨p, hp⟩
    cases ht : q.place.text with
    | error e =>
      rw [run_refused strict d ht, run_refused lenient d ht]
      exact .refused (not_missing_of_refused ht)
    | ok path =>
      rw [run_text strict d ht hq, run_text lenient d ht hq]
      exact (resolve_softens hs hl he d path).answer path q.wanted

end Query

theorem Document.get_resolve (d : Document) (path : String) :
    (d.get path).map some = Resolution.resolve {} d path := by
  rw [Document.get, Resolution.resolve, Resolution.resolveLogged, Logged.map,
    Resolution.suppress_strict rfl]

/-- What options can change. Of two engines that treat the empty path alike, one strict and one
lenient, the lenient one gives no value just where the strict one reports an invalid path, be it one
that cannot be read, one that leads nowhere or the empty one, and both agree otherwise. The strict
one never gives no value, errors of another kind are never suppressed, and both write the same
lines. A text that can be read is resolved like the path it reads as, and the document itself
answers as the strict engine does. -/
theorem lenient_differs_by_missing {strict lenient : Resolution.Options}
    (hs : strict.throwOnMissing = true) (hl : lenient.throwOnMissing = false)
    (he : strict.emptyPath = lenient.emptyPath) (d : Document) :
    (∀ q : Query, Resolution.DifferByMissing (q.run strict d) (q.run lenient d) ∧
      q.log strict d = q.log lenient d) ∧
    (∀ path e w, Path.parse path = .error e → Query.run lenient d ⟨.path path, w⟩ = .ok none) ∧
    (strict.emptyPath = .reject → ∀ w, Query.run lenient d ⟨.path "", w⟩ = .ok none) ∧
    (∀ o path p, Path.parse path = .ok p →
      Resolution.resolve o d path = Resolution.resolvePath o d p) ∧
    ∀ path, (d.get path).map some = Resolution.resolve {} d path := by
  refine ⟨?_, ?_, ?_, ?_, d.get_resolve⟩
  · intro q
    exact ⟨(Query.run_softens hs hl he d q).differ, Query.log_options strict lenient d q⟩
  · intro path e w hp
    obtain ⟨fault, rfl⟩ := Path.parse_error_path hp
    apply (Query.run_softens hs hl he d _).none_iff.mpr
    refine ⟨some path, fault, ?_⟩
    rw [Query.run_read strict d (q := ⟨.path path, w⟩) rfl trivial,
      Resolution.resolve_unparsed strict d hp, Resolution.suppress_strict hs]
    rfl
  · intro hreject w
    apply (Query.run_softens hs hl he d _).none_iff.mpr
    refine ⟨some "", .emptyPath, ?_⟩
    rw [Query.run_read strict d (q := ⟨.path "", w⟩) rfl trivial, Resolution.resolve_empty, hreject,
      Resolution.suppress_strict hs]
    rfl
  · intro o path p hp
    exact Resolution.resolve_parsed o d hp

/-- Below a number there is nothing, which is suppressed; a number is no text, which is not. -/
theorem number_below_and_as_text :
    (⟨true, .reject⟩ : Resolution.Options).throwOnMissing = true ∧
    (⟨false, .reject⟩ : Resolution.Options).throwOnMissing = false ∧
    (⟨true, .reject⟩ : Resolution.Options).emptyPath =
      (⟨false, .reject⟩ : Resolution.Options).emptyPath ∧
    Query.run ⟨false, .reject⟩ ⟨"", [("port", .integer 587)]⟩ ⟨.path "port.x", .value⟩ = .ok none ∧
    Query.run ⟨false, .reject⟩ ⟨"", [("port", .integer 587)]⟩ ⟨.path "port", .content .text⟩ =
      .error (.wrongType "port" "text" "integer") := by
  have hport : Path.Spells (.field "port") "port".toList := .field (by simp [Path.Plain])
  have hx : Path.Spells (.field "x") "x".toList := .field (by simp [Path.Plain])
  have hbelow : Path.Spelled [.field "port", .field "x"] "port.x".toList :=
    ⟨_, .cons hport (.cons hx .nil), by simp [Text.join]⟩
  have halone : Path.Spelled [.field "port"] "port".toList := ⟨_, .cons hport .nil, rfl⟩
  have hmissing : Query.run ⟨true, .reject⟩ ⟨"", [("port", .integer 587)]⟩
      ⟨.path "port.x", .value⟩ =
        .error (.invalidPath (some "port.x") (.notMapping (.field "port") .integer)) := by
    rw [Query.run_text _ _ (q := ⟨.path "port.x", .value⟩) rfl (by simp), Wanted.answer_value]
    exact Resolution.resolve_answer rfl _ (by simp) (by simp) hbelow
  have hfound : Resolution.resolve ⟨true, .reject⟩ ⟨"", [("port", .integer 587)]⟩ "port" =
      .ok (some (.integer 587)) :=
    Resolution.resolve_answer rfl _ (by simp) (by simp) halone
  have htext : Query.run ⟨true, .reject⟩ ⟨"", [("port", .integer 587)]⟩
      ⟨.path "port", .content .text⟩ = .error (.wrongType "port" "text" "integer") := by
    rw [Query.run_text _ _ (q := ⟨.path "port", .content .text⟩) rfl (by simp), hfound]
    rfl
  have hstrict : (⟨true, .reject⟩ : Resolution.Options).throwOnMissing = true := rfl
  have hlenient : (⟨false, .reject⟩ : Resolution.Options).throwOnMissing = false := rfl
  have hall := lenient_differs_by_missing hstrict hlenient rfl ⟨"", [("port", .integer 587)]⟩
  refine ⟨hstrict, hlenient, rfl, ?_, ?_⟩
  · exact (hall.1 _).1.none_iff.mpr ⟨_, _, hmissing⟩
  · exact ((hall.1 _).1.wrong_type_kept _ _ _).mp htext

end DocQuery
