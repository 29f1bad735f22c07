import DocQuery.Proofs.PathWalk
import DocQuery.Proofs.TextPieces

/-! # Composing paths

Two path texts with a dot between them spell the segments of the first and then those of the second,
so the second half is walked from where the first one ends. Every outcome follows from that, errors
included: only the quoted path is the longer one. -/

namespace DocQuery

namespace Path

theorem Spelled.append {S T : List Segment} {s t : List Char} (hS : S ≠ []) (hT : T ≠ [])
    (h : Spelled S s) (k : Spelled T t) : Spelled (S ++ T) (s ++ '.' :: t) := by
  obtain ⟨pieces, hp, rfl⟩ := h
  obtain ⟨others, ho, rfl⟩ := k
  have hpne : pieces ≠ [] := by
    rintro rfl
    exact hS (List.forall₂_nil_right_iff.mp hp)
  have hone : others ≠ [] := by
    rintro rfl
    exact hT (List.forall₂_nil_right_iff.mp ho)
  exact ⟨pieces ++ others, List.rel_append hp ho, (Text.join_append '.' hpne hone).symm⟩

theorem parse_spelled {s : String} (hs : s ≠ "") {p : Path} (h : parse s = .ok p) :
    p.segments ≠ [] ∧ Spelled p.segments s.toList := by
  have hchars : s.toList ≠ [] := fun hc => hs (String.toList_eq_nil_iff.mp hc)
  exact (grammatical_iff hchars).mp ((parse_ok_iff s p).mp h).2

end Path

namespace Resolution

theorem walk_append (current : Mapping) {front : List Segment} {last : Segment}
    (hlast : front.getLast? = some last) {back : List Segment} (hb : back ≠ []) :
    walk current (front ++ back) =
      match walk current front with
      | .ok (.mapping inner) => walk inner back
      | .ok value => .error (.notMapping last value.kind)
      | .error fault => .error fault := by
  induction front generalizing current with
  | nil => cases hlast
  | cons segment rest ih =>
    cases rest with
    | nil =>
      cases hlast
      obtain ⟨next, others, rfl⟩ := List.exists_cons_of_ne_nil hb
      exact walk_cons_cons current segment next others
    | cons next others =>
      rw [List.getLast?_cons_cons] at hlast
      rw [List.cons_append, List.cons_append, walk_cons_cons, walk_cons_cons]
      cases step current segment with
      | error fault => rfl
      | ok value =>
        cases value with
        | mapping inner => exact ih inner hlast
        | _ => rfl

/-- The same value, or the same fault, each time with the path that was asked for. -/
inductive SameOutcome (p q : String) :
    Except Error (Option Value) → Except Error (Option Value) → Prop where
  | found (value : Value) : SameOutcome p q (.ok (some value)) (.ok (some value))
  | failed (fault : PathFault) :
      SameOutcome p q (.error (.invalidPath (some p) fault)) (.error (.invalidPath (some q) fault))

def answer (p : String) : Except PathFault Value → Except Error (Option Value)
  | .ok value => .ok (some value)
  | .error fault => .error (.invalidPath (some p) fault)

theorem answer_ok_iff {p : String} {walked : Except PathFault Value} {value : Value} :
    answer p walked = .ok (some value) ↔ walked = .ok value := by
  cases walked <;> simp [answer]

theorem answer_error {p : String} {walked : Except PathFault Value} {e : Error}
    (h : answer p walked = .error e) :
    ∃ fault, walked = .error fault ∧ e = .invalidPath (some p) fault := by
  cases walked with
  | ok value => cases h
  | error fault => cases h; exact ⟨fault, rfl, rfl⟩

theorem answer_ne_none (p : String) (walked : Except PathFault Value) :
    answer p walked ≠ .ok none := by
  cases walked <;> simp [answer]

theorem sameOutcome_answer (p q : String) (walked : Except PathFault Value) :
    SameOutcome p q (answer p walked) (answer q walked) := by
  cases walked with
  | ok value => exact .found value
  | error fault => exact .failed fault

theorem resolve_answer {o : Options} (h : o.throwOnMissing = true) (d : Document) {p : String}
    (hp : p ≠ "") {segments : List Segment} (hne : segments ≠ [])
    (hs : Path.Spelled segments p.toList) :
    resolve o d p = answer p (walk d.root segments) := by
  rw [resolve_spelled h d hne hs hp]
  cases walk d.root segments <;> rfl

/-- Resolving two paths in a row: the second is resolved in the mapping that the first one ends at,
anything else there is an error at the last segment of the first, and an error on the first stays. -/
theorem resolve_composed {o : Options} (h : o.throwOnMissing = true) (d : Document) {p q : String}
    (hp : p ≠ "") (hq : q ≠ "") {front back : Path} (hf : Path.parse p = .ok front)
    (hb : Path.parse q = .ok back) :
    (∀ below : Document, resolve o d p = .ok (some (.mapping below.root)) →
      SameOutcome q (p ++ "." ++ q) (resolve o below q) (resolve o d (p ++ "." ++ q))) ∧
    (∀ value, resolve o d p = .ok (some value) → value.kind ≠ .mapping →
      ∃ last, front.segments.getLast? = some last ∧ resolve o d (p ++ "." ++ q) =
        .error (.invalidPath (some (p ++ "." ++ q)) (.notMapping last value.kind)) ∧
        (Error.invalidPath (some (p ++ "." ++ q)) (.notMapping last value.kind)).message =
          "Invalid path '" ++ (p ++ "." ++ q) ++ "': " ++ ("cannot descend below '" ++ last.text ++
            "': value is of kind " ++ value.kind.name)) ∧
    (∀ e, resolve o d p = .error e →
      SameOutcome p (p ++ "." ++ q) (.error e) (resolve o d (p ++ "." ++ q))) ∧
    resolve o d p ≠ .ok none := by
  obtain ⟨hfne, hfs⟩ := Path.parse_spelled hp hf
  obtain ⟨hbne, hbs⟩ := Path.parse_spelled hq hb
  have hlast := List.getLast?_eq_some_getLast hfne
  have hfirst := resolve_answer h d hp hfne hfs
  have hspelled : Path.Spelled (front.segments ++ back.segments) (p ++ "." ++ q).toList := by
    simpa [String.toList_append] using Path.Spelled.append hfne hbne hfs hbs
  have hboth := resolve_answer h d (by simp) (List.append_ne_nil_of_left_ne_nil hfne _) hspelled
  rw [walk_append d.root hlast hbne] at hboth
  rw [hfirst, hboth]
  refine ⟨?_, ?_, ?_, answer_ne_none _ _⟩
  · intro below hr
    rw [answer_ok_iff.mp hr, resolve_answer h below hq hbne hbs]
    exact sameOutcome_answer _ _ _
  · intro value hr hkind
    refine ⟨_, hlast, ?_, rfl⟩
    rw [answer_ok_iff.mp hr]
    cases value with
    | mapping inner => exact absurd rfl hkind
    | _ => rfl
  · intro e hr
    obtain ⟨fault, hw, rfl⟩ := answer_error hr
    rw [hw]
    exact .failed fault

/-- The front half ends in an empty name behind an index with a superfluous zero. -/
theorem composed_below_element :
    ({} : Options).throwOnMissing = true ∧
    Path.parse "hosts[00]." = .ok ⟨"hosts[00].", [.indexed "hosts" 0, .field ""]⟩ ∧
    Path.parse "port.x" = .ok ⟨"port.x", [.field "port", .field "x"]⟩ ∧
    SameOutcome "port.x" ("hosts[00]." ++ "." ++ "port.x")
      (resolve {} ⟨"", [("port", .integer 587)]⟩ "port.x")
      (resolve {} ⟨"", [("hosts", .sequence [.mapping [("", .mapping [("port", .integer 587)])]])]⟩
        ("hosts[00]." ++ "." ++ "port.x")) := by
  have hhosts : Path.Spells (.indexed "hosts" 0) ("hosts".toList ++ '[' :: (['0', '0'] ++ [']'])) :=
    .indexed (by simp [Path.Plain]) (by simp) (by simp) (by decide)
  have hempty : Path.Spells (.field "") "".toList := .field (by simp [Path.Plain])
  have hfront : Path.parse "hosts[00]." = .ok ⟨"hosts[00].", [.indexed "hosts" 0, .field ""]⟩ :=
    (Path.parse_ok_iff _ _).mpr ⟨rfl, .inr ⟨by simp, by simp, _,
      .cons hhosts (.cons hempty .nil), by simp [Text.join]⟩⟩
  have hport : Path.Spells (.field "port") "port".toList := .field (by simp [Path.Plain])
  have hx : Path.Spells (.field "x") "x".toList := .field (by simp [Path.Plain])
  have hback : Path.parse "port.x" = .ok ⟨"port.x", [.field "port", .field "x"]⟩ :=
    (Path.parse_ok_iff _ _).mpr ⟨rfl, .inr ⟨by simp, by simp, _,
      .cons hport (.cons hx .nil), by simp [Text.join]⟩⟩
  have hfound : resolve {} ⟨"", [("hosts", .sequence
      [.mapping [("", .mapping [("port", .integer 587)])]])]⟩ "hosts[00]." =
      .ok (some (.mapping [("port", .integer 587)])) :=
    resolve_answer rfl _ (by simp) (by simp) (Path.parse_spelled (by simp) hfront).2
  exact ⟨rfl, hfront, hback, (resolve_composed rfl _ (by simp) (by simp) hfront hback).1
    ⟨"", [("port", .integer 587)]⟩ hfound⟩

end Resolution

end DocQuery
