import DocQuery.Proofs.PathGrammar
import DocQuery.Resolution

/-! # Walks through a document

A walk is described by the document tree alone: one step for each segment, from mapping to mapping,
never onto null. Resolving the text of a path finds exactly the values at the ends of walks. -/

namespace DocQuery.Resolution

/-- The value under the segment's name, or the element of the sequence there. -/
inductive Leads (current : Mapping) : Segment → Value → Prop where
  | field {name : String} {value : Value} : Mapping.get? current name = some value →
      Leads current (.field name) value
  | element {name : String} {index : UInt64} {items : List Value} {value : Value} :
      Mapping.get? current name = some (.sequence items) → items[index.toNat]? = some value →
      Leads current (.indexed name index) value

/-- Segments that lead to a value which is not null, each but the last by way of a mapping. -/
inductive Walks : Mapping → List Segment → Value → Prop where
  | last {current : Mapping} {segment : Segment} {value : Value} :
      Leads current segment value → value ≠ .null → Walks current [segment] value
  | descend {current inner : Mapping} {segment : Segment} {rest : List Segment} {value : Value} :
      Leads current segment (.mapping inner) → Walks inner rest value →
      Walks current (segment :: rest) value

theorem Walks.ne_nil {current : Mapping} {segments : List Segment} {value : Value}
    (h : Walks current segments value) : segments ≠ [] := by
  cases h <;> exact List.cons_ne_nil _ _

theorem Walks.ne_null {current : Mapping} {segments : List Segment} {value : Value}
    (h : Walks current segments value) : value ≠ .null := by
  induction h with
  | last _ hn => exact hn
  | descend _ _ ih => exact ih

def land (segment : Segment) (value : Value) : Except PathFault Value :=
  if value.isNull then .error (.nullValue segment) else .ok value

theorem land_ok_iff (segment : Segment) (found value : Value) :
    land segment found = .ok value ↔ found = value ∧ value ≠ .null := by
  unfold land
  split
  · next h =>
    rw [Value.isNull_iff] at h
    subst h
    simp [eq_comm]
  · next h =>
    rw [Value.isNull_iff] at h
    constructor
    · intro k; cases k; exact ⟨rfl, h⟩
    · rintro ⟨rfl, -⟩; rfl

theorem step_field (current : Mapping) (name : String) :
    step current (.field name) =
      match Mapping.get? current name with
      | none => .error (.fieldNotFound name)
      | some found => land (.field name) found := by
  cases hf : Mapping.get? current name with
  | none => simp only [step, Segment.name, hf]; rfl
  | some found => simp only [step, Segment.name, hf]; rfl

theorem step_indexed (current : Mapping) (name : String) (index : UInt64) :
    step current (.indexed name index) =
      match Mapping.get? current name with
      | none => .error (.fieldNotFound name)
      | some (.sequence items) =>
        match items[index.toNat]? with
        | none => .error (.indexOutOfRange index name items.length)
        | some found => land (.indexed name index) found
      | some found => .error (.notSequence name found.kind) := by
  cases hf : Mapping.get? current name with
  | none => simp only [step, Segment.name, hf]; rfl
  | some found =>
    simp only [step, Segment.name, hf]
    cases found with
    | sequence items =>
      simp only [Value.sequence?, pure_bind]
      cases items[index.toNat]? <;> rfl
    | _ => rfl

theorem step_ok_iff (current : Mapping) (segment : Segment) (value : Value) :
    step current segment = .ok value ↔ Leads current segment value ∧ value ≠ .null := by
  constructor
  · intro h
    cases segment with
    | field name =>
      rw [step_field] at h
      split at h
      · cases h
      · next found hf =>
        obtain ⟨rfl, hn⟩ := (land_ok_iff _ _ _).mp h
        exact ⟨.field hf, hn⟩
    | indexed name index =>
      rw [step_indexed] at h
      split at h
      · cases h
      · next items hf =>
        split at h
        · cases h
        · next found hi =>
          obtain ⟨rfl, hn⟩ := (land_ok_iff _ _ _).mp h
          exact ⟨.element hf hi, hn⟩
      · cases h
  · rintro ⟨h, hn⟩
    cases h with
    | field hf => rw [step_field, hf]; exact (land_ok_iff _ _ _).mpr ⟨rfl, hn⟩
    | element hf hi => simp only [step_indexed, hf, hi]; exact (land_ok_iff _ _ _).mpr ⟨rfl, hn⟩

theorem walk_cons_cons (current : Mapping) (segment next : Segment) (rest : List Segment) :
    walk current (segment :: next :: rest) =
      match step current segment with
      | .ok (.mapping inner) => walk inner (next :: rest)
      | .ok value => .error (.notMapping segment value.kind)
      | .error fault => .error fault := by
  rw [walk]
  · cases step current segment with
    | error fault => rfl
    | ok value => cases value <;> rfl
  · exact List.cons_ne_nil _ _

theorem walk_ok_iff (current : Mapping) (segments : List Segment) (value : Value) :
    walk current segments = .ok value ↔ Walks current segments value := by
  induction segments generalizing current with
  | nil =>
    constructor
    · intro h; cases h
    · intro h; exact absurd rfl h.ne_nil
  | cons segment rest ih =>
    cases rest with
    | nil =>
      rw [walk, step_ok_iff]
      constructor
      · rintro ⟨h, hn⟩; exact .last h hn
      · intro h
        cases h with
        | last h hn => exact ⟨h, hn⟩
        | descend _ h => exact absurd rfl h.ne_nil
    | cons next rest =>
      rw [walk_cons_cons]
      constructor
      · intro h
        split at h
        · next inner hs => exact .descend ((step_ok_iff _ _ _).mp hs).1 ((ih inner).mp h)
        · cases h
        · cases h
      · intro h
        cases h with
        | descend h hw =>
          have hs := (step_ok_iff _ _ _).mpr ⟨h, Value.noConfusion⟩
          rw [hs]
          exact (ih _).mpr hw

theorem suppress_strict {α : Type} {o : Options} (h : o.throwOnMissing = true)
    (r : Except Error α) : suppress o r = r.map some := by
  cases r with
  | ok a => rfl
  | error e => simp [suppress, h, Except.map]

theorem resolve_spelled {o : Options} (h : o.throwOnMissing = true) (d : Document) {p : String}
    {segments : List Segment} (hne : segments ≠ []) (hs : Path.Spelled segments p.toList)
    (hp : p ≠ "") :
    resolve o d p = match walk d.root segments with
      | .ok value => .ok (some value)
      | .error fault => .error (.invalidPath (some p) fault) := by
  have hchars : p.toList ≠ [] := fun hc => hp (String.toList_eq_nil_iff.mp hc)
  have hparse : Path.parse p = .ok ⟨p, segments⟩ :=
    (Path.parse_ok_iff p _).mpr ⟨rfl, .inr ⟨hchars, hne, hs⟩⟩
  rw [resolve_parsed o d hparse, resolvePath_walk o d hne, suppress_strict h]
  cases walk d.root segments <;> rfl

/-- A strict engine walks the segments that the text spells; it refuses a text that spells none. -/
theorem resolve_strict_cases {o : Options} (h : o.throwOnMissing = true) (d : Document)
    {p : String} (hp : p ≠ "") :
    (∃ segments value, Path.Spelled segments p.toList ∧ Walks d.root segments value ∧
      resolve o d p = .ok (some value)) ∨
    (¬ ∃ segments value, Path.Spelled segments p.toList ∧ Walks d.root segments value) ∧
      ∃ fault, resolve o d p = .error (.invalidPath (some p) fault) := by
  have hchars : p.toList ≠ [] := fun hc => hp (String.toList_eq_nil_iff.mp hc)
  cases hparse : Path.parse p with
  | ok q =>
    obtain ⟨-, hg⟩ := (Path.parse_ok_iff p q).mp hparse
    obtain ⟨hne, hs⟩ := (Path.grammatical_iff hchars).mp hg
    have hr := resolve_spelled h d hne hs hp
    cases hw : walk d.root q.segments with
    | ok value =>
      rw [hw] at hr
      exact Or.inl ⟨_, value, hs, (walk_ok_iff _ _ _).mp hw, hr⟩
    | error fault =>
      rw [hw] at hr
      refine Or.inr ⟨?_, fault, hr⟩
      rintro ⟨segments, value, ht, hwalk⟩
      obtain rfl := Path.spelled_unique hwalk.ne_nil hne ht hs
      rw [(walk_ok_iff _ _ _).mpr hwalk] at hw
      cases hw
  | error e =>
    obtain ⟨fault, rfl⟩ := Path.parse_error_path hparse
    refine Or.inr ⟨?_, fault, ?_⟩
    · rintro ⟨segments, value, hs, hwalk⟩
      have hg := (Path.grammatical_iff hchars).mpr ⟨hwalk.ne_nil, hs⟩
      rw [(Path.parse_ok_iff p ⟨p, segments⟩).mpr ⟨rfl, hg⟩] at hparse
      cases hparse
    · rw [resolve_unparsed o d hparse, suppress_strict h]
      rfl

theorem resolve_ok_iff {o : Options} (h : o.throwOnMissing = true) (d : Document) {p : String}
    (hp : p ≠ "") (value : Value) :
    resolve o d p = .ok (some value) ↔
      ∃ segments, Path.Spelled segments p.toList ∧ Walks d.root segments value := by
  constructor
  · intro hr
    rcases resolve_strict_cases h d hp with ⟨segments, v, hs, hw, hv⟩ | ⟨-, fault, hf⟩
    · rw [hr] at hv
      cases hv
      exact ⟨segments, hs, hw⟩
    · rw [hr] at hf
      cases hf
  · rintro ⟨segments, hs, hw⟩
    rw [resolve_spelled h d hw.ne_nil hs hp, (walk_ok_iff _ _ _).mpr hw]

theorem resolve_empty_ne_null {o : Options} (d : Document) {value : Value}
    (hr : resolve o d "" = .ok (some value)) : value ≠ .null := by
  rintro rfl
  rw [resolve_empty] at hr
  cases hempty : o.emptyPath with
  | emptyText =>
    rw [hempty] at hr
    cases hr
  | reject =>
    simp only [hempty, suppress] at hr
    split at hr <;> cases hr

/-- Resolution is exact: it finds a value at a text just if the text spells a walk to the value and
fails with the text otherwise. Null is never found, and everything else that can be reached through
names that can be written is found at the written form of the way there. -/
theorem resolve_exactly_walks {o : Options} (h : o.throwOnMissing = true) (d : Document) :
    (∀ p : String, p ≠ "" →
      (∀ value, resolve o d p = .ok (some value) ↔
        ∃ segments, Path.Spelled segments p.toList ∧ Walks d.root segments value) ∧
      ((∃ fault, resolve o d p = .error (.invalidPath (some p) fault)) ↔
        ¬ ∃ segments value, Path.Spelled segments p.toList ∧ Walks d.root segments value)) ∧
    (∀ p, resolve o d p ≠ .ok (some .null)) ∧
    (∀ segments value, Walks d.root segments value → (∀ s ∈ segments, Path.Plain s.name) →
      segments ≠ [.field ""] →
      resolve o d (String.ofList (Path.written segments)) = .ok (some value)) := by
  refine ⟨?_, ?_, ?_⟩
  · intro p hp
    refine ⟨resolve_ok_iff h d hp, ?_⟩
    rcases resolve_strict_cases h d hp with ⟨segments, value, hs, hw, hv⟩ | ⟨hn, hf⟩
    · constructor
      · rintro ⟨fault, hf⟩
        rw [hv] at hf
        cases hf
      · intro hn
        exact absurd ⟨segments, value, hs, hw⟩ hn
    · exact ⟨fun _ => hn, fun _ => hf⟩
  · intro p hr
    by_cases hp : p = ""
    · subst hp
      exact resolve_empty_ne_null d hr rfl
    · obtain ⟨segments, -, hw⟩ := (resolve_ok_iff h d hp _).mp hr
      exact hw.ne_null rfl
  · intro segments value hw hplain hempty
    have hwritten := Path.written_ne_nil hw.ne_nil hempty
    have hp : String.ofList (Path.written segments) ≠ "" := by
      intro he
      rw [← String.toList_eq_nil_iff, String.toList_ofList] at he
      exact hwritten he
    refine (resolve_ok_iff h d hp value).mpr ⟨segments, ?_, hw⟩
    rw [String.toList_ofList]
    exact Path.written_spelled hplain

theorem element_behind_null_resolved :
    ({} : Options).throwOnMissing = true ∧
    resolve {} ⟨"", [("hosts", .sequence [.null, .mapping [("port", .integer 587)]])]⟩
      "hosts[01].port" = .ok (some (.integer 587)) := by
  have hhosts : Path.Spells (.indexed "hosts" 1) ("hosts".toList ++ '[' :: (['0', '1'] ++ [']'])) :=
    .indexed (by simp [Path.Plain]) (by simp) (by simp) (by decide)
  have hport : Path.Spells (.field "port") "port".toList := .field (by simp [Path.Plain])
  have hspelled : Path.Spelled [.indexed "hosts" 1, .field "port"] "hosts[01].port".toList :=
    ⟨_, .cons hhosts (.cons hport .nil), by simp [Text.join]⟩
  have hwalk : Walks [("hosts", .sequence [.null, .mapping [("port", .integer 587)]])]
      [.indexed "hosts" 1, .field "port"] (.integer 587) :=
    .descend (.element rfl rfl) (.last (.field rfl) Value.noConfusion)
  refine ⟨rfl, ?_⟩
  exact (((resolve_exactly_walks rfl _).1 _ (by simp)).1 _).mpr ⟨_, hspelled, hwalk⟩

end DocQuery.Resolution
