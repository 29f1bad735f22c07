import DocQuery.Proofs.PathComposition

/-! # Where a walk stops

A path that leads nowhere stops at one of its segments: those before it lead from mapping to
mapping, and at this one exactly one of five causes applies, which the message of the error spells
out. Where the walk stops and why depends on what stands before that segment, and never on what
follows it. -/

namespace DocQuery

theorem Kind.name_injective : Function.Injective Kind.name := by
  intro a b h
  cases a <;> cases b <;> first | rfl | exact absurd h (by decide)

/-- The words in which the end of a walk at the segment is explained. -/
inductive Segment.Explains (segment : Segment) : PathFault → String → Prop where
  | absent :
      Explains segment (.fieldNotFound segment.name) ("field '" ++ segment.name ++ "' not found")
  | notSequence (kind : Kind) : Explains segment (.notSequence segment.name kind)
      ("field '" ++ segment.name ++ "' is of kind " ++ kind.name ++ ", not a sequence")
  | outOfRange {index : UInt64} (length : Nat) : segment.index? = some index →
      Explains segment (.indexOutOfRange index segment.name length)
        ("index " ++ toString index.toNat ++ " out of range for '" ++ segment.name ++
          "' of length " ++ toString length)
  | null : Explains segment (.nullValue segment) ("'" ++ segment.text ++ "' is null")
  | notMapping (kind : Kind) : Explains segment (.notMapping segment kind)
      ("cannot descend below '" ++ segment.text ++ "': value is of kind " ++ kind.name)

theorem Segment.Explains.message_eq {segment : Segment} {fault : PathFault} {cause : String}
    (h : segment.Explains fault cause) (path : String) :
    (Error.invalidPath (some path) fault).message = "Invalid path '" ++ path ++ "': " ++ cause := by
  have hfault : fault.message = cause := by cases h <;> rfl
  rw [← hfault]
  rfl

/-- The words tell the causes apart, and with them the kind or the length that they name. -/
theorem Segment.Explains.unique {segment : Segment} {fault other : PathFault} {cause : String}
    (h : segment.Explains fault cause) (h' : segment.Explains other cause) : other = fault := by
  generalize ht : cause = words at h'
  cases h <;> cases h' <;> simp [← String.toList_inj, String.toList_append] at ht ⊢
  case notSequence.notSequence kind found =>
    exact Kind.name_injective (String.toList_inj.mp ht.symm)
  case outOfRange.outOfRange index length hindex found size hfound =>
    obtain rfl := Option.some.inj (hindex.symm.trans hfound)
    have hdigits : Nat.toDigits 10 length = Nat.toDigits 10 size := by simpa using ht
    refine ⟨rfl, ?_⟩
    rw [← Nat.ofDigitChars_ten_toDigits (n := size), ← hdigits, Nat.ofDigitChars_ten_toDigits]
  case notMapping.notMapping kind found =>
    exact Kind.name_injective (String.toList_inj.mp ht.symm)

namespace Resolution

/-- Segments that all land on mappings, and the mapping where they end. -/
inductive Descends : Mapping → List Segment → Mapping → Prop where
  | here (current : Mapping) : Descends current [] current
  | through {current inner last : Mapping} {segment : Segment} {rest : List Segment} :
      Leads current segment (.mapping inner) → Descends inner rest last →
      Descends current (segment :: rest) last

/-- Why a walk stops at a segment that has `rest` behind it. Each cause has a fault of its own, so
two of them would be two faults. -/
inductive Stops (current : Mapping) (segment : Segment) (rest : List Segment) :
    PathFault → Prop where
  | absent : Mapping.get? current segment.name = none →
      Stops current segment rest (.fieldNotFound segment.name)
  | notSequence {name : String} {index : UInt64} {field : Value} :
      segment = .indexed name index → Mapping.get? current name = some field →
      field.kind ≠ .sequence → Stops current segment rest (.notSequence name field.kind)
  | outOfRange {name : String} {index : UInt64} {items : List Value} :
      segment = .indexed name index → Mapping.get? current name = some (.sequence items) →
      items.length ≤ index.toNat →
      Stops current segment rest (.indexOutOfRange index name items.length)
  | null : Leads current segment .null → Stops current segment rest (.nullValue segment)
  | notMapping {value : Value} : Leads current segment value → value ≠ .null →
      value.kind ≠ .mapping → rest ≠ [] →
      Stops current segment rest (.notMapping segment value.kind)

/-- The segments in front of number `k` land on mappings, and number `k` is where the walk stops. -/
def StopsAt (root : Mapping) (segments : List Segment) (k : Nat) (fault : PathFault) : Prop :=
  ∃ current segment, Descends root (segments.take k) current ∧ segments[k]? = some segment ∧
    Stops current segment (segments.drop (k + 1)) fault

section

variable {current inner : Mapping} {segment : Segment} {rest : List Segment} {fault : PathFault}

/-! ## One segment -/

theorem step_absent (h : Mapping.get? current segment.name = none) :
    step current segment = .error (.fieldNotFound segment.name) := by
  cases segment with
  | field name =>
    change Mapping.get? current name = none at h
    rw [step_field, h]
    rfl
  | indexed name index =>
    change Mapping.get? current name = none at h
    rw [step_indexed, h]
    rfl

theorem step_null (h : Leads current segment .null) :
    step current segment = .error (.nullValue segment) := by
  cases h with
  | field hfield =>
    rw [step_field, hfield]
    rfl
  | element hfield hitem =>
    simp only [step_indexed, hfield, hitem]
    rfl

/-- The first four causes are errors of the step, the last one is an error behind it. -/
theorem Stops.step (h : Stops current segment rest fault) :
    step current segment = .error fault ∨
      ∃ value, step current segment = .ok value ∧ value.kind ≠ .mapping ∧ rest ≠ [] ∧
        fault = .notMapping segment value.kind := by
  cases h with
  | absent hfield => exact Or.inl (step_absent hfield)
  | @notSequence name index field hsegment hfield hkind =>
    subst hsegment
    rw [step_indexed, hfield]
    cases field with
    | sequence items => exact absurd rfl hkind
    | _ => exact Or.inl rfl
  | outOfRange hsegment hfield hlength =>
    subst hsegment
    simp only [step_indexed, hfield, List.getElem?_eq_none hlength]
    exact Or.inl trivial
  | null hleads => exact Or.inl (step_null hleads)
  | @notMapping value hleads hnull hkind hrest =>
    exact Or.inr ⟨value, (step_ok_iff _ _ _).mpr ⟨hleads, hnull⟩, hkind, hrest, rfl⟩

theorem walk_of_step_error (h : step current segment = .error fault) (rest : List Segment) :
    walk current (segment :: rest) = .error fault := by
  cases rest with
  | nil => exact h
  | cons next rest => rw [walk_cons_cons, h]

theorem Stops.walk (h : Stops current segment rest fault) :
    walk current (segment :: rest) = .error fault := by
  rcases h.step with hstep | ⟨value, hstep, hkind, hrest, rfl⟩
  · exact walk_of_step_error hstep rest
  · obtain ⟨next, others, rfl⟩ := List.exists_cons_of_ne_nil hrest
    rw [walk_cons_cons, hstep]
    cases value with
    | mapping inner => exact absurd rfl hkind
    | _ => rfl

theorem Stops.unique {other : PathFault} (h : Stops current segment rest fault)
    (h' : Stops current segment rest other) : other = fault :=
  Except.error.inj (h'.walk.symm.trans h.walk)

theorem Stops.explained (h : Stops current segment rest fault) :
    ∃ cause, segment.Explains fault cause := by
  cases h with
  | absent _ => exact ⟨_, .absent⟩
  | @notSequence name index field hsegment _ _ =>
    subst hsegment
    exact ⟨_, Segment.Explains.notSequence field.kind⟩
  | @outOfRange name index items hsegment _ _ =>
    subst hsegment
    exact ⟨_, Segment.Explains.outOfRange items.length rfl⟩
  | null _ => exact ⟨_, .null⟩
  | notMapping _ _ _ _ => exact ⟨_, .notMapping _⟩

theorem Stops.not_mapping (h : Stops current segment rest fault) :
    ¬ Leads current segment (.mapping inner) := by
  intro hleads
  have hmapping := (step_ok_iff _ _ _).mpr ⟨hleads, Value.noConfusion⟩
  rcases h.step with hstep | ⟨value, hstep, hkind, -, -⟩
  · rw [hmapping] at hstep
    cases hstep
  · rw [hmapping] at hstep
    cases hstep
    exact hkind rfl

theorem Stops.followed {others : List Segment} (h : Stops current segment rest fault)
    (hothers : others = [] → ∀ s kind, fault ≠ .notMapping s kind) :
    Stops current segment others fault := by
  cases h with
  | absent hfield => exact .absent hfield
  | notSequence hsegment hfield hkind => exact .notSequence hsegment hfield hkind
  | outOfRange hsegment hfield hlength => exact .outOfRange hsegment hfield hlength
  | null hleads => exact .null hleads
  | notMapping hleads hnull hkind _ =>
    exact .notMapping hleads hnull hkind fun hnil => hothers hnil _ _ rfl

theorem leads_or_stops (current : Mapping) (segment : Segment) (rest : List Segment) :
    (∃ value, Leads current segment value ∧ value ≠ .null) ∨
      ∃ fault, Stops current segment rest fault := by
  have hland : ∀ value, Leads current segment value →
      (∃ value, Leads current segment value ∧ value ≠ .null) ∨
        ∃ fault, Stops current segment rest fault := by
    intro value hleads
    by_cases hnull : value = .null
    · subst hnull
      exact Or.inr ⟨_, .null hleads⟩
    · exact Or.inl ⟨value, hleads, hnull⟩
  cases hfield : Mapping.get? current segment.name with
  | none => exact Or.inr ⟨_, .absent hfield⟩
  | some field =>
    cases segment with
    | field name => exact hland field (.field hfield)
    | indexed name index =>
      by_cases hkind : field.kind = .sequence
      · cases field with
        | sequence items =>
          cases hitem : items[index.toNat]? with
          | none =>
            exact Or.inr ⟨_, .outOfRange rfl hfield (List.getElem?_eq_none_iff.mp hitem)⟩
          | some value => exact hland value (.element hfield hitem)
        | _ => cases hkind
      · exact Or.inr ⟨_, .notSequence rfl hfield hkind⟩

/-! ## The whole path -/

theorem stopsAt_zero :
    StopsAt current (segment :: rest) 0 fault ↔ Stops current segment rest fault := by
  constructor
  · rintro ⟨last, found, hdescends, hfound, hstops⟩
    cases hdescends
    cases hfound
    exact hstops
  · intro h
    exact ⟨current, segment, .here current, rfl, h⟩

theorem stopsAt_succ {k : Nat} :
    StopsAt current (segment :: rest) (k + 1) fault ↔
      ∃ inner, Leads current segment (.mapping inner) ∧ StopsAt inner rest k fault := by
  constructor
  · rintro ⟨last, found, hdescends, hfound, hstops⟩
    cases hdescends with
    | through hleads hrest => exact ⟨_, hleads, last, found, hrest, hfound, hstops⟩
  · rintro ⟨inner, hleads, last, found, hdescends, hfound, hstops⟩
    exact ⟨last, found, .through hleads hdescends, hfound, hstops⟩

theorem StopsAt.ne_nil {root : Mapping} {segments : List Segment} {k : Nat}
    (h : StopsAt root segments k fault) : segments ≠ [] := by
  rintro rfl
  obtain ⟨_, _, _, hfound, _⟩ := h
  cases hfound

theorem StopsAt.walk {root : Mapping} {segments : List Segment} {k : Nat}
    (h : StopsAt root segments k fault) : walk root segments = .error fault := by
  induction segments generalizing root k with
  | nil => exact absurd rfl h.ne_nil
  | cons segment rest ih =>
    cases k with
    | zero => exact (stopsAt_zero.mp h).walk
    | succ k =>
      obtain ⟨inner, hleads, hrest⟩ := stopsAt_succ.mp h
      obtain ⟨next, others, rfl⟩ := List.exists_cons_of_ne_nil hrest.ne_nil
      rw [walk_cons_cons, (step_ok_iff _ _ _).mpr ⟨hleads, Value.noConfusion⟩]
      exact ih hrest

theorem Leads.unique {value other : Value} (h : Leads current segment value)
    (h' : Leads current segment other) : value = other := by
  cases h with
  | field hfield =>
    cases h' with
    | field hfield' => exact Option.some.inj (hfield.symm.trans hfield')
  | element hfield hitem =>
    cases h' with
    | element hfield' hitem' =>
      have hitems := Value.sequence.inj (Option.some.inj (hfield.symm.trans hfield'))
      rw [← hitems] at hitem'
      exact Option.some.inj (hitem.symm.trans hitem')

theorem StopsAt.unique {root : Mapping} {segments : List Segment} {j k : Nat} {other : PathFault}
    (h : StopsAt root segments k fault) (h' : StopsAt root segments j other) :
    j = k ∧ other = fault := by
  induction segments generalizing root j k with
  | nil => exact absurd rfl h.ne_nil
  | cons segment rest ih =>
    cases k with
    | zero =>
      have hhere := stopsAt_zero.mp h
      cases j with
      | zero => exact ⟨rfl, hhere.unique (stopsAt_zero.mp h')⟩
      | succ j =>
        obtain ⟨inner, hleads, -⟩ := stopsAt_succ.mp h'
        exact absurd hleads hhere.not_mapping
    | succ k =>
      obtain ⟨inner, hleads, hrest⟩ := stopsAt_succ.mp h
      cases j with
      | zero => exact absurd hleads (stopsAt_zero.mp h').not_mapping
      | succ j =>
        obtain ⟨inner', hleads', hrest'⟩ := stopsAt_succ.mp h'
        have hinner := Value.mapping.inj (hleads.unique hleads')
        subst hinner
        obtain ⟨rfl, hfault⟩ := ih hrest hrest'
        exact ⟨rfl, hfault⟩

theorem StopsAt.explained {root : Mapping} {segments : List Segment} {k : Nat}
    (h : StopsAt root segments k fault) :
    ∃ segment cause, segments[k]? = some segment ∧ segment.Explains fault cause := by
  obtain ⟨_, segment, -, hsegment, hstops⟩ := h
  obtain ⟨cause, hcause⟩ := hstops.explained
  exact ⟨segment, cause, hsegment, hcause⟩

theorem stopsAt_of_error {root : Mapping} {segments : List Segment} (hne : segments ≠ [])
    (h : walk root segments = .error fault) : ∃ k, StopsAt root segments k fault := by
  induction segments generalizing root with
  | nil => exact absurd rfl hne
  | cons segment rest ih =>
    rcases leads_or_stops root segment rest with ⟨value, hleads, hnull⟩ | ⟨other, hstops⟩
    · have hstep := (step_ok_iff _ _ _).mpr ⟨hleads, hnull⟩
      cases rest with
      | nil =>
        have hwalk : Resolution.walk root [segment] = .ok value := hstep
        rw [hwalk] at h
        cases h
      | cons next others =>
        by_cases hkind : value.kind = .mapping
        · cases value with
          | mapping inner =>
            rw [walk_cons_cons, hstep] at h
            obtain ⟨k, hk⟩ := ih (List.cons_ne_nil _ _) h
            exact ⟨k + 1, stopsAt_succ.mpr ⟨inner, hleads, hk⟩⟩
          | _ => cases hkind
        · have hstops : Stops root segment (next :: others) (.notMapping segment value.kind) :=
            .notMapping hleads hnull hkind (List.cons_ne_nil _ _)
          rw [hstops.walk] at h
          cases h
          exact ⟨0, stopsAt_zero.mpr hstops⟩
    · rw [hstops.walk] at h
      cases h
      exact ⟨0, stopsAt_zero.mpr hstops⟩

theorem StopsAt.followed {root : Mapping} {segments others : List Segment} {k : Nat}
    (h : StopsAt root segments k fault)
    (hothers : others = [] → ∀ s kind, fault ≠ .notMapping s kind) :
    StopsAt root (segments.take (k + 1) ++ others) k fault := by
  induction segments generalizing root k with
  | nil => exact absurd rfl h.ne_nil
  | cons segment rest ih =>
    cases k with
    | zero => exact stopsAt_zero.mpr ((stopsAt_zero.mp h).followed hothers)
    | succ k =>
      obtain ⟨inner, hleads, hrest⟩ := stopsAt_succ.mp h
      exact stopsAt_succ.mpr ⟨inner, hleads, ih hrest⟩

end

/-- A path that does not resolve stops at exactly one of its segments, for exactly one cause, and
the message of the error spells this cause out, in words that fit no other cause. Another path with
the same segments up to there has the same error. -/
theorem failure_has_one_cause {o : Options} (h : o.throwOnMissing = true) (d : Document)
    {text : String} (htext : text ≠ "") {p : Path} (hp : Path.parse text = .ok p)
    (hfail : ∀ value, resolve o d text ≠ .ok (some value)) :
    ∃ k segment fault cause, StopsAt d.root p.segments k fault ∧
      (∀ j other, StopsAt d.root p.segments j other → j = k ∧ other = fault) ∧
      p.segments[k]? = some segment ∧ segment.Explains fault cause ∧
      (∀ other, segment.Explains other cause → other = fault) ∧
      resolve o d text = .error (.invalidPath (some text) fault) ∧
      (Error.invalidPath (some text) fault).message =
        "Invalid path '" ++ text ++ "': " ++ cause ∧
      ∀ (longer : String) (others : List Segment), longer ≠ "" →
        Path.Spelled (p.segments.take (k + 1) ++ others) longer.toList →
        (others = [] → ∀ s kind, fault ≠ .notMapping s kind) →
        resolve o d longer = .error (.invalidPath (some longer) fault) ∧
          (Error.invalidPath (some longer) fault).message =
            "Invalid path '" ++ longer ++ "': " ++ cause := by
  obtain ⟨hne, hspelled⟩ := Path.parse_spelled htext hp
  have hanswer := resolve_answer h d htext hne hspelled
  cases hwalk : walk d.root p.segments with
  | ok value =>
    rw [hwalk] at hanswer
    exact absurd hanswer (hfail value)
  | error fault =>
    rw [hwalk] at hanswer
    obtain ⟨k, hk⟩ := stopsAt_of_error hne hwalk
    obtain ⟨segment, cause, hsegment, hcause⟩ := hk.explained
    refine ⟨k, segment, fault, cause, hk, fun j other hj => hk.unique hj, hsegment, hcause,
      fun other hother => hcause.unique hother, hanswer, hcause.message_eq text, ?_⟩
    intro longer others hlonger hlspelled hothers
    have hlstops := hk.followed hothers
    refine ⟨?_, hcause.message_eq longer⟩
    rw [resolve_answer h d hlonger hlstops.ne_nil hlspelled, hlstops.walk]
    rfl

/-- The walk stops at a number, whether an element or an empty name is looked for below it. -/
theorem stopped_at_number :
    let d : Document := ⟨"", [("hosts", .sequence [.null, .mapping [("port", .integer 587)]])]⟩
    let fault : PathFault := .notMapping (.field "port") .integer
    ({} : Options).throwOnMissing = true ∧
    Path.parse "hosts[1].port.name[0]" = .ok ⟨"hosts[1].port.name[0]",
      [.indexed "hosts" 1, .field "port", .indexed "name" 0]⟩ ∧
    resolve {} d "hosts[1].port.name[0]" =
      .error (.invalidPath (some "hosts[1].port.name[0]") fault) ∧
    resolve {} d "hosts[1].port." = .error (.invalidPath (some "hosts[1].port.") fault) ∧
    (Error.invalidPath (some "hosts[1].port.") fault).message =
      "Invalid path 'hosts[1].port.': cannot descend below 'port': value is of kind integer" := by
  intro d fault
  have hparse : Path.parse "hosts[1].port.name[0]" = .ok ⟨"hosts[1].port.name[0]",
      [.indexed "hosts" 1, .field "port", .indexed "name" 0]⟩ := by decide +kernel
  have hlonger : Path.parse "hosts[1].port." = .ok ⟨"hosts[1].port.",
      [.indexed "hosts" 1, .field "port", .field ""]⟩ := by decide +kernel
  have hleads : Leads [("port", .integer 587)] (.field "port") (.integer 587) := .field rfl
  have hport : Stops [("port", .integer 587)] (.field "port") [.indexed "name" 0] fault :=
    .notMapping hleads Value.noConfusion Kind.noConfusion (List.cons_ne_nil _ _)
  have hnumber : StopsAt d.root [.indexed "hosts" 1, .field "port", .indexed "name" 0] 1 fault :=
    stopsAt_succ.mpr ⟨_, .element rfl rfl, stopsAt_zero.mpr hport⟩
  have hfail : ∀ value, resolve {} d "hosts[1].port.name[0]" ≠ .ok (some value) := by
    intro value hvalue
    rw [resolve_answer rfl d (by simp) (by simp) (Path.parse_spelled (by simp) hparse).2,
      hnumber.walk] at hvalue
    cases hvalue
  obtain ⟨k, segment, other, cause, -, hunique, hsegment, hcause, -, herror, -, hsame⟩ :=
    failure_has_one_cause rfl d (by simp) hparse hfail
  obtain ⟨rfl, rfl⟩ := hunique _ _ hnumber
  obtain ⟨hshort, hmessage⟩ := hsame "hosts[1].port." [.field ""] (by simp)
    (Path.parse_spelled (by simp) hlonger).2 (by simp)
  refine ⟨rfl, hparse, herror, hshort, ?_⟩
  cases hsegment
  change Segment.Explains (.field "port") (.notMapping (.field "port") .integer) cause at hcause
  cases hcause
  exact hmessage

end Resolution

end DocQuery
