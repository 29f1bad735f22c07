import DocQuery.Query

/-! # What a query comes down to

Every query but that of a path read before resolves the text of its place and then deals with the
value by what is wanted. It writes the lines of resolving that text. -/

namespace DocQuery

/-- The path of such a place is what reading its source gives. -/
def Place.Read : Place → Prop
  | parsed p => Path.parse p.source = .ok p
  | _ => True

theorem Wanted.answer_value (path : String) (r : Except Error (Option Value)) :
    (r >>= Wanted.answer path .value) = r := by
  cases r with
  | error e => rfl
  | ok found => cases found <;> rfl

namespace Query

open Resolution

variable (o : Options) (d : Document)

theorem runLogged_text {q : Query} {path : String} (h : q.place.text = .ok path)
    (hq : ∀ p, q ≠ ⟨.parsed p, .value⟩) :
    q.runLogged o d = (resolveLogged o d path).map (· >>= q.wanted.answer path) := by
  unfold runLogged
  split
  · next p hplace hw => exact absurd (by rw [← hplace, ← hw]) (hq p)
  · simp only [h]

theorem runLogged_refused {q : Query} {e : Error} (h : q.place.text = .error e) :
    q.runLogged o d = ⟨.error e, []⟩ := by
  unfold runLogged
  split
  · next p hplace _ =>
    rw [hplace] at h
    cases h
  · simp only [h]

theorem run_text {q : Query} {path : String} (h : q.place.text = .ok path)
    (hq : ∀ p, q ≠ ⟨.parsed p, .value⟩) : q.run o d = resolve o d path >>= q.wanted.answer path :=
  congrArg Logged.result (runLogged_text o d h hq)

theorem run_refused {q : Query} {e : Error} (h : q.place.text = .error e) : q.run o d = .error e :=
  congrArg Logged.result (runLogged_refused o d h)

theorem not_missing_of_refused {place : Place} {e : Error} (h : place.text = .error e) :
    e.isMissing = false := by
  cases place with
  | path text => cases h
  | parsed p => cases h
  | template t arguments =>
    cases arguments with
    | nil =>
      cases h
      rfl
    | cons first rest => cases h

theorem run_read {q : Query} {path : String} (h : q.place.text = .ok path) (hread : q.place.Read) :
    q.run o d = resolve o d path >>= q.wanted.answer path := by
  by_cases hq : ∃ p, q = ⟨.parsed p, .value⟩
  · obtain ⟨p, rfl⟩ := hq
    cases h
    have hp : resolve o d p.source = resolvePath o d p := resolve_parsed o d hread
    rw [hp, Wanted.answer_value]
    rfl
  · exact run_text o d h (fun p hp => hq ⟨p, hp⟩)

end Query

end DocQuery
