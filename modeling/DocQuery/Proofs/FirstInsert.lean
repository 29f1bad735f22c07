import DocQuery.Proofs.BuildRules
import Mathlib.Data.Finset.Card
import Mathlib.Data.List.Nodup

/-! # The first insert wins

The lookup of a build and its insert are separated by a load that may itself build the same key.
The table still only grows, holds each key once, and every build that succeeds, however deeply
nested, returns what the table holds under its key from then on. -/

namespace DocQuery.Cache

variable {c : Settings} {l : Loader} {depth : Nat}

/-- Every key stands once in the table, and the instances are numbered in their order. -/
structure Sound (s : State) : Prop where
  keys : (s.entries.map Prod.fst).Nodup
  numbers : s.entries.map (fun e => e.2.number) = List.range s.entries.length

theorem sound_empty : Sound {} := ⟨List.nodup_nil, rfl⟩

theorem get_mem {s : State} {key : String} {i : Instance} (h : s.get? key = some i) :
    (key, i) ∈ s.entries := by
  obtain ⟨front, back, he, -⟩ := List.lookup_eq_some_iff.mp h
  rw [he]
  exact List.mem_append_right _ List.mem_cons_self

theorem get_none_iff (s : State) (key : String) :
    s.get? key = none ↔ key ∉ s.entries.map Prod.fst := by
  rw [State.get?, List.lookup_eq_none_iff]
  simp only [List.mem_map, not_exists, not_and, bne_iff_ne]
  exact forall_congr' fun e => ⟨fun h he hk => h he hk.symm, fun h he hk => h he hk.symm⟩

theorem Sound.of_entries {s t : State} (h : Sound s) (he : t.entries = s.entries) : Sound t := by
  constructor
  · rw [he]
    exact h.keys
  · rw [he]
    exact h.numbers

theorem Sound.store {s : State} (h : Sound s) {key : String} (d : Document)
    (hk : s.get? key = none) : Sound (s.store key d).1 := by
  constructor
  case keys =>
    change ((s.entries ++ [(key, _)]).map Prod.fst).Nodup
    rw [List.map_append]
    refine List.nodup_append.mpr ⟨h.keys, List.nodup_singleton _, ?_⟩
    intro a ha b hb
    rw [List.mem_singleton.mp hb]
    rintro rfl
    exact (get_none_iff s _).mp hk ha
  case numbers =>
    change (s.entries ++ [(key, (⟨s.entries.length, d⟩ : Instance))]).map _ = _
    rw [List.map_append, h.numbers]
    change _ = List.range (s.entries ++ [_]).length
    rw [List.length_append, List.length_singleton, List.range_succ]
    rfl

theorem Sound.conclude {s t : State} (h : Sound s) {key : String}
    {loaded : Except LoadFault Value} {result : Except Error Instance}
    (hc : s.conclude key loaded = (t, result)) : Sound t := by
  rcases conclude_cases hc with ⟨_, _, _, rfl⟩ | ⟨_, _, _, _, _, _, _, rfl⟩ |
    ⟨_, document, _, _, hk, -, rfl⟩
  · exact h.of_entries rfl
  · exact h.of_entries rfl
  · exact (h.store document hk).of_entries rfl

theorem carried_sound : Carried c l fun s _ t => Sound s → Sound t where
  nil := fun _ hs => hs
  append := fun hcalls hmore hs => hmore (hcalls hs)
  refused := fun _ hs => hs
  found := fun _ _ hs => hs.of_entries rfl
  loaded := fun _ _ _ hinner hc hs => (hinner (hs.of_entries rfl)).conclude hc

/-- From `s` to `t` the cache only grows, and so it does through each of the builds between. -/
structure Advances (s : State) (calls : List Call) (t : State) : Prop where
  grows : s.Grows t
  calls_grow : ∀ call ∈ calls, call.before.Grows call.after ∧ call.after.Grows t

theorem carried_advances : Carried c l Advances where
  nil := by
    intro s
    refine ⟨.refl s, ?_⟩
    intro call hcall
    cases hcall
  append := by
    intro s calls t more u h hmore
    refine ⟨h.grows.trans hmore.grows, ?_⟩
    intro call hcall
    rcases List.mem_append.mp hcall with hcall | hcall
    · exact (h.calls_grow call hcall).imp_right fun hafter => hafter.trans hmore.grows
    · exact hmore.calls_grow call hcall
  refused := by
    intro s name e _
    refine ⟨.refl s, ?_⟩
    intro call hcall
    rw [List.mem_singleton.mp hcall]
    exact ⟨.refl s, .refl s⟩
  found := by
    intro s name key i _ _
    refine ⟨grows_record s _, ?_⟩
    intro call hcall
    rw [List.mem_singleton.mp hcall]
    exact ⟨grows_record s _, .refl _⟩
  loaded := by
    intro s t u name key inner loaded result _ _ _ hinner hc
    have hgrows : s.Grows u := ((grows_call s key).trans hinner.grows).trans (grows_conclude hc)
    refine ⟨hgrows, ?_⟩
    intro call hcall
    rcases List.mem_append.mp hcall with hcall | hcall
    · exact (hinner.calls_grow call hcall).imp_right fun hafter => hafter.trans (grows_conclude hc)
    · rw [List.mem_singleton.mp hcall]
      exact ⟨hgrows, .refl u⟩

theorem conclude_ok {s t : State} {key : String} {loaded : Except LoadFault Value} {i : Instance}
    (h : s.conclude key loaded = (t, .ok i)) : t.get? key = some i := by
  rcases conclude_cases h with ⟨_, he, _⟩ | ⟨_, _, first, _, _, hf, he, rfl⟩ |
    ⟨_, document, _, _, hk, he, rfl⟩
  · cases he
  · cases he; exact hf
  · cases he
    rw [get_record, get_store s document hk, if_pos rfl]

theorem conclude_new {s t : State} {key k : String} {loaded : Except LoadFault Value}
    {result : Except Error Instance} {i : Instance} (h : s.conclude key loaded = (t, result))
    (hi : t.get? k = some i) : s.get? k = some i ∨ k = key ∧ result = .ok i ∧
      ∃ root, loaded = .ok root ∧ Document.ofValue key root = .ok i.document := by
  rcases conclude_cases h with ⟨_, _, _, rfl⟩ | ⟨_, _, _, _, _, _, _, rfl⟩ |
    ⟨root, document, hload, hd, hk, he, rfl⟩
  · exact Or.inl hi
  · exact Or.inl hi
  · rw [get_record, get_store s document hk] at hi
    split at hi
    · next hkey =>
      cases hi
      exact Or.inr ⟨hkey, he, root, hload, hd⟩
    · exact Or.inl hi

theorem Builds.result {s t : State} {name : String} {calls : List Call} {i : Instance}
    (h : Builds c l s name calls t (.ok i)) : ∃ key, c.key name = .ok key ∧ t.get? key = some i := by
  cases h with
  | found hk hi => exact ⟨_, hk, hi⟩
  | loaded hk _ _ hc => exact ⟨_, hk, conclude_ok hc⟩

/-- The loader, called by this build for the key, has returned the root. -/
def Call.Receives (c : Settings) (l : Loader) (call : Call) (key : String) (root : Value) : Prop :=
  c.key call.name = .ok key ∧ call.before.get? key = none ∧
    ∃ inner t, Loads c l (call.before.call key) (call.before.load l key) inner t (.ok root)

structure Stores (c : Settings) (l : Loader) (key : String) (i : Instance) (call : Call) :
    Prop where
  result : call.result = .ok i
  made : ∃ root, call.Receives c l key root ∧ Document.ofValue key root = .ok i.document

/-- What is new in the table was put there by one of the builds between. -/
theorem carried_stores : Carried c l fun s calls t => ∀ key i, t.get? key = some i →
    s.get? key = some i ∨ ∃ call ∈ calls, Stores c l key i call where
  nil := fun _ _ _ hi => Or.inl hi
  append := by
    intro s calls t more u hcalls hmore key i hi
    rcases hmore key i hi with ht | ⟨call, hcall, hstores⟩
    · rcases hcalls key i ht with hs | ⟨call, hcall, hstores⟩
      · exact Or.inl hs
      · exact Or.inr ⟨call, List.mem_append_left _ hcall, hstores⟩
    · exact Or.inr ⟨call, List.mem_append_right _ hcall, hstores⟩
  refused := fun _ _ _ hi => Or.inl hi
  found := fun _ _ _ _ hi => Or.inl hi
  loaded := by
    intro s t u name key inner loaded result hk hn hl hinner hc k i hi
    rcases conclude_new hc hi with ht | ⟨rfl, hres, root, rfl, hd⟩
    · rcases hinner k i ht with hs | ⟨call, hcall, hstores⟩
      · exact Or.inl hs
      · exact Or.inr ⟨call, List.mem_append_left _ hcall, hstores⟩
    · refine Or.inr ⟨_, List.mem_append_right _ (List.mem_singleton.mpr rfl), hres, root, ?_, hd⟩
      exact ⟨hk, hn, inner, t, hl⟩

theorem run_advances {s t : State} {requests : List Request} {replies : List Reply}
    (h : run c l depth s requests = some (t, replies)) : s.Grows t := by
  obtain ⟨calls, hcourse⟩ := run_course h
  exact (carried_advances.run hcourse).grows

theorem TakesPlace.grows {s t : State} {requests : List Request} {replies : List Reply}
    {call : Call} (h : TakesPlace c l s requests call)
    (hr : run c l depth s requests = some (t, replies)) :
    call.before.Grows call.after ∧ call.after.Grows t := by
  obtain ⟨calls, u, hcourse, hcall⟩ := h
  obtain ⟨_, hrun⟩ := run_course hr
  obtain rfl := hcourse.unique hrun
  exact (carried_advances.run hcourse).calls_grow call hcall

theorem run_stores {s : State} {requests : List Request} {replies : List Reply} {key : String}
    {i : Instance} (h : run c l depth {} requests = some (s, replies)) (hi : s.get? key = some i) :
    ∃ call, TakesPlace c l {} requests call ∧ Stores c l key i call := by
  obtain ⟨calls, hcourse⟩ := run_course h
  rcases carried_stores.run hcourse key i hi with hn | ⟨call, hcall, hstores⟩
  · cases hn
  · exact ⟨call, ⟨calls, s, hcourse, hcall⟩, hstores⟩

/-- The document holds what the loader returned for the key in one of the run's builds; null stands
for the empty mapping. -/
def LoadedAs (c : Settings) (l : Loader) (requests : List Request) (key : String)
    (d : Document) : Prop :=
  d.key = key ∧ ∃ call root, TakesPlace c l {} requests call ∧ call.Receives c l key root ∧
    (root = .mapping d.root ∨ root = .null ∧ d.root = [])

/-- In the course of a run some build, at any depth, found nothing under the key and left a
document there. -/
def Inserted (c : Settings) (l : Loader) (requests : List Request) (key : String) : Prop :=
  ∃ call, TakesPlace c l {} requests call ∧ c.key call.name = .ok key ∧
    call.before.get? key = none ∧ ∃ i, call.after.get? key = some i

theorem TakesPlace.result {s : State} {requests : List Request} {replies : List Reply}
    (h : run c l depth {} requests = some (s, replies)) {call : Call} {key : String} {i : Instance}
    (hcall : TakesPlace c l {} requests call) (hkey : c.key call.name = .ok key)
    (hres : call.result = .ok i) : call.after.get? key = some i ∧ s.get? key = some i := by
  obtain ⟨inner, hb⟩ := hcall.builds
  rw [hres] at hb
  obtain ⟨k, hk, hi⟩ := hb.result
  obtain rfl : k = key := Except.ok.inj (hk.symm.trans hkey)
  exact ⟨hi, (hcall.grows h).2.get hi⟩

theorem inserted_iff {s : State} {requests : List Request} {replies : List Reply}
    (h : run c l depth {} requests = some (s, replies)) (key : String) :
    Inserted c l requests key ↔ ∃ i, s.get? key = some i := by
  constructor
  · rintro ⟨call, hcall, -, -, i, hi⟩
    exact ⟨i, (hcall.grows h).2.get hi⟩
  · rintro ⟨i, hi⟩
    obtain ⟨call, hcall, hres, root, ⟨hkey, hbefore, -⟩, -⟩ := run_stores h hi
    exact ⟨call, hcall, hkey, hbefore, i, (hcall.result h hkey hres).1⟩

theorem run_answered {s t : State} {requests : List Request} {replies : List Reply}
    (h : run c l depth s requests = some (t, replies)) :
    List.Forall₂ (fun r reply => ∀ name i, r = .build name → reply = .document i →
      ∃ key, c.key name = .ok key ∧ t.get? key = some i) requests replies := by
  induction requests generalizing s replies with
  | nil => cases h; exact .nil
  | cons r rest ih =>
    obtain ⟨u, reply, given, hp, hr, rfl⟩ := run_cons.mp h
    refine .cons ?_ (ih hr)
    rintro name i rfl rfl
    rcases answer_cases hp with ⟨_, result, he, hb, hreply⟩ | ⟨hreply, -⟩
    · cases he
      cases result with
      | error e => cases hreply
      | ok j =>
        cases hreply
        obtain ⟨calls, hbuilds⟩ := build_builds hb
        obtain ⟨key, hk, hi⟩ := hbuilds.result
        exact ⟨key, hk, (run_advances hr).get hi⟩
    · cases hreply

/-- The state of the cache after a run from the empty cache, and what the run has answered. -/
structure FirstInsertWins (c : Settings) (l : Loader) (requests : List Request) (s : State)
    (replies : List Reply) : Prop where
  once : (s.entries.map Prod.fst).Nodup
  kept : ∀ call, TakesPlace c l {} requests call →
    call.before.entries <+: call.after.entries ∧ call.after.entries <+: s.entries
  one_instance : ∀ call key i, TakesPlace c l {} requests call →
    c.key call.name = .ok key → call.result = .ok i → s.get? key = some i
  answered : List.Forall₂ (fun r reply => ∀ name i, r = .build name → reply = .document i →
    ∃ key, c.key name = .ok key ∧ s.get? key = some i) requests replies
  distinct : ∀ key other i j, s.get? key = some i → s.get? other = some j → key ≠ other →
    i.number ≠ j.number
  origin : ∀ key i, s.get? key = some i → LoadedAs c l requests key i.document
  has_iff : ∀ name, has c s name = true ↔
    ∃ key, c.key name = .ok key ∧ Inserted c l requests key
  size_eq : ∃ keys : Finset String,
    (∀ key, key ∈ keys ↔ Inserted c l requests key) ∧ s.size = keys.card

theorem run_first_insert {s : State} {requests : List Request} {replies : List Reply}
    (h : run c l depth {} requests = some (s, replies)) :
    FirstInsertWins c l requests s replies := by
  obtain ⟨calls, hcourse⟩ := run_course h
  have hs := carried_sound.run hcourse sound_empty
  constructor
  case once => exact hs.keys
  case kept =>
    intro call hcall
    exact ⟨(hcall.grows h).1.entries, (hcall.grows h).2.entries⟩
  case one_instance =>
    intro call key i hcall hkey hres
    exact (hcall.result h hkey hres).2
  case answered => exact run_answered h
  case distinct =>
    intro key other i j hi hj hne hnum
    have hnodup : (s.entries.map fun e => e.2.number).Nodup := by
      rw [hs.numbers]; exact List.nodup_range
    have he := List.inj_on_of_nodup_map hnodup (get_mem hi) (get_mem hj) hnum
    exact hne (Prod.mk.inj he).1
  case origin =>
    intro key i hi
    obtain ⟨call, hcall, -, root, hreceives, hd⟩ := run_stores h hi
    obtain ⟨hkey, hroot⟩ := Document.ofValue_ok hd
    exact ⟨hkey, call, root, hcall, hreceives, hroot⟩
  case has_iff =>
    intro name
    unfold has
    cases hk : c.key name with
    | error e => simp
    | ok key =>
      simp only [Option.isSome_iff_exists, Except.ok.injEq, exists_eq_left']
      exact (inserted_iff h key).symm
  case size_eq =>
    refine ⟨(s.entries.map Prod.fst).toFinset, ?_, ?_⟩
    · intro key
      rw [List.mem_toFinset, inserted_iff h, ← Option.isSome_iff_exists, ← Option.ne_none_iff_isSome,
        ne_eq, get_none_iff, not_not]
    · rw [List.toFinset_card_of_nodup hs.keys, List.length_map]
      rfl

/-- In every run, and at every moment of it, the first insert under a key is the one that counts. -/
theorem first_insert_wins {s : State} {requests : List Request} {replies : List Reply}
    (h : run c l depth {} requests = some (s, replies)) :
    FirstInsertWins c l requests s replies ∧
    ∀ earlier r later, requests = earlier ++ r :: later →
      ∃ u given reply more, run c l depth {} earlier = some (u, given) ∧
        FirstInsertWins c l earlier u given ∧ u.entries <+: s.entries ∧
        replies = given ++ reply :: more ∧
        (∀ name, r = .has name → reply = .flag (has c u name)) ∧
        (r = .size → reply = .size u.size) := by
  refine ⟨run_first_insert h, ?_⟩
  rintro earlier r later rfl
  obtain ⟨u, given, rest, hu, hrest, rfl⟩ := run_append.mp h
  obtain ⟨v, reply, more, hp, hmore, rfl⟩ := run_cons.mp hrest
  refine ⟨u, given, reply, more, hu, run_first_insert hu, (run_advances hrest).entries, rfl, ?_, ?_⟩
  · rintro name rfl; cases hp; rfl
  · rintro rfl; cases hp; rfl

/-- A loader that builds the key it is asked for before it returns, the first time. -/
def selfLoading : Loader := fun history _ =>
  if history.filterMap Event.load? = [] then .asks (.build "a") fun _ => .ends (.ok .null)
  else .ends (.ok (.mapping [("x", .null)]))

theorem overtaken_load_keeps_first :
    ∃ s replies, run {} selfLoading 2 {} [.build "a", .has "a.yml", .size] = some (s, replies) ∧
      FirstInsertWins {} selfLoading [.build "a", .has "a.yml", .size] s replies ∧
      s.get? "a.yml" = some ⟨0, ⟨"a.yml", [("x", .null)]⟩⟩ := by
  obtain ⟨s, replies, hrun, hfirst⟩ : ∃ s replies,
      run {} selfLoading 2 {} [.build "a", .has "a.yml", .size] = some (s, replies) ∧
        s.get? "a.yml" = some ⟨0, ⟨"a.yml", [("x", .null)]⟩⟩ := ⟨_, _, rfl, rfl⟩
  exact ⟨s, replies, hrun, (first_insert_wins hrun).1, hfirst⟩

end DocQuery.Cache
