import DocQuery.Proofs.FirstInsert

/-! # Failed builds

A build fails on a blank name, on a load that fails, and on a root that is neither a mapping nor
null. None of the three touches the table, so all that is new after a failed build comes from builds
that the loader made meanwhile, and nothing keeps the next build of the key from loading it again. -/

namespace DocQuery.Document

/-- The roots that a document can be made of. -/
def Fit (root : Value) : Prop := root.kind = .mapping ∨ root.kind = .null

theorem ofValue_fit (key : String) {root : Value} (h : Fit root) :
    ∃ d, ofValue key root = .ok d := by
  cases root with
  | mapping entries => exact ⟨_, rfl⟩
  | null => exact ⟨_, rfl⟩
  | _ => rcases h with h | h <;> cases h

theorem ofValue_unfit {key : String} {root : Value} (h : ¬ Fit root) :
    ofValue key root = .error (.invalidArgument (.rootNotMapping key root.kind)) := by
  cases root with
  | mapping entries => exact absurd (Or.inl rfl) h
  | null => exact absurd (Or.inr rfl) h
  | _ => rfl

end DocQuery.Document

namespace DocQuery.Cache

variable {c : Settings} {l : Loader} {depth : Nat}

inductive Unusable (key : String) : Except LoadFault Value → ArgumentFault → Prop where
  | failed (fault : LoadFault) : Unusable key (.error fault) (.loadFailed key fault)
  | unfit {root : Value} : ¬ Document.Fit root →
      Unusable key (.ok root) (.rootNotMapping key root.kind)

/-- The points at which a build of a name fails. -/
inductive Fails (c : Settings) (l : Loader) (s : State) (name : String) : ArgumentFault → Prop where
  | blank : Text.trim name.toList = [] → Fails c l s name .emptyDocumentName
  | load {key : String} {inner : List Call} {t : State} {loaded : Except LoadFault Value}
      {fault : ArgumentFault} : c.key name = .ok key → s.get? key = none →
      Loads c l (s.call key) (s.load l key) inner t loaded → Unusable key loaded fault →
      Fails c l s name fault

theorem settle_unusable (s : State) {key : String} {loaded : Except LoadFault Value}
    {fault : ArgumentFault} (h : Unusable key loaded fault) :
    s.settle key loaded = (s, .error (.invalidArgument fault)) := by
  cases h with
  | failed fault => rfl
  | unfit hroot => simp only [State.settle, Document.ofValue_unfit hroot]

theorem settle_fit (s : State) (key : String) {root : Value} (h : Document.Fit root) :
    ∃ i, (s.settle key (.ok root)).2 = .ok i := by
  obtain ⟨document, hd⟩ := Document.ofValue_fit key h
  simp only [State.settle, hd]
  split
  · exact ⟨_, rfl⟩
  · exact ⟨_, rfl⟩

theorem conclude_error_iff {s t : State} {key : String} {loaded : Except LoadFault Value}
    {result : Except Error Instance} (h : s.conclude key loaded = (t, result)) {e : Error} :
    result = .error e ↔ ∃ fault, e = .invalidArgument fault ∧ Unusable key loaded fault := by
  obtain rfl : (s.settle key loaded).2 = result := congrArg Prod.snd h
  constructor
  · intro he
    have hu : ∃ fault, Unusable key loaded fault := by
      cases loaded with
      | error fault => exact ⟨_, .failed fault⟩
      | ok root =>
        refine ⟨_, .unfit ?_⟩
        intro hroot
        obtain ⟨i, hi⟩ := settle_fit s key hroot
        rw [hi] at he
        cases he
    obtain ⟨fault, hfault⟩ := hu
    rw [settle_unusable s hfault] at he
    exact ⟨fault, (Except.error.inj he).symm, hfault⟩
  · rintro ⟨fault, rfl, hfault⟩
    rw [settle_unusable s hfault]

theorem conclude_error_entries {s t : State} {key : String} {loaded : Except LoadFault Value}
    {e : Error} (h : s.conclude key loaded = (t, .error e)) : t.entries = s.entries := by
  rcases conclude_cases h with ⟨_, _, _, rfl⟩ | ⟨_, _, _, _, _, _, he, _⟩ | ⟨_, _, _, _, _, he, _⟩
  · rfl
  · cases he
  · cases he

theorem fails_iff_of_miss {s t : State} {name key : String} {fault : ArgumentFault}
    {inner : List Call} {loaded : Except LoadFault Value} (hk : c.key name = .ok key)
    (hn : s.get? key = none) (hl : Loads c l (s.call key) (s.load l key) inner t loaded) :
    Fails c l s name fault ↔ Unusable key loaded fault := by
  constructor
  · intro h
    cases h with
    | blank hname =>
      rw [Settings.key_error_iff.mpr ⟨hname, rfl⟩] at hk
      cases hk
    | load hkey _ hload hfault =>
      obtain rfl := Except.ok.inj (hk.symm.trans hkey)
      rw [(hl.unique hload).2]
      exact hfault
  · exact .load hk hn hl

theorem fails_iff_of_refused {s : State} {name : String} {e : Error} {fault : ArgumentFault}
    (hk : c.key name = .error e) : Fails c l s name fault ↔ e = .invalidArgument fault := by
  obtain ⟨hname, rfl⟩ := Settings.key_error_iff.mp hk
  constructor
  · intro h
    cases h with
    | blank _ => rfl
    | load hkey _ _ _ => rw [hk] at hkey; cases hkey
  · intro he
    cases he
    exact .blank hname

theorem not_fails_of_found {s : State} {name key : String} {i : Instance} {fault : ArgumentFault}
    (hk : c.key name = .ok key) (hi : s.get? key = some i) : ¬ Fails c l s name fault := by
  intro h
  cases h with
  | blank hname => rw [Settings.key_error_iff.mpr ⟨hname, rfl⟩] at hk; cases hk
  | load hkey hn _ _ =>
    obtain rfl := Except.ok.inj (hk.symm.trans hkey)
    rw [hi] at hn
    cases hn

/-- A build fails at these points and nowhere else. -/
theorem Builds.error_iff {s t : State} {name : String} {calls : List Call}
    {result : Except Error Instance} (h : Builds c l s name calls t result) {e : Error} :
    result = .error e ↔ ∃ fault, e = .invalidArgument fault ∧ Fails c l s name fault := by
  cases hk : c.key name with
  | error refusal =>
    obtain ⟨-, rfl⟩ := h.refused_inv hk
    obtain ⟨-, hrefusal⟩ := Settings.key_error_iff.mp hk
    simp only [fails_iff_of_refused hk, Except.error.injEq]
    constructor
    · rintro rfl
      exact ⟨_, hrefusal, hrefusal⟩
    · rintro ⟨fault, rfl, he⟩
      exact he
  | ok key =>
    cases hg : s.get? key with
    | some i =>
      obtain ⟨-, rfl⟩ := h.found_inv hk hg
      simp [not_fails_of_found hk hg]
    | none =>
      obtain ⟨inner, u, loaded, hl, hc, -⟩ := h.missed_inv hk hg
      rw [conclude_error_iff hc]
      simp only [fails_iff_of_miss hk hg hl]

/-- A build that the loader made, at any depth, in the course of another one. -/
def Inside (c : Settings) (l : Loader) (outer call : Call) : Prop :=
  ∃ key inner t loaded, c.key outer.name = .ok key ∧ outer.before.get? key = none ∧
    Loads c l (outer.before.call key) (outer.before.load l key) inner t loaded ∧ call ∈ inner

theorem Builds.added_inside {s t : State} {name key : String} {calls : List Call} {e : Error}
    {i : Instance} (h : Builds c l s name calls t (.error e)) (hnew : s.get? key = none)
    (hi : t.get? key = some i) :
    ∃ call, Inside c l ⟨s, name, t, .error e⟩ call ∧ c.key call.name = .ok key ∧
      call.before.get? key = none ∧ call.after.get? key = some i ∧ call.result = .ok i := by
  cases h with
  | refused _ =>
    rw [hnew] at hi
    cases hi
  | @loaded s u t name k inner loaded result hk hn hl hc =>
    have hu : u.get? key = some i := by
      rw [← hi, State.get?, State.get?, conclude_error_entries hc]
    rcases carried_stores.loads hl key i hu with hs | ⟨call, hcall, hres, root, hreceives, -⟩
    · rw [get_call, hnew] at hs
      cases hs
    · obtain ⟨hkey, hbefore, -⟩ := hreceives
      obtain ⟨_, hb⟩ := carried_builds.loads hl call hcall
      rw [hres] at hb
      obtain ⟨other, hother, hafter⟩ := hb.result
      obtain rfl := Except.ok.inj (hother.symm.trans hkey)
      exact ⟨call, ⟨k, inner, u, loaded, hk, hn, hl, hcall⟩, hkey, hbefore, hafter, hres⟩

/-- The load builds nothing, whatever the cache replies. -/
inductive Load.Quiet : Load → Prop where
  | ends (loaded : Except LoadFault Value) : Quiet (.ends loaded)
  | asks {r : Request} {next : Reply → Load} : (∀ name, r ≠ .build name) →
      (∀ reply, Quiet (next reply)) → Quiet (.asks r next)

theorem Loads.quiet {s t : State} {load : Load} {calls : List Call}
    {loaded : Except LoadFault Value} (hq : load.Quiet) (h : Loads c l s load calls t loaded) :
    t = s := by
  induction hq generalizing calls with
  | ends _ => cases h; rfl
  | asks hr _ ih =>
    cases h with
    | built _ _ => exact absurd rfl (hr _)
    | replied _ hl => exact ih _ hl

theorem Builds.unchanged {s t : State} {name : String} {calls : List Call} {e : Error}
    (h : Builds c l s name calls t (.error e))
    (hq : ∀ key, c.key name = .ok key → (s.load l key).Quiet) : t.entries = s.entries := by
  cases h with
  | refused _ => rfl
  | loaded hk _ hl hc =>
    rw [conclude_error_entries hc, hl.quiet (hq _ hk), entries_call]

theorem Builds.calls_loader {s u : State} {name key : String} {calls : List Call}
    {result : Except Error Instance} (h : Builds c l s name calls u result)
    (hk : c.key name = .ok key) (hn : s.get? key = none) : s.loads ++ [key] <+: u.loads := by
  obtain ⟨inner, t, loaded, hl, hc, -⟩ := h.missed_inv hk hn
  have hgrows : (s.call key).Grows u :=
    (carried_advances.loads hl).grows.trans (grows_conclude hc)
  rw [← loads_call]
  exact hgrows.history.filterMap Event.load?

theorem Loads.build_fit {s t : State} {name key : String} {inner : List Call} {root : Value}
    (h : Loads c l (s.call key) (s.load l key) inner t (.ok root)) (hk : c.key name = .ok key)
    (hn : s.get? key = none) (hroot : Document.Fit root) :
    ∃ depth u i, build c l depth s name = some (u, .ok i) ∧ u.get? key = some i := by
  obtain ⟨i, hi⟩ := settle_fit t key hroot
  have hc : t.conclude key (.ok root) = ((t.conclude key (.ok root)).1, .ok i) := Prod.ext rfl hi
  obtain ⟨depth, hbuild⟩ := (Builds.loaded hk hn h hc).build
  exact ⟨depth, _, i, hbuild, conclude_ok hc⟩

/-- What a build of `name` that failed has left behind. -/
structure LeavesNoTrace (c : Settings) (l : Loader) (s : State) (name : String) (t : State)
    (e : Error) : Prop where
  kept : ∀ key i, s.get? key = some i → t.get? key = some i
  added : ∀ key i, s.get? key = none → t.get? key = some i →
    ∃ call, Inside c l ⟨s, name, t, .error e⟩ call ∧ c.key call.name = .ok key ∧
      call.before.get? key = none ∧ call.after.get? key = some i ∧ call.result = .ok i
  unchanged : (∀ key, c.key name = .ok key → (s.load l key).Quiet) → t.entries = s.entries
  loaded_again : ∀ key other later, c.key name = .ok key → c.key other = .ok key →
    t.Grows later → later.get? key = none → ∀ depth u result,
      build c l depth later other = some (u, result) → later.loads ++ [key] <+: u.loads
  retried : ∀ key other later inner u root, c.key name = .ok key → c.key other = .ok key →
    t.Grows later → later.get? key = none →
    Loads c l (later.call key) (later.load l key) inner u (.ok root) → Document.Fit root →
      ∃ depth v i, build c l depth later other = some (v, .ok i) ∧ v.get? key = some i

/-- Whatever the state and the loader, a build fails at its three points only, each time as an
invalid argument; and then it is atomic and is not remembered. -/
theorem failed_build_atomic {s t : State} {name : String} {result : Except Error Instance}
    (h : build c l depth s name = some (t, result)) :
    (∀ e, result = .error e ↔ ∃ fault, e = .invalidArgument fault ∧ Fails c l s name fault) ∧
    ∀ e, result = .error e → LeavesNoTrace c l s name t e := by
  obtain ⟨calls, hb⟩ := build_builds h
  refine ⟨fun e => hb.error_iff, ?_⟩
  rintro e rfl
  constructor
  case kept => exact fun key i hi => (carried_advances.builds hb).grows.get hi
  case added => exact fun key i hnew hi => hb.added_inside hnew hi
  case unchanged => exact hb.unchanged
  case loaded_again =>
    intro key other later _ hother _ hn depth u result hu
    obtain ⟨_, hbuilds⟩ := build_builds hu
    exact hbuilds.calls_loader hother hn
  case retried =>
    intro key other later inner u root _ hother _ hn hload hroot
    exact hload.build_fit hother hn hroot

/-- A loader that builds `b` and then `c` before its first load of `a` fails. -/
def failingOnce : Loader := fun history key =>
  if key = "a.yml" ∧ history.filterMap Event.load? = [] then
    .asks (.build "b") fun _ => .asks (.build "c") fun _ => .ends (.error (.missing key))
  else .ends (.ok .null)

theorem failed_around_successes :
    ∃ s, build {} failingOnce 2 {} "a" =
        some (s, .error (.invalidArgument (.loadFailed "a.yml" (.missing "a.yml")))) ∧
      LeavesNoTrace {} failingOnce {} "a" s
        (.invalidArgument (.loadFailed "a.yml" (.missing "a.yml"))) ∧
      (s.get? "b.yml").isSome ∧ (s.get? "c.yml").isSome ∧ s.get? "a.yml" = none ∧
      ∃ depth t i, build {} failingOnce depth s "a.yml" = some (t, .ok i) := by
  obtain ⟨s, hs, hb, hc, ha, hload⟩ : ∃ s, build {} failingOnce 2 {} "a" =
        some (s, .error (.invalidArgument (.loadFailed "a.yml" (.missing "a.yml")))) ∧
      (s.get? "b.yml").isSome ∧ (s.get? "c.yml").isSome ∧ s.get? "a.yml" = none ∧
      s.load failingOnce "a.yml" = .ends (.ok .null) := ⟨_, rfl, rfl, rfl, rfl, rfl⟩
  have htrace := (failed_build_atomic hs).2 _ rfl
  have hends : Loads {} failingOnce (s.call "a.yml") (s.load failingOnce "a.yml") []
      (s.call "a.yml") (.ok .null) := by
    rw [hload]
    exact .ends
  obtain ⟨depth, t, i, ht, -⟩ := htrace.retried "a.yml" "a.yml" s [] _ .null rfl rfl (.refl s) ha
    hends (Or.inr rfl)
  exact ⟨s, hs, htrace, hb, hc, ha, depth, t, i, ht⟩

end DocQuery.Cache
