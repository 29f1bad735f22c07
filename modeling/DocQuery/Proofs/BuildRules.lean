import DocQuery.Cache

/-! # Rules of building

The builds of a run as derivations, without a bound on their nesting. A build is refused, finds its
document, or loads it; a load may make any number of other builds before it ends. A derivation has a
course: the builds that take place in it, in the order in which they return. Where the bounded
function has an answer there is a derivation, and some bound is large enough for each. -/

namespace DocQuery.Document

theorem ofValue_ok {key : String} {root : Value} {d : Document} (h : ofValue key root = .ok d) :
    d.key = key ∧ (root = .mapping d.root ∨ root = .null ∧ d.root = []) := by
  cases root with
  | mapping entries => cases h; exact ⟨rfl, Or.inl rfl⟩
  | null => cases h; exact ⟨rfl, Or.inr ⟨rfl, rfl⟩⟩
  | _ => cases h

theorem ofValue_error {key : String} {root : Value} {e : Error} (h : ofValue key root = .error e) :
    e = .invalidArgument (.rootNotMapping key root.kind) := by
  cases root with
  | mapping entries => cases h
  | null => cases h
  | _ => cases h; rfl

end DocQuery.Document

namespace DocQuery.Cache

theorem Settings.key_error_iff {c : Settings} {name : String} {e : Error} :
    c.key name = .error e ↔
      Text.trim name.toList = [] ∧ e = .invalidArgument .emptyDocumentName := by
  unfold Settings.key
  split
  · next h => simp [h, eq_comm]
  · next h => simp [h]

variable {c : Settings} {l : Loader}

/-- A load of a key begins: it is announced, and the loader is called. -/
def State.call (s : State) (key : String) : State :=
  (s.record (.wrote (.loading key))).record (.called key)

/-- What the loader does if it is called for the key now. -/
def State.load (s : State) (l : Loader) (key : String) : Load := l s.history key

/-- A load of a key has ended, and with it the build that asked for it. -/
def State.conclude (s : State) (key : String) (loaded : Except LoadFault Value) :
    State × Except Error Instance :=
  (s.settle key loaded).1.finish key (s.settle key loaded).2

@[simp] theorem entries_record (s : State) (e : Event) : (s.record e).entries = s.entries := rfl

@[simp] theorem entries_call (s : State) (key : String) : (s.call key).entries = s.entries := rfl

@[simp] theorem get_record (s : State) (e : Event) (key : String) :
    (s.record e).get? key = s.get? key := rfl

@[simp] theorem get_call (s : State) (called key : String) :
    (s.call called).get? key = s.get? key := rfl

@[simp] theorem loads_call (s : State) (key : String) : (s.call key).loads = s.loads ++ [key] := by
  simp only [State.call, State.record, State.loads, List.append_assoc, List.filterMap_append]
  rfl

theorem get_store (s : State) {key : String} (d : Document) (h : s.get? key = none) (k : String) :
    (s.store key d).1.get? k = if k = key then some (s.store key d).2 else s.get? k := by
  have hstore : (s.store key d).1.get? k =
      (s.get? k).or (List.lookup k [(key, (s.store key d).2)]) := List.lookup_append
  rw [hstore]
  by_cases hk : k = key
  · subst hk
    rw [h, if_pos rfl]
    exact List.lookup_cons_self
  · rw [if_neg hk, List.lookup_cons, beq_false_of_ne hk]
    exact Option.or_none

theorem conclude_cases {s t : State} {key : String} {loaded : Except LoadFault Value}
    {result : Except Error Instance} (h : s.conclude key loaded = (t, result)) :
    (∃ fault, result = .error (.invalidArgument fault) ∧
      (∀ root, loaded = .ok root → Document.ofValue key root = .error (.invalidArgument fault)) ∧
      t = s.record (.returned key result)) ∨
    (∃ root document first, loaded = .ok root ∧ Document.ofValue key root = .ok document ∧
      s.get? key = some first ∧ result = .ok first ∧
      t = (s.record (.wrote (.overtaken key))).record (.returned key result)) ∨
    ∃ root document, loaded = .ok root ∧ Document.ofValue key root = .ok document ∧
      s.get? key = none ∧ result = .ok (s.store key document).2 ∧
      t = (s.store key document).1.record (.returned key result) := by
  cases loaded with
  | error fault => cases h; exact Or.inl ⟨_, rfl, fun _ => nofun, rfl⟩
  | ok root =>
    cases hd : Document.ofValue key root with
    | error e =>
      obtain rfl := Document.ofValue_error hd
      simp only [State.conclude, State.settle, State.finish, hd] at h
      cases h
      refine Or.inl ⟨_, rfl, ?_, rfl⟩
      intro other ho
      cases ho
      exact hd
    | ok document =>
      refine Or.inr ?_
      cases hg : s.get? key with
      | some first =>
        simp only [State.conclude, State.settle, State.finish, hd, hg] at h
        cases h
        exact Or.inl ⟨root, document, first, rfl, hd, rfl, rfl, rfl⟩
      | none =>
        simp only [State.conclude, State.settle, State.finish, hd, hg] at h
        cases h
        exact Or.inr ⟨root, document, rfl, hd, rfl, rfl, rfl⟩

/-- What has happened stays: entries are only added, and so are events. -/
structure State.Grows (s t : State) : Prop where
  entries : s.entries <+: t.entries
  history : s.history <+: t.history

theorem State.Grows.refl (s : State) : s.Grows s := ⟨List.prefix_refl _, List.prefix_refl _⟩

theorem State.Grows.trans {s t u : State} (h : s.Grows t) (k : t.Grows u) : s.Grows u :=
  ⟨h.entries.trans k.entries, h.history.trans k.history⟩

theorem grows_record (s : State) (e : Event) : s.Grows (s.record e) :=
  ⟨List.prefix_refl _, List.prefix_append _ _⟩

theorem grows_call (s : State) (key : String) : s.Grows (s.call key) :=
  (grows_record s _).trans (grows_record _ _)

theorem grows_store (s : State) (key : String) (d : Document) : s.Grows (s.store key d).1 :=
  ⟨List.prefix_append _ _, List.prefix_refl _⟩

theorem grows_conclude {s t : State} {key : String} {loaded : Except LoadFault Value}
    {result : Except Error Instance} (h : s.conclude key loaded = (t, result)) : s.Grows t := by
  rcases conclude_cases h with ⟨_, _, _, rfl⟩ | ⟨_, _, _, _, _, _, _, rfl⟩ | ⟨_, _, _, _, _, _, rfl⟩
  · exact grows_record s _
  · exact (grows_record s _).trans (grows_record _ _)
  · exact (grows_store s _ _).trans (grows_record _ _)

theorem State.Grows.get {s t : State} (h : s.Grows t) {key : String} {i : Instance}
    (hi : s.get? key = some i) : t.get? key = some i := by
  obtain ⟨added, ha⟩ := h.entries
  have hlookup : t.get? key = (s.get? key).or (List.lookup key added) := by
    rw [State.get?, ← ha]
    exact List.lookup_append
  rw [hlookup, hi]
  rfl

structure Call where
  before : State
  name : String
  after : State
  result : Except Error Instance

mutual

/-- A build, its course, and the state and the result that it ends with. -/
inductive Builds (c : Settings) (l : Loader) :
    State → String → List Call → State → Except Error Instance → Prop where
  | refused {s name e} : c.key name = .error e →
      Builds c l s name [⟨s, name, s, .error e⟩] s (.error e)
  | found {s name key i} : c.key name = .ok key → s.get? key = some i →
      Builds c l s name [⟨s, name, s.record (.returned key (.ok i)), .ok i⟩]
        (s.record (.returned key (.ok i))) (.ok i)
  | loaded {s t u name key inner loaded result} : c.key name = .ok key → s.get? key = none →
      Loads c l (s.call key) (s.load l key) inner t loaded →
      t.conclude key loaded = (u, result) →
      Builds c l s name (inner ++ [⟨s, name, u, result⟩]) u result

/-- The course of a load, from the moment at which the loader is called. -/
inductive Loads (c : Settings) (l : Loader) :
    State → Load → List Call → State → Except LoadFault Value → Prop where
  | ends {s loaded} : Loads c l s (.ends loaded) [] s loaded
  | built {s t u name next inner more result loaded} : Builds c l s name inner t result →
      Loads c l t (next (.ofBuild result)) more u loaded →
      Loads c l s (.asks (.build name) next) (inner ++ more) u loaded
  | replied {s t r reply next calls loaded} : reply? c s r = some reply →
      Loads c l s (next reply) calls t loaded → Loads c l s (.asks r next) calls t loaded

end

inductive RunCourse (c : Settings) (l : Loader) :
    State → List Request → List Call → State → Prop where
  | nil {s} : RunCourse c l s [] [] s
  | built {s t u name result rest inner more} : Builds c l s name inner t result →
      RunCourse c l t rest more u → RunCourse c l s (.build name :: rest) (inner ++ more) u
  | replied {s t r reply rest calls} : reply? c s r = some reply →
      RunCourse c l s rest calls t → RunCourse c l s (r :: rest) calls t

def TakesPlace (c : Settings) (l : Loader) (s : State) (requests : List Request)
    (call : Call) : Prop :=
  ∃ calls t, RunCourse c l s requests calls t ∧ call ∈ calls

/-- A relation of states that single builds keep, given that the builds inside them do. -/
structure Carried (c : Settings) (l : Loader) (P : State → List Call → State → Prop) : Prop where
  nil : ∀ s, P s [] s
  append : ∀ {s calls t more u}, P s calls t → P t more u → P s (calls ++ more) u
  refused : ∀ {s name e}, c.key name = .error e → P s [⟨s, name, s, .error e⟩] s
  found : ∀ {s name key i}, c.key name = .ok key → s.get? key = some i →
    P s [⟨s, name, s.record (.returned key (.ok i)), .ok i⟩] (s.record (.returned key (.ok i)))
  loaded : ∀ {s t u name key inner loaded result}, c.key name = .ok key → s.get? key = none →
    Loads c l (s.call key) (s.load l key) inner t loaded → P (s.call key) inner t →
    t.conclude key loaded = (u, result) → P s (inner ++ [⟨s, name, u, result⟩]) u

namespace Carried

variable {P : State → List Call → State → Prop}

mutual

theorem builds (hP : Carried c l P) : {s t : State} → {name : String} → {calls : List Call} →
    {result : Except Error Instance} → Builds c l s name calls t result → P s calls t
  | _, _, _, _, _, .refused hk => hP.refused hk
  | _, _, _, _, _, .found hk hi => hP.found hk hi
  | _, _, _, _, _, .loaded hk hn hl hc => hP.loaded hk hn hl (loads hP hl) hc

theorem loads (hP : Carried c l P) : {s t : State} → {load : Load} → {calls : List Call} →
    {loaded : Except LoadFault Value} → Loads c l s load calls t loaded → P s calls t
  | _, _, _, _, _, .ends => hP.nil _
  | _, _, _, _, _, .built hb hl => hP.append (builds hP hb) (loads hP hl)
  | _, _, _, _, _, .replied _ hl => loads hP hl

end

theorem run (hP : Carried c l P) {s t : State} {requests : List Request} {calls : List Call}
    (h : RunCourse c l s requests calls t) : P s calls t := by
  induction h with
  | nil => exact hP.nil _
  | built hb _ ih => exact hP.append (hP.builds hb) ih
  | replied _ _ ih => exact ih

end Carried

theorem carried_builds : Carried c l fun _ calls _ => ∀ call ∈ calls, ∃ inner,
    Builds c l call.before call.name inner call.after call.result where
  nil := by
    intro s call hcall
    cases hcall
  append := by
    intro s calls t more u hcalls hmore call hcall
    exact (List.mem_append.mp hcall).elim (hcalls call) (hmore call)
  refused := by
    intro s name e hk call hcall
    rw [List.mem_singleton.mp hcall]
    exact ⟨_, .refused hk⟩
  found := by
    intro s name key i hk hi call hcall
    rw [List.mem_singleton.mp hcall]
    exact ⟨_, .found hk hi⟩
  loaded := by
    intro s t u name key inner loaded result hk hn hl hinner hc call hcall
    rcases List.mem_append.mp hcall with hcall | hcall
    · exact hinner call hcall
    · rw [List.mem_singleton.mp hcall]
      exact ⟨_, .loaded hk hn hl hc⟩

theorem Builds.mem {s t : State} {name : String} {calls : List Call}
    {result : Except Error Instance} (h : Builds c l s name calls t result) :
    ⟨s, name, t, result⟩ ∈ calls := by
  cases h <;> simp

theorem TakesPlace.builds {s : State} {requests : List Request} {call : Call}
    (h : TakesPlace c l s requests call) :
    ∃ inner, Builds c l call.before call.name inner call.after call.result := by
  obtain ⟨calls, t, hcourse, hcall⟩ := h
  exact carried_builds.run hcourse call hcall

theorem Builds.refused_inv {s t : State} {name : String} {e : Error} {calls : List Call}
    {result : Except Error Instance} (h : Builds c l s name calls t result)
    (hk : c.key name = .error e) : t = s ∧ result = .error e := by
  cases h with
  | refused he => exact ⟨rfl, by rw [Except.error.inj (hk.symm.trans he)]⟩
  | found hkey _ => rw [hk] at hkey; cases hkey
  | loaded hkey _ _ _ => rw [hk] at hkey; cases hkey

theorem Builds.found_inv {s t : State} {name key : String} {i : Instance} {calls : List Call}
    {result : Except Error Instance} (h : Builds c l s name calls t result)
    (hk : c.key name = .ok key) (hi : s.get? key = some i) :
    t = s.record (.returned key (.ok i)) ∧ result = .ok i := by
  have hhit {k : String} (hkey : c.key name = .ok k) : s.get? k = some i := by
    rw [← Except.ok.inj (hk.symm.trans hkey)]
    exact hi
  cases h with
  | refused he => rw [hk] at he; cases he
  | found hkey hj =>
    obtain rfl := Except.ok.inj (hk.symm.trans hkey)
    obtain rfl := Option.some.inj (hi.symm.trans hj)
    exact ⟨rfl, rfl⟩
  | loaded hkey hn _ _ => rw [hhit hkey] at hn; cases hn

theorem Builds.missed_inv {s u : State} {name key : String} {calls : List Call}
    {result : Except Error Instance} (h : Builds c l s name calls u result)
    (hk : c.key name = .ok key) (hn : s.get? key = none) :
    ∃ inner t loaded, Loads c l (s.call key) (s.load l key) inner t loaded ∧
      t.conclude key loaded = (u, result) ∧ calls = inner ++ [⟨s, name, u, result⟩] := by
  cases h with
  | refused he => rw [hk] at he; cases he
  | found hkey hi =>
    obtain rfl := Except.ok.inj (hk.symm.trans hkey)
    rw [hn] at hi
    cases hi
  | loaded hkey _ hl hc =>
    obtain rfl := Except.ok.inj (hk.symm.trans hkey)
    exact ⟨_, _, _, hl, hc, rfl⟩

/-! ## The function and the rules -/

theorem reply_exists (c : Settings) (s : State) {r : Request} (h : ∀ name, r ≠ .build name) :
    ∃ reply, reply? c s r = some reply := by
  cases r with
  | build name => exact absurd rfl (h name)
  | has name => exact ⟨_, rfl⟩
  | key name =>
    rw [reply?]
    cases c.key name with
    | error e => exact ⟨_, rfl⟩
    | ok key => exact ⟨_, rfl⟩
  | size => exact ⟨_, rfl⟩

theorem answer_of_ne_build {build : State → String → Option (State × Except Error Instance)}
    {s : State} {r : Request} (h : ∀ name, r ≠ .build name) :
    answer c build s r = (reply? c s r).map fun reply => (s, reply) := by
  cases r with
  | build name => exact absurd rfl (h name)
  | _ => rfl

theorem answer_cases {build : State → String → Option (State × Except Error Instance)}
    {s t : State} {r : Request} {reply : Reply} (h : answer c build s r = some (t, reply)) :
    (∃ name result, r = .build name ∧ build s name = some (t, result) ∧
      reply = .ofBuild result) ∨ reply? c s r = some reply ∧ t = s := by
  cases r with
  | build name =>
    obtain ⟨⟨u, result⟩, hb, hr⟩ := Option.map_eq_some_iff.mp h
    cases hr
    exact Or.inl ⟨name, result, rfl, hb, rfl⟩
  | _ =>
    rw [answer_of_ne_build (by simp)] at h
    obtain ⟨given, hg, hr⟩ := Option.map_eq_some_iff.mp h
    cases hr
    exact Or.inr ⟨hg, rfl⟩

theorem answer_build {build : State → String → Option (State × Except Error Instance)}
    {s t : State} {name : String} {result : Except Error Instance}
    (h : build s name = some (t, result)) :
    answer c build s (.build name) = some (t, .ofBuild result) := by
  rw [answer, h]
  rfl

theorem answer_reply {s : State} {r : Request} {reply : Reply} (h : reply? c s r = some reply)
    (build : State → String → Option (State × Except Error Instance)) :
    answer c build s r = some (s, reply) := by
  cases r with
  | build name => cases h
  | _ => rw [answer_of_ne_build (by simp), h]; rfl

theorem follow_asks {ask : State → Request → Option (State × Reply)} {s : State} {r : Request}
    {next : Reply → Load} {ended : State × Except LoadFault Value} :
    follow ask s (.asks r next) = some ended ↔
      ∃ t reply, ask s r = some (t, reply) ∧ follow ask t (next reply) = some ended := by
  rw [follow]
  split
  · next h => simp [h]
  · next t reply h =>
    rw [h]
    constructor
    · intro hf
      exact ⟨t, reply, rfl, hf⟩
    · rintro ⟨_, _, hr, hf⟩
      cases hr
      exact hf

theorem build_miss {depth : Nat} {s : State} {name key : String} (hk : c.key name = .ok key)
    (hn : s.get? key = none) : build c l (depth + 1) s name =
      (follow (answer c (build c l depth)) (s.call key) (s.load l key)).map
        fun ended : State × Except LoadFault Value => ended.1.conclude key ended.2 := by
  simp only [build, hk, hn]
  rfl

theorem follow_loads {build : State → String → Option (State × Except Error Instance)}
    (hbuild : ∀ {s name t result}, build s name = some (t, result) →
      ∃ calls, Builds c l s name calls t result)
    {s t : State} {load : Load} {loaded : Except LoadFault Value}
    (h : follow (answer c build) s load = some (t, loaded)) :
    ∃ calls, Loads c l s load calls t loaded := by
  induction load generalizing s with
  | ends result => cases h; exact ⟨[], .ends⟩
  | asks r next ih =>
    obtain ⟨u, reply, ha, hf⟩ := follow_asks.mp h
    obtain ⟨more, hmore⟩ := ih reply hf
    rcases answer_cases ha with ⟨name, result, rfl, hb, rfl⟩ | ⟨hr, rfl⟩
    · obtain ⟨inner, hinner⟩ := hbuild hb
      exact ⟨_, .built hinner hmore⟩
    · exact ⟨_, .replied hr hmore⟩

theorem build_builds {depth : Nat} {s t : State} {name : String} {result : Except Error Instance}
    (h : build c l depth s name = some (t, result)) : ∃ calls, Builds c l s name calls t result := by
  induction depth generalizing s t name result with
  | zero => cases h
  | succ depth ih =>
    cases hk : c.key name with
    | error e =>
      simp only [build, hk] at h
      cases h
      exact ⟨_, .refused hk⟩
    | ok key =>
      cases hg : s.get? key with
      | some i =>
        simp only [build, hk, hg] at h
        cases h
        exact ⟨_, .found hk hg⟩
      | none =>
        rw [build_miss hk hg] at h
        obtain ⟨⟨u, loaded⟩, hf, hc⟩ := Option.map_eq_some_iff.mp h
        obtain ⟨inner, hl⟩ := follow_loads ih hf
        exact ⟨_, .loaded hk hg hl hc⟩

theorem follow_mono {build more : State → String → Option (State × Except Error Instance)}
    (hmore : ∀ {s name ended}, build s name = some ended → more s name = some ended)
    {s : State} {load : Load} {ended : State × Except LoadFault Value}
    (h : follow (answer c build) s load = some ended) :
    follow (answer c more) s load = some ended := by
  induction load generalizing s with
  | ends loaded => exact h
  | asks r next ih =>
    obtain ⟨t, reply, ha, hf⟩ := follow_asks.mp h
    refine follow_asks.mpr ⟨t, reply, ?_, ih reply hf⟩
    rcases answer_cases ha with ⟨name, result, rfl, hb, rfl⟩ | ⟨hr, rfl⟩
    · exact answer_build (hmore hb)
    · exact answer_reply hr more

theorem build_succ {depth : Nat} {s : State} {name : String}
    {ended : State × Except Error Instance} (h : build c l depth s name = some ended) :
    build c l (depth + 1) s name = some ended := by
  induction depth generalizing s name ended with
  | zero => cases h
  | succ depth ih =>
    cases hk : c.key name with
    | error e =>
      simp only [build, hk] at h ⊢
      exact h
    | ok key =>
      cases hg : s.get? key with
      | some i =>
        simp only [build, hk, hg] at h ⊢
        exact h
      | none =>
        rw [build_miss hk hg] at h ⊢
        obtain ⟨followed, hf, rfl⟩ := Option.map_eq_some_iff.mp h
        rw [follow_mono ih hf]
        rfl

theorem build_mono {depth more : Nat} (hle : depth ≤ more) {s : State} {name : String}
    {ended : State × Except Error Instance} (h : build c l depth s name = some ended) :
    build c l more s name = some ended := by
  induction hle with
  | refl => exact h
  | step _ ih => exact build_succ ih

mutual

theorem Builds.build : {s t : State} → {name : String} → {calls : List Call} →
    {result : Except Error Instance} → Builds c l s name calls t result →
    ∃ depth, Cache.build c l depth s name = some (t, result)
  | _, _, _, _, _, .refused hk => ⟨1, by simp only [Cache.build, hk]⟩
  | _, _, _, _, _, .found hk hi => ⟨1, by simp only [Cache.build, hk, hi]; rfl⟩
  | _, _, _, _, _, .loaded hk hn hl hc => by
    obtain ⟨depth, hf⟩ := Loads.follow hl
    refine ⟨depth + 1, ?_⟩
    rw [build_miss hk hn, hf, Option.map_some, hc]

theorem Loads.follow : {s t : State} → {load : Load} → {calls : List Call} →
    {loaded : Except LoadFault Value} → Loads c l s load calls t loaded →
    ∃ depth, Cache.follow (answer c (Cache.build c l depth)) s load = some (t, loaded)
  | _, _, _, _, _, .ends => ⟨0, rfl⟩
  | _, _, _, _, _, .built hb hl => by
    obtain ⟨depth, hbuild⟩ := Builds.build hb
    obtain ⟨more, hf⟩ := Loads.follow hl
    have hbuilt := build_mono (Nat.le_max_left depth more) hbuild
    have hfollowed := follow_mono (build_mono (Nat.le_max_right depth more)) hf
    exact ⟨max depth more, follow_asks.mpr ⟨_, _, answer_build hbuilt, hfollowed⟩⟩
  | _, _, _, _, _, .replied hr hl => by
    obtain ⟨depth, hf⟩ := Loads.follow hl
    exact ⟨depth, follow_asks.mpr ⟨_, _, answer_reply hr _, hf⟩⟩

end

theorem Loads.unique {s t t' : State} {load : Load} {calls calls' : List Call}
    {loaded loaded' : Except LoadFault Value} (h : Loads c l s load calls t loaded)
    (h' : Loads c l s load calls' t' loaded') : t = t' ∧ loaded = loaded' := by
  obtain ⟨depth, hf⟩ := h.follow
  obtain ⟨more, hf'⟩ := h'.follow
  have hmax := follow_mono (build_mono (Nat.le_max_left depth more)) hf
  rw [follow_mono (build_mono (Nat.le_max_right depth more)) hf'] at hmax
  exact (Prod.mk.inj (Option.some.inj hmax)).imp Eq.symm Eq.symm

theorem Builds.unique {s t t' : State} {name : String} {calls calls' : List Call}
    {result result' : Except Error Instance} (h : Builds c l s name calls t result)
    (h' : Builds c l s name calls' t' result') : t = t' ∧ result = result' := by
  obtain ⟨depth, hb⟩ := h.build
  obtain ⟨more, hb'⟩ := h'.build
  have hmax := build_mono (Nat.le_max_left depth more) hb
  rw [build_mono (Nat.le_max_right depth more) hb'] at hmax
  exact (Prod.mk.inj (Option.some.inj hmax)).imp Eq.symm Eq.symm

theorem RunCourse.unique {s t t' : State} {requests : List Request} {calls calls' : List Call}
    (h : RunCourse c l s requests calls t) (h' : RunCourse c l s requests calls' t') : t = t' := by
  induction h generalizing calls' with
  | nil => cases h'; rfl
  | built hb _ ih =>
    cases h' with
    | built hb' hrest =>
      obtain ⟨rfl, -⟩ := hb.unique hb'
      exact ih hrest
    | replied hr _ => cases hr
  | replied hr _ ih =>
    cases h' with
    | built _ _ => cases hr
    | replied _ hrest => exact ih hrest

variable {depth : Nat}

theorem run_cons {s t : State} {r : Request} {rest : List Request} {replies : List Reply} :
    run c l depth s (r :: rest) = some (t, replies) ↔
      ∃ u reply given, perform c l depth s r = some (u, reply) ∧
        run c l depth u rest = some (t, given) ∧ replies = reply :: given := by
  rw [run]
  split
  · next hp => simp [hp]
  · next u reply hp =>
    simp only [hp, Option.map_eq_some_iff, Prod.exists, Prod.mk.injEq, Option.some.injEq]
    constructor
    · rintro ⟨v, given, hr, rfl, rfl⟩
      exact ⟨u, reply, given, ⟨rfl, rfl⟩, hr, rfl⟩
    · rintro ⟨_, _, given, ⟨rfl, rfl⟩, hr, rfl⟩
      exact ⟨t, given, hr, rfl, rfl⟩

theorem run_append {s t : State} {earlier later : List Request} {replies : List Reply} :
    run c l depth s (earlier ++ later) = some (t, replies) ↔
      ∃ u given more, run c l depth s earlier = some (u, given) ∧
        run c l depth u later = some (t, more) ∧ replies = given ++ more := by
  induction earlier generalizing s replies with
  | nil =>
    constructor
    · intro h; exact ⟨s, [], replies, rfl, h, rfl⟩
    · rintro ⟨u, given, more, hs, h, rfl⟩; cases hs; exact h
  | cons r rest ih =>
    rw [List.cons_append, run_cons]
    constructor
    · rintro ⟨v, reply, given, hp, hr, rfl⟩
      obtain ⟨u, front, more, hf, hm, rfl⟩ := ih.mp hr
      exact ⟨u, reply :: front, more, run_cons.mpr ⟨v, reply, front, hp, hf, rfl⟩, hm, rfl⟩
    · rintro ⟨u, given, more, hg, hm, rfl⟩
      obtain ⟨v, reply, front, hp, hf, rfl⟩ := run_cons.mp hg
      exact ⟨v, reply, front ++ more, hp, ih.mpr ⟨u, front, more, hf, hm, rfl⟩, rfl⟩

theorem run_course {s t : State} {requests : List Request} {replies : List Reply}
    (h : run c l depth s requests = some (t, replies)) :
    ∃ calls, RunCourse c l s requests calls t := by
  induction requests generalizing s replies with
  | nil => cases h; exact ⟨[], .nil⟩
  | cons r rest ih =>
    obtain ⟨u, reply, given, hp, hr, -⟩ := run_cons.mp h
    obtain ⟨more, hmore⟩ := ih hr
    rcases answer_cases hp with ⟨name, result, rfl, hb, -⟩ | ⟨hreply, rfl⟩
    · obtain ⟨inner, hinner⟩ := build_builds hb
      exact ⟨inner ++ more, .built hinner hmore⟩
    · exact ⟨more, .replied hreply hmore⟩

end DocQuery.Cache
