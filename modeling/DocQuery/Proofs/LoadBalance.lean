import DocQuery.Proofs.BuildRules
import Mathlib.Data.List.Count

/-! # The balance of loads

Every call of the loader is accounted for: the build that made it failed, or its document is the one
in the table, or a warning says that it came too late. The balance is kept by each build together
with the builds inside it: a load that is still under way is counted once it is concluded. -/

namespace DocQuery

namespace LogLine

def loading? : LogLine → Option String
  | loading key => some key
  | _ => none

def overtaken? : LogLine → Option String
  | overtaken key => some key
  | _ => none

end LogLine

namespace Cache

variable {c : Settings} {l : Loader} {depth : Nat}

/-! ## What each step adds -/

def State.announced (s : State) : List String := s.log.filterMap LogLine.loading?

def State.warned (s : State) : List String := s.log.filterMap LogLine.overtaken?

theorem loads_record (s : State) (e : Event) :
    (s.record e).loads = s.loads ++ e.load?.toList := by
  simp only [State.record, State.loads, List.filterMap_append]
  cases e <;> rfl

theorem log_record (s : State) (e : Event) : (s.record e).log = s.log ++ e.line?.toList := by
  simp only [State.record, State.log, List.filterMap_append]
  cases e <;> rfl

theorem announced_record (s : State) (e : Event) :
    (s.record e).announced = s.announced ++ (e.line?.bind LogLine.loading?).toList := by
  rw [State.announced, log_record, List.filterMap_append]
  rcases e with line | key | ⟨key, result⟩
  · cases line <;> rfl
  · rfl
  · rfl

theorem warned_record (s : State) (e : Event) :
    (s.record e).warned = s.warned ++ (e.line?.bind LogLine.overtaken?).toList := by
  rw [State.warned, log_record, List.filterMap_append]
  rcases e with line | key | ⟨key, result⟩
  · cases line <;> rfl
  · rfl
  · rfl

theorem loads_conclude {s t : State} {key : String} {loaded : Except LoadFault Value}
    {result : Except Error Instance} (h : s.conclude key loaded = (t, result)) :
    t.loads = s.loads := by
  rcases conclude_cases h with ⟨_, _, _, rfl⟩ | ⟨_, _, _, _, _, _, _, rfl⟩ |
    ⟨_, document, _, _, _, _, rfl⟩
  · simp [loads_record, Event.load?]
  · simp [loads_record, Event.load?]
  · rw [loads_record]
    exact List.append_nil _

/-- The key under which a build failed. A blank name has no key. -/
def Call.failure? (c : Settings) (call : Call) : Option String :=
  match c.key call.name, call.result with
  | .ok key, .error _ => some key
  | _, _ => none

/-- The loads of a key that put a document into the table, or found one there when they ended. -/
def State.kept (s : State) (key : String) : Nat :=
  (s.get? key).isSome.toNat + s.warned.count key

def failures (c : Settings) (calls : List Call) : List String := calls.filterMap (Call.failure? c)

theorem count_failures_append (calls more : List Call) (key : String) :
    (failures c (calls ++ more)).count key =
      (failures c calls).count key + (failures c more).count key := by
  rw [failures, List.filterMap_append, List.count_append]
  rfl

theorem kept_call (s : State) (called key : String) : (s.call called).kept key = s.kept key := by
  simp [State.kept, State.call, warned_record, Event.line?, LogLine.overtaken?]

theorem kept_returned (s : State) (returned key : String) (result : Except Error Instance) :
    (s.record (.returned returned result)).kept key = s.kept key := by
  simp [State.kept, warned_record, Event.line?]

theorem conclude_balance {s t : State} {name key : String} {loaded : Except LoadFault Value}
    {result : Except Error Instance} (before : State) (hk : c.key name = .ok key)
    (h : s.conclude key loaded = (t, result)) (k : String) :
    (failures c [⟨before, name, t, result⟩]).count k + t.kept k = s.kept k + [key].count k := by
  rcases conclude_cases h with ⟨fault, rfl, _, rfl⟩ | ⟨_, _, first, _, _, _, rfl, rfl⟩ |
    ⟨_, document, _, _, hn, rfl, rfl⟩
  · rw [kept_returned]
    simp [failures, Call.failure?, hk, Nat.add_comm]
  · rw [kept_returned]
    simp [failures, Call.failure?, hk, State.kept, warned_record, Event.line?, LogLine.overtaken?,
      Nat.add_assoc]
  · rw [kept_returned]
    have hwarned : (s.store key document).1.warned = s.warned := rfl
    rw [State.kept, get_store s document hn, hwarned]
    by_cases hkey : k = key
    · subst hkey
      simp [failures, Call.failure?, hk, State.kept, hn, Nat.add_comm]
    · simp [failures, Call.failure?, hk, State.kept, hkey, Ne.symm hkey]

/-- From `s` to `t` there are as many loads as failures and kept documents. The load of a build is
counted before the builds inside it begin, and accounted for after they end. -/
theorem carried_balance (k : String) : Carried c l fun s calls t =>
    t.loads.count k + s.kept k = s.loads.count k + (failures c calls).count k + t.kept k where
  nil := by
    intro s
    simp [failures]
  append := by
    intro s calls t more u hcalls hmore
    rw [count_failures_append]
    omega
  refused := by
    intro s name e hk
    simp [failures, Call.failure?, hk]
  found := by
    intro s name key i hk _
    simp [failures, Call.failure?, hk, loads_record, Event.load?, kept_returned]
  loaded := by
    intro s t u name key inner loaded result hk _ _ hinner hc
    have hbal := conclude_balance s hk hc k
    rw [kept_call, loads_call, List.count_append] at hinner
    rw [loads_conclude hc, count_failures_append]
    omega

/-! ## What is written -/

theorem announced_call (s : State) (key : String) :
    (s.call key).announced = s.announced ++ [key] := by
  simp [State.call, announced_record, Event.line?, LogLine.loading?]

theorem announced_conclude {s t : State} {key : String} {loaded : Except LoadFault Value}
    {result : Except Error Instance} (h : s.conclude key loaded = (t, result)) :
    t.announced = s.announced := by
  rcases conclude_cases h with ⟨_, _, _, rfl⟩ | ⟨_, _, _, _, _, _, _, rfl⟩ |
    ⟨_, document, _, _, _, _, rfl⟩
  · simp [announced_record, Event.line?]
  · simp [announced_record, Event.line?, LogLine.loading?]
  · rw [announced_record]
    exact List.append_nil _

theorem carried_announced :
    Carried c l fun s _ t => s.announced = s.loads → t.announced = t.loads where
  nil := fun _ hs => hs
  append := fun hcalls hmore hs => hmore (hcalls hs)
  refused := fun _ hs => hs
  found := by
    intro s name key i _ _ hs
    simp [announced_record, loads_record, Event.line?, Event.load?, hs]
  loaded := by
    intro s t u name key inner loaded result _ _ _ hinner hc hs
    rw [announced_conclude hc, loads_conclude hc]
    exact hinner (by rw [announced_call, loads_call, hs])

theorem Builds.hit {s t : State} {name key : String} {calls : List Call}
    {result : Except Error Instance} {i : Instance} (h : Builds c l s name calls t result)
    (hk : c.key name = .ok key) (hi : s.get? key = some i) :
    result = .ok i ∧ t.entries = s.entries ∧ t.loads = s.loads ∧ t.log = s.log := by
  obtain ⟨rfl, rfl⟩ := h.found_inv hk hi
  refine ⟨rfl, rfl, ?_, ?_⟩
  · simp [loads_record, Event.load?]
  · simp [log_record, Event.line?]

/-- The books of a run that ended in `s` with these builds in its course. -/
structure Balanced (c : Settings) (l : Loader) (depth : Nat) (calls : List Call)
    (s : State) : Prop where
  conserved : ∀ key, s.loads.count key =
    (failures c calls).count key + (s.get? key).isSome.toNat + s.warned.count key
  announced : s.announced = s.loads
  hit : ∀ call ∈ calls, ∀ key i, c.key call.name = .ok key → call.before.get? key = some i →
    call.result = .ok i ∧ call.after.entries = call.before.entries ∧
      call.after.loads = call.before.loads ∧ call.after.log = call.before.log
  blank : ∀ call ∈ calls, Text.trim call.name.toList = [] →
    call.after = call.before ∧ call.result = .error (.invalidArgument .emptyDocumentName)
  query : ∀ t u r reply, (∀ name, r ≠ .build name) → perform c l depth t r = some (u, reply) → u = t

/-- Loads are conserved: each call of the loader ends in a failure, in the table, or in a warning,
and each is announced. Nothing but a build that finds no document makes one. -/
theorem loads_conserved {s : State} {requests : List Request} {replies : List Reply}
    (h : run c l depth {} requests = some (s, replies)) :
    (∃ calls, RunCourse c l {} requests calls s) ∧
    ∀ calls, RunCourse c l {} requests calls s → Balanced c l depth calls s := by
  refine ⟨run_course h, ?_⟩
  intro calls hcalls
  constructor
  case conserved =>
    intro key
    have hbal := (carried_balance key).run hcalls
    have hloads : ({} : State).loads.count key = 0 := rfl
    have hkept : ({} : State).kept key = 0 := rfl
    rw [hloads, hkept, State.kept] at hbal
    omega
  case announced => exact carried_announced.run hcalls rfl
  case hit =>
    intro call hcall key i
    obtain ⟨inner, hb⟩ := carried_builds.run hcalls call hcall
    exact hb.hit
  case blank =>
    intro call hcall hname
    obtain ⟨inner, hb⟩ := carried_builds.run hcalls call hcall
    exact hb.refused_inv (Settings.key_error_iff.mpr ⟨hname, rfl⟩)
  case query =>
    intro t u r reply hr hp
    rcases answer_cases hp with ⟨name, _, rfl, _, _⟩ | ⟨_, rfl⟩
    · exact absurd rfl (hr name)
    · rfl

/-- The first load of `a` builds `b`, which fails, and then `c`, which loads `a` again. -/
def branching : Loader := fun history key =>
  if key = "a.yml" ∧ history.filterMap Event.load? = [] then
    .asks (.build "b") fun _ => .asks (.build "c") fun _ => .ends (.ok .null)
  else if key = "b.yml" then .ends (.error (.missing key))
  else if key = "c.yml" then .asks (.build "a") fun _ => .ends (.ok .null)
  else .ends (.ok (.mapping []))

theorem four_loads_accounted_for :
    ∃ s replies calls, run {} branching 3 {} [.build "a", .build " ", .has "a"] =
        some (s, replies) ∧
      RunCourse {} branching {} [.build "a", .build " ", .has "a"] calls s ∧
      Balanced {} branching 3 calls s ∧ s.loads = ["a.yml", "b.yml", "c.yml", "a.yml"] ∧
      (failures {} calls).count "b.yml" = 1 ∧ s.warned = ["a.yml"] := by
  obtain ⟨s, replies, hrun, hloads, hcached, hwarned⟩ : ∃ s replies,
      run {} branching 3 {} [.build "a", .build " ", .has "a"] = some (s, replies) ∧
      s.loads = ["a.yml", "b.yml", "c.yml", "a.yml"] ∧ (s.get? "b.yml").isSome = false ∧
      s.warned = ["a.yml"] := ⟨_, _, rfl, rfl, rfl, rfl⟩
  obtain ⟨⟨calls, hcalls⟩, hall⟩ := loads_conserved hrun
  have hbal := (hall calls hcalls).conserved "b.yml"
  rw [hloads, hcached, hwarned] at hbal
  have hfailed : (failures {} calls).count "b.yml" = 1 := by
    simp at hbal
    omega
  exact ⟨s, replies, calls, hrun, hcalls, hall calls hcalls, hloads, hfailed, hwarned⟩

end Cache

end DocQuery
