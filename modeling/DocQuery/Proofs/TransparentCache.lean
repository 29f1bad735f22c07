import DocQuery.Proofs.FirstInsert

/-! # The cache is transparent

Over a table of values a build gives what plain loading gives: the key of the name, the value under
it, a document made of that value. Each entry of the cache is such a document, so it makes no
difference which builds were made before, in which order, or by which names of the key. -/

namespace DocQuery.Cache

variable {c : Settings} {t : Table}

def made (key : String) : Except LoadFault Value → Except Error Document
  | .error fault => .error (.invalidArgument (.loadFailed key fault))
  | .ok root => Document.ofValue key root

/-- Loading a key without a cache. -/
def Table.fetch (t : Table) (key : String) : Except Error Document :=
  made key ((Mapping.get? t.entries key).elim (.error (.missing key)) .ok)

def Table.fetchNamed (c : Settings) (t : Table) (name : String) : Except Error Document :=
  match c.key name with
  | .error e => .error e
  | .ok key => t.fetch key

/-- The content of an answer to a build; which instance it is does not matter here. -/
def Reply.content? : Reply → Option (Except Error Document)
  | document i => some (.ok i.document)
  | failed e => some (.error e)
  | _ => none

def content (result : Except Error Instance) : Except Error Document :=
  result.map Instance.document

theorem content_ofBuild (result : Except Error Instance) :
    (Reply.ofBuild result).content? = some (content result) := by
  cases result <;> rfl

theorem conclude_content {s u : State} {key : String} {loaded : Except LoadFault Value}
    {result : Except Error Instance} (hn : s.get? key = none)
    (h : s.conclude key loaded = (u, result)) : content result = made key loaded := by
  obtain rfl : (s.settle key loaded).2 = result := congrArg Prod.snd h
  cases loaded with
  | error fault => rfl
  | ok root =>
    simp only [State.settle, made]
    cases Document.ofValue key root with
    | error e => rfl
    | ok document => simp only [hn]; rfl

theorem load_fetch (t : Table) (s : State) (key : String) :
    ∃ loaded, s.load t.loader key = .ends loaded ∧ made key loaded = t.fetch key := by
  unfold State.load Table.loader Table.fetch
  cases Mapping.get? t.entries key <;> exact ⟨_, rfl, rfl⟩

/-- Each document in the cache is the one that plain loading gives for its key. -/
def Faithful (t : Table) (s : State) : Prop :=
  ∀ key i, s.get? key = some i → t.fetch key = .ok i.document

theorem faithful_empty (t : Table) : Faithful t {} := by
  intro key i h
  cases h

theorem build_faithful (c : Settings) {s : State} (hs : Faithful t s) (depth : Nat)
    (name : String) : ∃ u result, build c t.loader (depth + 1) s name = some (u, result) ∧
      content result = t.fetchNamed c name ∧ Faithful t u := by
  cases hk : c.key name with
  | error e =>
    refine ⟨s, .error e, by simp [build, hk], ?_, hs⟩
    rw [Table.fetchNamed, hk]
    rfl
  | ok key =>
    have hnamed : t.fetchNamed c name = t.fetch key := by rw [Table.fetchNamed, hk]
    rw [hnamed]
    cases hg : s.get? key with
    | some i =>
      refine ⟨_, .ok i, by simp only [build, hk, hg]; rfl, (hs key i hg).symm, ?_⟩
      exact fun k j hj => hs k j hj
    | none =>
      obtain ⟨loaded, hl, hfetch⟩ := load_fetch t s key
      obtain ⟨u, result, hc⟩ : ∃ u result, (s.call key).conclude key loaded = (u, result) :=
        ⟨_, _, rfl⟩
      have hbuild : build c t.loader (depth + 1) s name = some (u, result) := by
        rw [build_miss hk hg, ← hc, hl]
        rfl
      have hcontent : content result = t.fetch key :=
        (conclude_content (s := s.call key) hg hc).trans hfetch
      refine ⟨u, result, hbuild, hcontent, ?_⟩
      intro k i hi
      rcases conclude_new hc hi with hold | ⟨rfl, rfl, -⟩
      · exact hs k i hold
      · exact hcontent.symm

theorem perform_faithful (c : Settings) {s : State} (hs : Faithful t s) (depth : Nat)
    (r : Request) : ∃ u reply, perform c t.loader (depth + 1) s r = some (u, reply) ∧
      Faithful t u ∧ ∀ name, r = .build name → reply.content? = some (t.fetchNamed c name) := by
  by_cases hr : ∃ name, r = .build name
  · obtain ⟨name, rfl⟩ := hr
    obtain ⟨u, result, hb, hcontent, hu⟩ := build_faithful c hs depth name
    refine ⟨u, .ofBuild result, answer_build hb, hu, ?_⟩
    intro other hother
    cases hother
    rw [content_ofBuild, hcontent]
  · have hr : ∀ name, r ≠ .build name := fun name hname => hr ⟨name, hname⟩
    obtain ⟨reply, hreply⟩ := reply_exists c s hr
    exact ⟨s, reply, answer_reply hreply _, hs, fun name hname => absurd hname (hr name)⟩

theorem run_faithful (c : Settings) {s : State} (hs : Faithful t s) (depth : Nat)
    (requests : List Request) :
    ∃ u replies, run c t.loader (depth + 1) s requests = some (u, replies) ∧
      List.Forall₂ (fun r reply => ∀ name, r = .build name →
        reply.content? = some (t.fetchNamed c name)) requests replies := by
  induction requests generalizing s with
  | nil => exact ⟨s, [], rfl, .nil⟩
  | cons r rest ih =>
    obtain ⟨v, reply, hp, hv, hreply⟩ := perform_faithful c hs depth r
    obtain ⟨u, replies, hr, hreplies⟩ := ih hv
    exact ⟨u, reply :: replies, run_cons.mpr ⟨v, reply, replies, hp, hr, rfl⟩,
      .cons hreply hreplies⟩

theorem fetchNamed_congr {name other : String} (h : c.key name = c.key other) :
    t.fetchNamed c name = t.fetchNamed c other := by
  rw [Table.fetchNamed, h]
  rfl

/-- The answer to a build has the content that plain loading gives, and so the content that the same
build has on an empty cache. -/
def AsAlone (c : Settings) (t : Table) (depth : Nat) (r : Request) (reply : Reply) : Prop :=
  ∀ name, r = .build name → reply.content? = some (t.fetchNamed c name) ∧
    ∃ u alone, perform c t.loader depth {} r = some (u, alone) ∧ reply.content? = alone.content?

/-- Over a table every run comes to its end, and each build in it is answered as it would be alone.
So it does not matter what was asked for before, or by which name of its key a document was. -/
theorem cache_transparent (c : Settings) (t : Table) (depth : Nat) :
    (∀ requests, ∃ s replies, run c t.loader (depth + 1) {} requests = some (s, replies) ∧
      List.Forall₂ (AsAlone c t (depth + 1)) requests replies) ∧
    ∀ requests others s u replies given name other reply answer,
      run c t.loader (depth + 1) {} requests = some (s, replies) →
      run c t.loader (depth + 1) {} others = some (u, given) →
      (.build name, reply) ∈ requests.zip replies → (.build other, answer) ∈ others.zip given →
      c.key name = c.key other → reply.content? = answer.content? := by
  have hempty := faithful_empty t
  have hfetched {requests : List Request} {s : State} {replies : List Reply}
      (h : run c t.loader (depth + 1) {} requests = some (s, replies)) {name : String}
      {reply : Reply} (hmem : (.build name, reply) ∈ requests.zip replies) :
      reply.content? = some (t.fetchNamed c name) := by
    obtain ⟨_, _, hrun, hall⟩ := run_faithful c hempty depth requests
    rw [h] at hrun
    cases hrun
    exact (List.forall₂_iff_zip.mp hall).2 hmem name rfl
  constructor
  · intro requests
    obtain ⟨s, replies, hrun, hall⟩ := run_faithful c hempty depth requests
    refine ⟨s, replies, hrun, hall.imp ?_⟩
    rintro r reply hreply name rfl
    obtain ⟨u, alone, hp, -, halone⟩ := perform_faithful c hempty depth (.build name)
    refine ⟨hreply name rfl, u, alone, hp, ?_⟩
    rw [hreply name rfl, halone name rfl]
  · intro requests others s u replies given name other reply answer hr ho hreply hanswer hkey
    rw [hfetched hr hreply, hfetched ho hanswer, fetchNamed_congr hkey]

/-- A build that fails, and two names of one key. -/
theorem names_of_one_key_answered_alike :
    ∃ s replies reply answer,
      run {} (Table.loader ⟨[("a.yml", .mapping [("x", .null)])]⟩) 1 {}
        [.build "b", .build "a", .build "a.yml"] = some (s, replies) ∧
      replies =
        [.failed (.invalidArgument (.loadFailed "b.yml" (.missing "b.yml"))), reply, answer] ∧
      reply.content? = some (.ok ⟨"a.yml", [("x", .null)]⟩) ∧
      reply.content? = answer.content? := by
  obtain ⟨s, i, j, hrun, hi⟩ : ∃ s i j,
      run {} (Table.loader ⟨[("a.yml", .mapping [("x", .null)])]⟩) 1 {}
        [.build "b", .build "a", .build "a.yml"] =
          some (s, [.failed (.invalidArgument (.loadFailed "b.yml" (.missing "b.yml"))),
            .document i, .document j]) ∧
      i.document = ⟨"a.yml", [("x", .null)]⟩ := ⟨_, _, _, rfl, rfl⟩
  have hreply : (Reply.document i).content? = some (.ok ⟨"a.yml", [("x", .null)]⟩) := by
    rw [Reply.content?, hi]
  refine ⟨s, _, .document i, .document j, hrun, rfl, hreply, ?_⟩
  exact (cache_transparent {} ⟨[("a.yml", .mapping [("x", .null)])]⟩ 0).2 _ _ _ _ _ _ "a" "a.yml" _ _
    hrun hrun (by simp) (by simp) rfl

end DocQuery.Cache
