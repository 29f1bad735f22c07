import DocQuery.Proofs.CommandFlags

/-! # What is printed as null

A command prints null in place of missing data, and JSON has no other text for a float that is
infinite or no number. No other value reads like that: resolution never finds null, and the tokens
of every other value are different ones, in both forms of the text. -/

namespace DocQuery

namespace Resolution

/-- What a path leads to in a document. The empty path is not walked: it stands for a text. -/
inductive Designates (d : Document) : String → Value → Prop where
  | empty : Designates d "" (.text "")
  | walked {path : String} {segments : List Segment} {value : Value} : path ≠ "" →
      Path.Spelled segments path.toList → Walks d.root segments value → Designates d path value

section

variable {d : Document} {path : String} {value : Value}

theorem Designates.ne_null (h : Designates d path value) : value ≠ .null := by
  cases h with
  | empty => exact Value.noConfusion
  | walked _ _ hw => exact hw.ne_null

theorem Designates.walks (h : Designates d path value) (hp : path ≠ "") :
    ∃ segments, Path.Spelled segments path.toList ∧ Walks d.root segments value := by
  cases h with
  | empty => exact absurd rfl hp
  | walked _ hs hw => exact ⟨_, hs, hw⟩

theorem Designates.unique {other : Value} (h : Designates d path value)
    (k : Designates d path other) : value = other := by
  cases h with
  | empty =>
    cases k with
    | empty => rfl
    | walked hp _ _ => exact absurd rfl hp
  | walked hp hs hw =>
    obtain ⟨_, ht, hu⟩ := k.walks hp
    obtain rfl := Path.spelled_unique hw.ne_nil hu.ne_nil hs ht
    exact Except.ok.inj (((walk_ok_iff _ _ _).mpr hw).symm.trans ((walk_ok_iff _ _ _).mpr hu))

end

/-- How an engine answers at a path: with what the path leads to, and if it leads nowhere, with an
error or with no value. -/
inductive Answers (o : Options) (d : Document) (path : String) :
    Except Error (Option Value) → Prop where
  | found {value : Value} : Designates d path value → Answers o d path (.ok (some value))
  | refused {quoted : Option String} {fault : PathFault} : o.throwOnMissing = true →
      (∀ value, ¬ Designates d path value) → Answers o d path (.error (.invalidPath quoted fault))
  | missing : o.throwOnMissing = false →
      (∀ value, ¬ Designates d path value) → Answers o d path (.ok none)

theorem resolve_answers_strict {o : Options} (h : o.throwOnMissing = true)
    (he : o.emptyPath = .emptyText) (d : Document) (path : String) :
    Answers o d path (resolve o d path) := by
  by_cases hp : path = ""
  · subst hp
    rw [resolve_empty, he]
    exact .found .empty
  · rcases resolve_strict_cases h d hp with ⟨segments, value, hs, hw, hr⟩ | ⟨hn, fault, hr⟩
    · rw [hr]
      exact .found (.walked hp hs hw)
    · rw [hr]
      refine .refused h ?_
      intro value hv
      obtain ⟨segments, hs, hw⟩ := hv.walks hp
      exact hn ⟨segments, value, hs, hw⟩

theorem resolve_answers {o : Options} (he : o.emptyPath = .emptyText) (d : Document)
    (path : String) : Answers o d path (resolve o d path) := by
  cases h : o.throwOnMissing with
  | true => exact resolve_answers_strict h he d path
  | false =>
    let strict : Options := { o with throwOnMissing := true }
    have hthrows : strict.throwOnMissing = true := rfl
    have hempty : strict.emptyPath = o.emptyPath := rfl
    have hstrict := resolve_answers_strict hthrows (hempty.trans he) d path
    have hsoftens := resolve_softens hthrows h hempty d path
    generalize resolve strict d path = r at hstrict hsoftens
    generalize resolve o d path = s at hsoftens ⊢
    cases hstrict with
    | found hv =>
      cases hsoftens with
      | found => exact .found hv
    | refused _ hn =>
      cases hsoftens with
      | missing => exact .missing h hn
      | refused hmissing => cases hmissing
    | missing hfalse _ => cases hfalse

theorem resolve_lenient_ok {o : Options} (h : o.throwOnMissing = false)
    (he : o.emptyPath = .emptyText) (d : Document) (path : String) :
    ∃ a, resolve o d path = .ok a := by
  have hanswers := resolve_answers he d path
  generalize resolve o d path = r at hanswers ⊢
  cases hanswers with
  | found _ => exact ⟨_, rfl⟩
  | refused hthrows _ =>
    rw [h] at hthrows
    cases hthrows
  | missing _ _ => exact ⟨_, rfl⟩

theorem Designates.resolved {d : Document} {path : String} {value : Value}
    (h : Designates d path value) {o : Options} (he : o.emptyPath = .emptyText) :
    resolve o d path = .ok (some value) := by
  have hanswers := resolve_answers he d path
  generalize resolve o d path = r at hanswers ⊢
  cases hanswers with
  | found hv => rw [hv.unique h]
  | refused _ hnone => exact absurd h (hnone value)
  | missing _ hnone => exact absurd h (hnone value)

end Resolution

theorem Json.tokens_null_iff {v : Value} :
    tokens v = tokens .null ↔ v = .null ∨ ∃ x : Float, v = .float x ∧ x.isFinite = false := by
  cases v with
  | float x =>
    cases hx : x.isFinite <;> simp [tokens, floatToken, hx]
  | _ => simp [tokens]

namespace Command

open Resolution (Designates)

namespace Get

theorem layOut_null_iff (g : Get) {v : Value} :
    g.layOut v = "null\n" ↔ v = .null ∨ ∃ x : Float, v = .float x ∧ x.isFinite = false := by
  rw [← g.layOut_null, ← Json.tokens_null_iff]
  constructor
  · intro h
    have hv := Json.lex_value (g.layOut_spaced v)
    rw [h, Json.lex_value (g.layOut_spaced .null)] at hv
    exact (Option.some.inj hv).symm
  · intro h
    rw [layOut, layOut, Value.pretty, Value.pretty, Value.json, Value.json, h]

theorem answer_ok (g : Get) {path : String} {r : Except Error (Option Value)} {a : Option Value}
    (h : r >>= g.wanted.answer path = .ok a) : r = .ok a := by
  rw [wanted] at h
  cases htype : g.type with
  | none =>
    rw [htype] at h
    rwa [Wanted.answer_value] at h
  | some t =>
    rw [htype] at h
    rcases answer_cases path t r with ⟨v, -, -, hfail⟩ | ⟨-, hsame⟩
    · rw [hfail] at h
      cases h
    · rwa [hsame] at h

/-- A command that succeeds has loaded its document and prints what it resolved the path to,
whatever type it was asked for. -/
theorem printed_inv {files : Files} {g : Get} (h : ((Invocation.get g).run files).exit = 0) :
    ∃ d a, g.document files = .ok d ∧
      Resolution.resolve g.settings.queries d g.pathText = .ok a ∧
      ((Invocation.get g).run files).stdout = g.layOut (a.getD .null) := by
  have hrun := run_eq files g
  cases hanswer : g.found files >>= g.wanted.answer g.pathText with
  | error e =>
    rw [hrun, hanswer] at h
    cases h
  | ok a =>
    have hfound := g.answer_ok hanswer
    rw [found] at hfound
    cases hd : g.document files with
    | error e =>
      rw [hd] at hfound
      cases hfound
    | ok d =>
      rw [hd] at hfound
      refine ⟨d, a, rfl, hfound, ?_⟩
      rw [hrun, hanswer]
      rfl

theorem run_untyped {files : Files} {g : Get} {d : Document} {a : Option Value}
    (htype : g.type = none) (hd : g.document files = .ok d)
    (hresolve : Resolution.resolve g.settings.queries d g.pathText = .ok a) :
    (Invocation.get g).run files = .printed (g.layOut (a.getD .null)) := by
  have hfound : g.found files = .ok a := by
    rw [found, hd]
    exact hresolve
  rw [run_eq, hfound, wanted, htype, Wanted.answer_value]
  rfl

end Get

/-! ## Whether the command was to be lenient -/

theorem GetWords.Adds.lenient_iff {w u : GetWords} {item : Item} (h : w.Adds item u) :
    u.lenient = true ↔ item = .flag 'l' ∨ w.lenient = true := by
  cases h <;> simp

theorem collect_lenient_iff {w u : GetWords} {items : List Item}
    (h : collect GetWords.add w items = .ok u) :
    u.lenient = true ↔ .flag 'l' ∈ items ∨ w.lenient = true := by
  induction items generalizing w with
  | nil =>
    cases h
    simp
  | cons item rest ih =>
    obtain ⟨-, -, v, hv, hrest⟩ := collect_cons_ok h
    have hitem := (GetWords.add_iff.mp hv).lenient_iff
    rw [ih hrest, hitem, List.mem_cons, eq_comm (a := item), or_assoc]
    exact or_left_comm

theorem Invocation.lenient_given_iff {words : List String} {g : Get}
    (h : ofWords ("get" :: words) = .get g) :
    g.lenient = true ↔ .flag 'l' ∈ items getChoices words := by
  have hcollect := collect_lenient_iff (ofWords_get_iff.mp h)
  simpa [GetWords.ofGet] using hcollect

theorem Invocation.ofWords_get_cases (words : List String) :
    (∃ g, ofWords ("get" :: words) = .get g) ∨ ofWords ("get" :: words) = .help ∨
      ofWords ("get" :: words) = .misuse := by
  rw [ofWords, if_pos rfl]
  cases collect GetWords.add {} (items getChoices words) with
  | ok w =>
    rw [ofParsed]
    cases w.command? <;> simp
  | help => exact Or.inr (Or.inl rfl)
  | misuse => exact Or.inr (Or.inr rfl)

theorem Get.printed_null_iff {files : Files} {g : Get}
    (h : ((Invocation.get g).run files).exit = 0) :
    ∃ d, g.document files = .ok d ∧
      (((Invocation.get g).run files).stdout = "null\n" ↔
        g.lenient = true ∧ (∀ v, ¬ Designates d g.pathText v) ∨
          ∃ x : Float, Designates d g.pathText (.float x) ∧ x.isFinite = false) ∧
      ∀ v, Designates d g.pathText v → ((Invocation.get g).run files).stdout = g.layOut v := by
  obtain ⟨d, a, hd, hresolve, hout⟩ := printed_inv h
  have hanswers := Resolution.resolve_answers (o := g.settings.queries) rfl d g.pathText
  refine ⟨d, hd, ?_⟩
  rw [hout]
  rw [hresolve] at hanswers
  cases hanswers with
  | @found v hv =>
    constructor
    · rw [Option.getD_some, g.layOut_null_iff]
      constructor
      · rintro (rfl | ⟨x, rfl, hx⟩)
        · exact absurd rfl hv.ne_null
        · exact Or.inr ⟨x, hv, hx⟩
      · rintro (⟨-, hnone⟩ | ⟨x, hx, hinfinite⟩)
        · exact absurd hv (hnone v)
        · exact Or.inr ⟨x, hv.unique hx, hinfinite⟩
    · intro w hw
      rw [hv.unique hw, Option.getD_some]
  | missing hlenient hnone =>
    have hg : g.lenient = true := by simpa [settings] using hlenient
    exact ⟨iff_of_true g.layOut_null (Or.inl ⟨hg, hnone⟩), fun v hv => absurd hv (hnone v)⟩

/-- Of the commands that succeed, the one for help prints how commands are used. Every other one has
loaded its document, and prints null just if it was to be lenient and its path leads nowhere, or if
the path leads to a float that is infinite or no number. What a path leads to is printed with any
flags, and nothing but such a float is printed as null. -/
theorem null_printed_iff (files : Files) (words : List String)
    (h : ((Invocation.ofWords ("get" :: words)).run files).exit = 0) :
    let out := ((Invocation.ofWords ("get" :: words)).run files).stdout
    Invocation.ofWords ("get" :: words) = .help ∧ out = Outcome.usage ∧ out ≠ "null\n" ∨
    ∃ g d, Invocation.ofWords ("get" :: words) = .get g ∧ g.document files = .ok d ∧
      (out = "null\n" ↔
        .flag 'l' ∈ items getChoices words ∧ (∀ v, ¬ Designates d g.pathText v) ∨
          ∃ x : Float, Designates d g.pathText (.float x) ∧ x.isFinite = false) ∧
      ∀ v, Designates d g.pathText v →
        out = g.layOut v ∧ (out = "null\n" ↔ ∃ x : Float, v = .float x ∧ x.isFinite = false) := by
  intro out
  rcases Invocation.ofWords_get_cases words with ⟨g, hg⟩ | hhelp | hmisuse
  · rw [hg] at h
    obtain ⟨d, hd, hnull, hvalue⟩ := Get.printed_null_iff h
    rw [Invocation.lenient_given_iff hg] at hnull
    have hout : out = ((Invocation.get g).run files).stdout := by
      rw [← hg]
    refine Or.inr ⟨g, d, hg, hd, by rwa [hout], ?_⟩
    intro v hv
    have hprinted : out = g.layOut v := hout.trans (hvalue v hv)
    refine ⟨hprinted, ?_⟩
    rw [hprinted, g.layOut_null_iff, or_iff_right hv.ne_null]
  · have hout : out = Outcome.usage := by
      change ((Invocation.ofWords ("get" :: words)).run files).stdout = _
      rw [hhelp]
      rfl
    refine Or.inl ⟨hhelp, hout, ?_⟩
    rw [hout]
    decide
  · rw [hmisuse] at h
    cases h

/-! ## A document with a float that is no number -/

namespace NotANumber

def text : String := "x: .nan\n"

def files : Files := fun key => if key = "a.yml" then .ok text else .error .notFound

def document : Document := { key := "a.yml", root := [("x", .float (0.0 / 0.0))] }

def tokens : List Yaml.Token :=
  [.blockMappingStart, .key, .scalar "x" .plain, .value, .scalar ".nan" .plain, .blockEnd]

def node : Yaml.Node := .mapping none [(.scalar none .plain "x", .scalar none .plain ".nan")]

theorem lexed : Yaml.lex text.toList = some tokens := by
  decide +kernel

theorem parsed : Yaml.Stream.ofTokens? tokens = some { root := some node, anchored := [] } := rfl

theorem composed (s : Yaml.Stream) (depth : Nat) :
    (Yaml.Tree.compose s (depth + 2) node).run 0 =
      some (.mapping [(.text "x", .number (.float (0.0 / 0.0)))], 0) := by
  -- its own equations match on the node before the depth, and do not reduce for a symbolic depth
  delta Yaml.Tree.compose
  rfl

theorem loaded : load files "a.yml" = .ok (.mapping document.root) := by
  have htree : Yaml.Tree.read? text =
      some (.mapping [(.text "x", .number (.float (0.0 / 0.0)))]) := by
    have hdepth : Yaml.Tree.depthBound = 126 + 2 := rfl
    rw [Yaml.Tree.read?, Yaml.Stream.read?, lexed, Option.bind_some, parsed, Option.bind_some,
      Yaml.Tree.ofStream?, hdepth]
    exact congrArg (Option.map Prod.fst) (composed _ 126)
  have hfile : files "a.yml" = .ok text := rfl
  have hname : ".json".toList.isSuffixOf "a.yml".toList = false := rfl
  simp only [load, hfile, hname, htree]
  rfl

theorem document_eq {g : Get} (h : g.file = "a.yml") : g.document files = .ok document := by
  have hkey : g.settings.key g.file = .ok "a.yml" := by
    rw [Get.settings, h]
    change (Cache.Settings.forFile "a.yml").key "a.yml" = _
    decide +kernel
  exact Get.document_loaded hkey loaded

theorem designated : Designates document "x" (.float (0.0 / 0.0)) := by
  have hx : Path.Spells (.field "x") "x".toList := .field (by simp [Path.Plain])
  have hspelled : Path.Spelled [.field "x"] "x".toList := ⟨_, .cons hx .nil, by simp [Text.join]⟩
  exact .walked (by simp) hspelled (.last (.field rfl) Value.noConfusion)

theorem undesignated (value : Value) : ¬ Designates document "x.y" value := by
  have hx : Path.Spells (.field "x") "x".toList := .field (by simp [Path.Plain])
  have hy : Path.Spells (.field "y") "y".toList := .field (by simp [Path.Plain])
  have hspelled : Path.Spelled [.field "x", .field "y"] "x.y".toList :=
    ⟨_, .cons hx (.cons hy .nil), by simp [Text.join]⟩
  intro h
  obtain ⟨_, hs, hw⟩ := h.walks (by simp)
  obtain rfl := Path.spelled_unique hw.ne_nil (by simp) hs hspelled
  cases (Resolution.walk_ok_iff _ _ _).mpr hw

end NotANumber

/-- A value that a strict command finds can be printed as null. -/
theorem not_a_number_printed_as_null :
    let words := ["x", "--file", "a.yml"]
    let run := (Invocation.ofWords ("get" :: words)).run NotANumber.files
    run.exit = 0 ∧ run.stdout = "null\n" ∧ .flag 'l' ∉ items getChoices words ∧
      ∃ g d v, Invocation.ofWords ("get" :: words) = .get g ∧
        g.document NotANumber.files = .ok d ∧ Designates d g.pathText v := by
  intro words run
  let g : Get := { path := "x", file := "a.yml" }
  have hwords : Invocation.ofWords ("get" :: words) = .get g := rfl
  have hdocument : g.document NotANumber.files = .ok NotANumber.document :=
    NotANumber.document_eq rfl
  have hresolved : Resolution.resolve g.settings.queries NotANumber.document g.pathText =
      .ok (some (.float (0.0 / 0.0))) := NotANumber.designated.resolved rfl
  have hrun := Get.run_untyped rfl hdocument hresolved
  have hnull : g.layOut (.float (0.0 / 0.0)) = "null\n" :=
    g.layOut_null_iff.mpr (Or.inr ⟨_, rfl, by decide⟩)
  rw [Option.getD_some, hnull, ← hwords] at hrun
  change run = _ at hrun
  rw [hrun]
  exact ⟨rfl, rfl, by decide, g, _, _, hwords, hdocument, NotANumber.designated⟩

/-- A lenient command asks for what is below a float that is no number. -/
theorem missing_below_number_printed_as_null :
    let words := ["x.y", "-lf", "a.yml"]
    let run := (Invocation.ofWords ("get" :: words)).run NotANumber.files
    run.exit = 0 ∧ run.stdout = "null\n" := by
  intro words run
  let g : Get := { path := "x.y", file := "a.yml", lenient := true }
  have hwords : Invocation.ofWords ("get" :: words) = .get g := rfl
  have hdocument : g.document NotANumber.files = .ok NotANumber.document :=
    NotANumber.document_eq rfl
  have hexit : run.exit = 0 := by
    change ((Invocation.ofWords ("get" :: words)).run NotANumber.files).exit = 0
    obtain ⟨a, ha⟩ := Resolution.resolve_lenient_ok (o := g.settings.queries) rfl rfl
      NotANumber.document g.pathText
    rw [hwords, Get.run_untyped rfl hdocument ha]
    rfl
  refine ⟨hexit, ?_⟩
  rcases null_printed_iff NotANumber.files words hexit with ⟨hhelp, -⟩ | ⟨h, d, hh, hd, hnull, -⟩
  · rw [hwords] at hhelp
    cases hhelp
  · obtain rfl : g = h := Invocation.get.inj (hwords.symm.trans hh)
    obtain rfl : NotANumber.document = d := Except.ok.inj (hdocument.symm.trans hd)
    exact hnull.mpr (Or.inl ⟨by decide, NotANumber.undesignated⟩)

end Command

end DocQuery
