import DocQuery.Command
import DocQuery.Proofs.BuildRules
import DocQuery.Proofs.JsonTokens
import DocQuery.Proofs.LenientOptions
import DocQuery.Proofs.TypedAnswers

/-! # The flags of the command that prints a value

The command looks its path up in the document of its file, and the flags act on what was found: one
turns missing data into null, one refuses values of another type, and one lays the text out. None of
them changes which document is read or where the path leads. -/

namespace DocQuery.Command

open Resolution (Softens)

namespace Get

def found (files : Files) (g : Get) : Except Error (Option Value) := do
  Resolution.resolve g.settings.queries (← g.document files) g.pathText

def layOut (g : Get) (v : Value) : String := (if g.pretty then v.pretty else v.json) ++ "\n"

theorem document_eq {g h : Get} (hfile : g.file = h.file) (files : Files) :
    g.document files = h.document files := by
  have hkey : g.settings.key g.file = h.settings.key h.file := by
    rw [settings, settings, hfile]
    rfl
  rw [document, document, hkey]

theorem print_eq (files : Files) (g : Get) :
    g.print files = (g.found files >>= g.wanted.answer g.pathText).map
      fun v => g.layOut (v.getD .null) := by
  rw [print, found]
  cases g.document files with
  | error e => rfl
  | ok d =>
    have hvalue : g.value? d =
        Resolution.resolve g.settings.queries d g.pathText >>= g.wanted.answer g.pathText := rfl
    have hfound : (do Resolution.resolve g.settings.queries (← Except.ok d) g.pathText) =
        Resolution.resolve g.settings.queries d g.pathText := rfl
    change (g.value? d >>= fun v => pure (g.layOut (v.getD .null))) = _
    rw [hvalue, hfound]
    generalize Resolution.resolve g.settings.queries d g.pathText >>= g.wanted.answer g.pathText = r
    cases r <;> rfl

theorem document_loaded {files : Files} {g : Get} {key : String} {root : Value}
    (hkey : g.settings.key g.file = .ok key) (hload : load files key = .ok root) :
    g.document files = Document.ofValue key root := by
  simp only [document, hkey, bind, Except.bind, hload]

theorem document_unloaded {files : Files} {g : Get} {key : String} {fault : LoadFault}
    (hkey : g.settings.key g.file = .ok key) (hload : load files key = .error fault) :
    g.document files = .error (.invalidArgument (.loadFailed key fault)) := by
  simp only [document, hkey, bind, Except.bind, hload]
  rfl

theorem document_error {files : Files} {g : Get} {e : Error} (h : g.document files = .error e) :
    e.isMissing = false := by
  cases hkey : g.settings.key g.file with
  | error f =>
    rw [document, hkey] at h
    cases h
    rw [(Cache.Settings.key_error_iff.mp hkey).2]
    rfl
  | ok key =>
    cases hload : load files key with
    | ok root =>
      rw [document_loaded hkey hload] at h
      rw [Document.ofValue_error h]
      rfl
    | error fault =>
      rw [document_unloaded hkey hload] at h
      cases h
      rfl

theorem found_softens (files : Files) (g : Get) :
    Softens (found files { g with lenient := false }) (found files { g with lenient := true }) := by
  have hdocument : document files { g with lenient := true } =
      document files { g with lenient := false } := document_eq rfl files
  rw [found, found, hdocument]
  cases hd : document files { g with lenient := false } with
  | error e => exact .refused (document_error hd)
  | ok d =>
    have hstrict : (settings { g with lenient := false }).queries.throwOnMissing = true := rfl
    have hlenient : (settings { g with lenient := true }).queries.throwOnMissing = false := rfl
    exact Resolution.resolve_softens hstrict hlenient rfl d g.pathText

theorem answer_cases (path : String) (t : ValueType) (r : Except Error (Option Value)) :
    (∃ v, r = .ok (some v) ∧ t.accepts v.kind = false ∧
      (r >>= Wanted.answer path (.checked t)) =
        .error (.wrongType path t.name v.kind.name)) ∨
    (¬ ∃ v, r = .ok (some v) ∧ t.accepts v.kind = false) ∧
      (r >>= Wanted.answer path (.checked t)) = r := by
  have houtcome := answers_outcome t path r
  generalize r >>= Wanted.answer path (.checked t) = checked at houtcome ⊢
  generalize r >>= Wanted.answer path (.content t) = content at houtcome
  cases houtcome with
  | failed e => exact Or.inr ⟨nofun, rfl⟩
  | missing => exact Or.inr ⟨nofun, rfl⟩
  | accepted ht _ =>
    refine Or.inr ⟨?_, rfl⟩
    rintro ⟨w, hw, hfalse⟩
    cases hw
    rw [ht] at hfalse
    cases hfalse
  | refused ht => exact Or.inl ⟨_, rfl, ht, rfl⟩

theorem layOut_null (g : Get) : g.layOut .null = "null\n" := by
  rw [layOut]
  cases g.pretty <;> rfl

theorem layOut_spaced (g : Get) (v : Value) :
    Json.Spaced (Json.tokens v) (g.layOut v).toList := by
  rw [layOut, String.toList_append]
  cases g.pretty with
  | true => exact (Json.pretty_spaced v).append_space rfl
  | false => exact (Json.json_spaced v).append_space rfl

theorem run_eq (files : Files) (g : Get) :
    (Invocation.get g).run files =
      .ofResult ((g.found files >>= g.wanted.answer g.pathText).map
        fun v => g.layOut (v.getD .null)) := by
  rw [← print_eq]
  rfl

end Get

/-- The path of the command is missing or malformed. -/
def Outcome.MissesPath (o : Outcome) : Prop :=
  ∃ path fault, o = .failed (.invalidPath path fault)

namespace Invocation

variable (files : Files) (g : Get)

theorem lenient_cases :
    let strict := (get { g with lenient := false }).run files
    let lenient := (get { g with lenient := true }).run files
    strict.MissesPath ∧ lenient = .printed "null\n" ∨ ¬ strict.MissesPath ∧ lenient = strict := by
  intro strict lenient
  let layOut (v : Option Value) : String := g.layOut (v.getD .null)
  have hstrict : strict = .ofResult ((Get.found files { g with lenient := false } >>=
      g.wanted.answer g.pathText).map layOut) := Get.run_eq files _
  have hlenient : lenient = .ofResult ((Get.found files { g with lenient := true } >>=
      g.wanted.answer g.pathText).map layOut) := Get.run_eq files _
  have hsoftens := (Get.found_softens files g).answer g.pathText g.wanted
  rw [hstrict, hlenient]
  generalize Get.found files { g with lenient := false } >>= g.wanted.answer g.pathText = r
    at hsoftens ⊢
  generalize Get.found files { g with lenient := true } >>= g.wanted.answer g.pathText = s
    at hsoftens ⊢
  cases hsoftens with
  | missing path fault =>
    refine Or.inl ⟨⟨path, fault, rfl⟩, ?_⟩
    exact congrArg Outcome.printed g.layOut_null
  | found v => exact Or.inr ⟨nofun, rfl⟩
  | @refused e he =>
    refine Or.inr ⟨?_, rfl⟩
    rintro ⟨path, fault, hfailed⟩
    cases hfailed
    cases he

theorem type_cases (t : ValueType) :
    let plain := (get { g with type := none }).run files
    let typed := (get { g with type := some t }).run files
    (∃ v, g.found files = .ok (some v) ∧ t.accepts v.kind = false ∧
      plain = .printed (g.layOut v) ∧
      typed = .failed (.wrongType g.pathText t.name v.kind.name)) ∨
    (¬ ∃ v, g.found files = .ok (some v) ∧ t.accepts v.kind = false) ∧ typed = plain := by
  intro plain typed
  let layOut (v : Option Value) : String := g.layOut (v.getD .null)
  have hplain : plain = .ofResult ((g.found files).map layOut) := by
    have hrun : plain =
        .ofResult ((g.found files >>= Wanted.answer g.pathText .value).map layOut) :=
      Get.run_eq files _
    rw [hrun, Wanted.answer_value]
  have htyped : typed =
      .ofResult ((g.found files >>= Wanted.answer g.pathText (.checked t)).map layOut) :=
    Get.run_eq files _
  rcases Get.answer_cases g.pathText t (g.found files) with ⟨v, hv, ht, hanswer⟩ | ⟨hnone, hanswer⟩
  · refine Or.inl ⟨v, hv, ht, ?_, ?_⟩
    · rw [hplain, hv]
      rfl
    · rw [htyped, hanswer]
      rfl
  · refine Or.inr ⟨hnone, ?_⟩
    rw [htyped, hanswer, hplain]

theorem pretty_cases :
    let compact := (get { g with pretty := false }).run files
    let pretty := (get { g with pretty := true }).run files
    pretty.exit = compact.exit ∧ pretty.stderr = compact.stderr ∧
      Json.Respaced compact.stdout pretty.stdout := by
  intro compact pretty
  have hcompact : compact = .ofResult ((g.found files >>= g.wanted.answer g.pathText).map
      fun v => Get.layOut { g with pretty := false } (v.getD .null)) := Get.run_eq files _
  have hpretty : pretty = .ofResult ((g.found files >>= g.wanted.answer g.pathText).map
      fun v => Get.layOut { g with pretty := true } (v.getD .null)) := Get.run_eq files _
  rw [hcompact, hpretty]
  generalize g.found files >>= g.wanted.answer g.pathText = r
  cases r with
  | error e => exact ⟨rfl, rfl, [], .nil, .nil, Json.lex_nil, Json.lex_nil⟩
  | ok v =>
    have hfront := Get.layOut_spaced { g with pretty := false } (v.getD .null)
    have hback := Get.layOut_spaced { g with pretty := true } (v.getD .null)
    exact ⟨rfl, rfl, _, hfront, hback, Json.lex_value hfront, Json.lex_value hback⟩

end Invocation

/-! ## Flags on the command line -/

section

variable {α : Type} {add : α → Item → Option α}

theorem collect_item {item : Item} (hhelp : item ≠ .help) (hmisuse : item ≠ .misuse) (a : α)
    (rest : List Item) :
    collect add a (item :: rest) =
      match add a item with
      | some b => collect add b rest
      | none => .misuse := by
  cases item with
  | help => exact absurd rfl hhelp
  | misuse => exact absurd rfl hmisuse
  | flag _ => rfl
  | valued _ _ => rfl
  | positional _ => rfl

theorem collect_cons_ok {a b : α} {item : Item} {rest : List Item}
    (h : collect add a (item :: rest) = .ok b) :
    item ≠ .help ∧ item ≠ .misuse ∧ ∃ c, add a item = some c ∧ collect add c rest = .ok b := by
  have hhelp : item ≠ .help := by
    rintro rfl
    cases h
  have hmisuse : item ≠ .misuse := by
    rintro rfl
    cases h
  rw [collect_item hhelp hmisuse] at h
  split at h
  · next c hc => exact ⟨hhelp, hmisuse, c, hc, h⟩
  · cases h

/-- A change of what was read so far lasts, if it does not get in the way of a later item. -/
theorem collect_changed {a b : α} {items : List Item} (h : collect add a items = .ok b)
    (change : α → α) (unset : α → Prop)
    (hadd : ∀ a item b, add a item = some b → unset b →
      unset a ∧ add (change a) item = some (change b)) (hb : unset b) :
    unset a ∧ collect add (change a) items = .ok (change b) := by
  induction items generalizing a with
  | nil =>
    cases h
    exact ⟨hb, rfl⟩
  | cons item rest ih =>
    obtain ⟨hhelp, hmisuse, c, hc, hrest⟩ := collect_cons_ok h
    obtain ⟨hunset, hchanged⟩ := ih hrest
    obtain ⟨ha, hitem⟩ := hadd a item c hc hunset
    rw [collect_item hhelp hmisuse, hitem]
    exact ⟨ha, hchanged⟩

end

namespace GetWords

def ofGet (g : Get) : GetWords :=
  { path := some g.path, file := some g.file, arguments := g.arguments, type := g.type
    lenient := g.lenient, pretty := g.pretty }

theorem command?_iff {w : GetWords} {g : Get} : w.command? = some g ↔ w = ofGet g := by
  constructor
  · intro h
    unfold command? at h
    split at h
    · next path file hpath hfile =>
      cases h
      rw [ofGet, ← hpath, ← hfile]
    · cases h
  · rintro rfl
    rfl

/-- What an item can add: each kind of it has a place of its own, which has to be free. -/
inductive Adds (w : GetWords) : Item → GetWords → Prop where
  | path {word : String} : w.path = none → Adds w (.positional word) { w with path := some word }
  | file {value : String} : w.file = none → Adds w (.valued 'f' value) { w with file := some value }
  | argument {value : String} :
      Adds w (.valued 'a' value) { w with arguments := w.arguments ++ [value] }
  | type {value : String} {t : ValueType} : w.type = none → ValueType.ofName? value = some t →
      Adds w (.valued 't' value) { w with type := some t }
  | lenient : w.lenient = false → Adds w (.flag 'l') { w with lenient := true }
  | pretty : w.pretty = false → Adds w (.flag 'p') { w with pretty := true }

theorem add_iff {w u : GetWords} {item : Item} : add w item = some u ↔ Adds w item u := by
  constructor
  · intro h
    unfold add at h
    split at h
    · split at h
      · cases h
      · next hfree =>
        cases h
        exact .path (by simpa using hfree)
    · split at h
      · cases h
      · next hfree =>
        cases h
        exact .file (by simpa using hfree)
    · cases h
      exact .argument
    · split at h
      · cases h
      · next hfree =>
        obtain ⟨t, ht, hu⟩ := Option.map_eq_some_iff.mp h
        cases hu
        exact .type (by simpa using hfree) ht
    · split at h
      · cases h
      · next hfree =>
        cases h
        exact .lenient (by simpa using hfree)
    · split at h
      · cases h
      · next hfree =>
        cases h
        exact .pretty (by simpa using hfree)
    · cases h
  · intro h
    cases h with
    | path h => simp [add, h]
    | file h => simp [add, h]
    | argument => rfl
    | type h ht => simp [add, h, ht]
    | lenient h => simp [add, h]
    | pretty h => simp [add, h]

theorem add_lenient {w u : GetWords} {item : Item} (h : w.add item = some u)
    (hu : u.lenient = false) :
    w.lenient = false ∧
      add { w with lenient := true } item = some { u with lenient := true } := by
  rw [add_iff] at h ⊢
  cases h with
  | path h => exact ⟨hu, .path h⟩
  | file h => exact ⟨hu, .file h⟩
  | argument => exact ⟨hu, .argument⟩
  | type h ht => exact ⟨hu, .type h ht⟩
  | lenient _ => cases hu
  | pretty h => exact ⟨hu, .pretty h⟩

theorem add_pretty {w u : GetWords} {item : Item} (h : w.add item = some u)
    (hu : u.pretty = false) :
    w.pretty = false ∧
      add { w with pretty := true } item = some { u with pretty := true } := by
  rw [add_iff] at h ⊢
  cases h with
  | path h => exact ⟨hu, .path h⟩
  | file h => exact ⟨hu, .file h⟩
  | argument => exact ⟨hu, .argument⟩
  | type h ht => exact ⟨hu, .type h ht⟩
  | lenient h => exact ⟨hu, .lenient h⟩
  | pretty _ => cases hu

theorem add_type (t : ValueType) {w u : GetWords} {item : Item} (h : w.add item = some u)
    (hu : u.type = none) :
    w.type = none ∧
      add { w with type := some t } item = some { u with type := some t } := by
  rw [add_iff] at h ⊢
  cases h with
  | path h => exact ⟨hu, .path h⟩
  | file h => exact ⟨hu, .file h⟩
  | argument => exact ⟨hu, .argument⟩
  | type _ _ => cases hu
  | lenient h => exact ⟨hu, .lenient h⟩
  | pretty h => exact ⟨hu, .pretty h⟩

end GetWords

namespace Invocation

theorem ofWords_get_iff {words : List String} {g : Get} :
    ofWords ("get" :: words) = .get g ↔
      collect GetWords.add {} (items getChoices words) = .ok (GetWords.ofGet g) := by
  rw [ofWords, if_pos rfl]
  cases collect GetWords.add {} (items getChoices words) with
  | ok w =>
    rw [Parsed.ok.injEq, ← GetWords.command?_iff, ofParsed]
    cases w.command? <;> simp
  | help => simp [ofParsed]
  | misuse => simp [ofParsed]

theorem items_lenient (words : List String) :
    items getChoices ("--lenient" :: words) = .flag 'l' :: items getChoices words := rfl

theorem items_pretty (words : List String) :
    items getChoices ("--pretty" :: words) = .flag 'p' :: items getChoices words := rfl

theorem items_type (t : ValueType) (words : List String) :
    items getChoices ("--type" :: t.name :: words) =
      .valued 't' t.name :: items getChoices words := by
  cases t <;> rfl

section

variable {words : List String} {g : Get} (h : ofWords ("get" :: words) = .get g)

include h

theorem ofWords_lenient (hg : g.lenient = false) :
    ofWords ("get" :: "--lenient" :: words) = .get { g with lenient := true } := by
  rw [ofWords_get_iff] at h ⊢
  rw [items_lenient]
  exact (collect_changed h _ _ (fun _ _ _ => GetWords.add_lenient) hg).2

theorem ofWords_pretty (hg : g.pretty = false) :
    ofWords ("get" :: "--pretty" :: words) = .get { g with pretty := true } := by
  rw [ofWords_get_iff] at h ⊢
  rw [items_pretty]
  exact (collect_changed h _ _ (fun _ _ _ => GetWords.add_pretty) hg).2

theorem ofWords_type (hg : g.type = none) (t : ValueType) :
    ofWords ("get" :: "--type" :: t.name :: words) = .get { g with type := some t } := by
  have hfront : GetWords.add {} (.valued 't' t.name) = some { type := some t } :=
    GetWords.add_iff.mpr (.type rfl t.ofName?_name)
  rw [ofWords_get_iff] at h ⊢
  rw [items_type, collect_item Item.noConfusion Item.noConfusion, hfront]
  exact (collect_changed h _ _ (fun _ _ _ => GetWords.add_type t) hg).2

end

end Invocation

/-- The flags only filter, default and lay out. A command that fails prints nothing. Being lenient
changes nothing unless the path is missing or malformed, and then prints null. Asking for a type
changes nothing unless the value that is found has a kind which the type does not accept, and then
fails with the two of them in words. The pretty form changes nothing but the white space of what is
printed. And a flag in front of the words of a command that lacks it is read as just that. -/
theorem flags_filter_default_lay_out (files : Files) (g : Get) :
    let run (h : Get) : Outcome := (Invocation.get h).run files
    ((run g).exit ≠ 0 → (run g).stdout = "") ∧
    (let strict := run { g with lenient := false }
      let lenient := run { g with lenient := true }
      strict.MissesPath ∧ lenient = .printed "null\n" ∨
        ¬ strict.MissesPath ∧ lenient = strict) ∧
    (∀ t : ValueType,
      let plain := run { g with type := none }
      let typed := run { g with type := some t }
      (∃ v, g.found files = .ok (some v) ∧ t.accepts v.kind = false ∧
        plain = .printed (g.layOut v) ∧
        typed = .failed (.wrongType g.pathText t.name v.kind.name)) ∨
      (¬ ∃ v, g.found files = .ok (some v) ∧ t.accepts v.kind = false) ∧ typed = plain) ∧
    (let compact := run { g with pretty := false }
      let pretty := run { g with pretty := true }
      pretty.exit = compact.exit ∧ pretty.stderr = compact.stderr ∧
        Json.Respaced compact.stdout pretty.stdout) ∧
    ∀ words, Invocation.ofWords ("get" :: words) = .get g →
      (g.lenient = false → Invocation.ofWords ("get" :: "--lenient" :: words) =
        .get { g with lenient := true }) ∧
      (g.type = none → ∀ t : ValueType, Invocation.ofWords ("get" :: "--type" :: t.name :: words) =
        .get { g with type := some t }) ∧
      (g.pretty = false → Invocation.ofWords ("get" :: "--pretty" :: words) =
        .get { g with pretty := true }) := by
  intro run
  refine ⟨?_, Invocation.lenient_cases files g, Invocation.type_cases files g,
    Invocation.pretty_cases files g, ?_⟩
  · intro hexit
    cases hrun : run g with
    | printed text =>
      rw [hrun] at hexit
      exact absurd rfl hexit
    | failed e => rfl
    | misused => rfl
  · intro words h
    exact ⟨Invocation.ofWords_lenient h, Invocation.ofWords_type h, Invocation.ofWords_pretty h⟩

end DocQuery.Command
