import DocQuery.Proofs.JsonRoundTrip
import DocQuery.Settings.Json

/-! # Edited settings

A settings text may be edited: at every level fields are left out, fields that no setting asks for
are put in, and the order is changed. What is left out has its default, and every other setting is
as it was written. A section is read at its own place, so the query settings of the cache and those
beside the cache do not touch each other. -/

namespace DocQuery

namespace Value

mutual

/-- What can become of a value when fields are left out of its mappings, fields with other names
are put in, and the order of fields is changed, at every level. -/
inductive Edited : Value → Value → Prop where
  | same {v : Value} : v.kind ≠ .mapping → Edited v v
  | mapping {fields kept added entries : List (String × Value)} : EditedFields fields kept →
      (∀ entry ∈ added, entry.1 ∉ Mapping.keys fields) → (kept ++ added).Perm entries →
      Edited (.mapping fields) (.mapping entries)

inductive EditedFields : List (String × Value) → List (String × Value) → Prop where
  | nil : EditedFields [] []
  | kept (key : String) {v w : Value} {fields kept : List (String × Value)} : Edited v w →
      EditedFields fields kept → EditedFields ((key, v) :: fields) ((key, w) :: kept)
  | leftOut (key : String) (v : Value) {fields kept : List (String × Value)} :
      EditedFields fields kept → EditedFields ((key, v) :: fields) kept

end

/-- Whether the names lead to a value, through one mapping after the other. -/
def gives : Value → List String → Bool
  | _, [] => true
  | v, name :: place =>
    match v.get? name with
    | some w => gives w place
    | none => false

theorem gives_mapping (entries : List (String × Value)) (name : String) (place : List String) :
    (mapping entries).gives (name :: place) =
      match Mapping.get? entries name with
      | some w => w.gives place
      | none => false := rfl

mutual

theorem Edited.refl : (v : Value) → Edited v v
  | .mapping entries =>
    .mapping (EditedFields.refl entries) (List.forall_mem_nil _) (by rw [List.append_nil])
  | .null | .boolean _ | .integer _ | .float _ | .text _ | .sequence _ => .same Kind.noConfusion

theorem EditedFields.refl : (entries : List (String × Value)) → EditedFields entries entries
  | [] => .nil
  | (key, v) :: rest => .kept key (Edited.refl v) (EditedFields.refl rest)

end

theorem Edited.eq_of_leaf {v w : Value} (h : Edited v w) (hv : v.kind ≠ .mapping) : w = v := by
  cases h with
  | same _ => rfl
  | mapping _ _ _ => exact absurd rfl hv

theorem Edited.exists_entries {fields : List (String × Value)} {v : Value}
    (h : Edited (.mapping fields) v) : ∃ entries, v = .mapping entries := by
  cases h with
  | same hkind => exact absurd rfl hkind
  | @mapping _ _ _ entries _ _ _ => exact ⟨entries, rfl⟩

theorem EditedFields.none_named {fields kept : List (String × Value)}
    (h : EditedFields fields kept) {name : String} (hname : name ∉ Mapping.keys fields) :
    kept.filter (·.1 = name) = [] := by
  induction fields generalizing kept with
  | nil =>
    cases h
    rfl
  | cons field fields ih =>
    rw [Mapping.keys, List.map_cons, List.mem_cons, not_or] at hname
    cases h with
    | kept key _ hrest =>
      rw [List.filter_cons_of_neg (by simpa using Ne.symm hname.1)]
      exact ih hrest hname.2
    | leftOut key v hrest => exact ih hrest hname.2

theorem EditedFields.named {fields kept : List (String × Value)} (h : EditedFields fields kept)
    (hkeys : (Mapping.keys fields).Nodup) {name : String} {v : Value} (hv : (name, v) ∈ fields) :
    kept.filter (·.1 = name) = [] ∨
      ∃ w, kept.filter (·.1 = name) = [(name, w)] ∧ Edited v w := by
  induction fields generalizing kept with
  | nil => cases hv
  | cons field fields ih =>
    rw [Mapping.keys, List.map_cons, List.nodup_cons] at hkeys
    rcases List.mem_cons.mp hv with rfl | hmem
    · cases h with
      | @kept _ _ w _ _ hw hrest =>
        refine Or.inr ⟨w, ?_, hw⟩
        rw [List.filter_cons_of_pos (by simp), hrest.none_named hkeys.1]
      | leftOut _ _ hrest => exact Or.inl (hrest.none_named hkeys.1)
    · have hother : field.1 ≠ name := by
        rintro rfl
        exact hkeys.1 (List.mem_map.mpr ⟨_, hmem, rfl⟩)
      cases h with
      | kept key _ hrest =>
        rw [List.filter_cons_of_neg (by simpa using hother)]
        exact ih hrest hkeys.2 hmem
      | leftOut key w hrest => exact ih hrest hkeys.2 hmem

/-- What was put in and where fields stand makes no difference to a field that is known. -/
theorem Edited.named {fields entries : List (String × Value)}
    (h : Edited (.mapping fields) (.mapping entries)) (hkeys : (Mapping.keys fields).Nodup)
    {name : String} {v : Value} (hv : (name, v) ∈ fields) :
    entries.filter (·.1 = name) = [] ∨
      ∃ w, entries.filter (·.1 = name) = [(name, w)] ∧ Edited v w := by
  cases h with
  | same hkind => exact absurd rfl hkind
  | @mapping _ kept added _ hkept hadded hperm =>
    have hname : name ∈ Mapping.keys fields := List.mem_map_of_mem hv
    have hnone : added.filter (·.1 = name) = [] := by
      rw [List.filter_eq_nil_iff]
      intro entry hentry heq
      rw [decide_eq_true_eq] at heq
      exact hadded entry hentry (heq ▸ hname)
    have hfilter : (kept.filter (·.1 = name)).Perm (entries.filter (·.1 = name)) := by
      have hall := hperm.filter (·.1 = name)
      rwa [List.filter_append, hnone, List.append_nil] at hall
    rcases hkept.named hkeys hv with hleft | ⟨w, hw, hedited⟩
    · rw [hleft] at hfilter
      exact Or.inl hfilter.nil_eq.symm
    · rw [hw] at hfilter
      exact Or.inr ⟨w, List.perm_singleton.mp hfilter.symm, hedited⟩

end Value

theorem Mapping.get?_eq_head (m : Mapping) (name : String) :
    Mapping.get? m name = (m.filter (·.1 = name)).head?.map Prod.snd := by
  induction m with
  | nil => rfl
  | cons entry rest ih =>
    obtain ⟨key, v⟩ := entry
    by_cases h : key = name
    · simp [Mapping.get?, h]
    · simp [Mapping.get?, h, ih]

/-! ## Settings at their places -/

/-- The settings at the places that are given, and the defaults at all others. -/
def Resolution.Options.keeping (o : Resolution.Options) (given : List String → Bool) :
    Resolution.Options where
  throwOnMissing :=
    if given ["throw_on_missing"] then o.throwOnMissing else ({} : Options).throwOnMissing
  emptyPath := if given ["empty_path"] then o.emptyPath else ({} : Options).emptyPath

theorem Resolution.Options.keeping_nothing (o : Resolution.Options) :
    (o.keeping fun _ => false) = {} := rfl

def Tag.Options.keeping (o : Tag.Options) (given : List String → Bool) : Tag.Options where
  emptyTokens := if given ["empty_tokens"] then o.emptyTokens else ({} : Options).emptyTokens

theorem Tag.Options.keeping_nothing (o : Tag.Options) : (o.keeping fun _ => false) = {} := rfl

def Cache.Settings.keeping (s : Cache.Settings) (given : List String → Bool) : Cache.Settings where
  baseDirectory := if given ["base_dir"] then s.baseDirectory else ({} : Settings).baseDirectory
  extension := if given ["default_extension"] then s.extension else ({} : Settings).extension
  queries := s.queries.keeping fun place => given ("engine" :: place)

theorem Cache.Settings.keeping_nothing (s : Cache.Settings) :
    (s.keeping fun _ => false) = {} := rfl

namespace Settings

def keeping (s : Settings) (given : List String → Bool) : Settings where
  queries := s.queries.keeping fun place => given ("engine" :: place)
  tags := s.tags.keeping fun place => given ("tags" :: place)
  cache := s.cache.keeping fun place => given ("cache" :: place)

theorem keeping_all (s : Settings) : s.keeping s.toValue.gives = s := by
  simp [keeping, Resolution.Options.keeping, Tag.Options.keeping, Cache.Settings.keeping, toValue,
    Resolution.Options.toValue, Tag.Options.toValue, Cache.Settings.toValue, Value.gives,
    Value.get?, Value.mapping?, Mapping.get?]

/-! ## Reading one field -/

open Json (node entryNodes)
open Value (Edited)

theorem formOf_text (s : String) : formOf (node (.text s)) = .leaf (some s) none (some s) false := by
  rw [node, formOf, Json.decode?_encode, String.ofList_toList]

theorem fieldsOf?_entryNodes (entries : List (String × Value)) :
    fieldsOf? (entryNodes entries) =
      some (entries.map fun entry => (entry.1, formOf (node entry.2))) := by
  induction entries with
  | nil => rfl
  | cons entry rest ih =>
    rw [entryNodes, fieldsOf?, Json.decode?_encode, String.ofList_toList, ih]
    rfl

theorem formOf_mapping (entries : List (String × Value)) : ∃ word?,
    formOf (node (.mapping entries)) =
      .fields (entries.map fun entry => (entry.1, formOf (node entry.2))) word? := by
  refine ⟨wordOf? (entryNodes entries), ?_⟩
  rw [node, formOf, fieldsOf?_entryNodes]

variable {α : Type} {fields entries : List (String × Value)} {name : String} {v : Value}

theorem field?_edited (h : Edited (.mapping fields) (.mapping entries))
    (hkeys : (Mapping.keys fields).Nodup) {position : Nat} (hv : fields[position]? = some (name, v))
    (read : Form → Option α) (default : α) :
    Mapping.get? entries name = none ∧
        (formOf (node (.mapping entries))).field? read default position name = some default ∨
      ∃ w, Mapping.get? entries name = some w ∧ Edited v w ∧
        (formOf (node (.mapping entries))).field? read default position name =
          read (formOf (node w)) := by
  obtain ⟨word?, hform⟩ := formOf_mapping entries
  have hfilter : (entries.map fun entry => (entry.1, formOf (node entry.2))).filter (·.1 = name) =
      (entries.filter (·.1 = name)).map fun entry => (entry.1, formOf (node entry.2)) := by
    rw [List.filter_map]
    rfl
  rw [hform, Mapping.get?_eq_head, Form.field?, hfilter]
  rcases h.named hkeys (List.mem_of_getElem? hv) with hnone | ⟨w, hw, hedited⟩
  · rw [hnone]
    exact Or.inl ⟨rfl, rfl⟩
  · rw [hw]
    exact Or.inr ⟨w, rfl, hedited, rfl⟩

theorem section_field? (h : Edited (.mapping fields) (.mapping entries))
    (hkeys : (Mapping.keys fields).Nodup) (position : Nat)
    (hv : fields[position]? = some (name, v)) {read : Form → Option α} {default : α}
    (keep : (List String → Bool) → α)
    (hread : ∀ w, Edited v w → read (formOf (node w)) = some (keep w.gives))
    (hnothing : (keep fun _ => false) = default) :
    (formOf (node (.mapping entries))).field? read default position name =
      some (keep fun place => (Value.mapping entries).gives (name :: place)) := by
  rcases field?_edited h hkeys hv read default with ⟨hget, hfield⟩ | ⟨w, hget, hedited, hfield⟩
  · have hgives (place : List String) : (Value.mapping entries).gives (name :: place) = false := by
      rw [Value.gives_mapping, hget]
    rw [hfield, funext hgives, hnothing]
  · have hgives (place : List String) :
        (Value.mapping entries).gives (name :: place) = w.gives place := by
      rw [Value.gives_mapping, hget]
    rw [hfield, hread w hedited, funext hgives]

theorem leaf_field? (h : Edited (.mapping fields) (.mapping entries))
    (hkeys : (Mapping.keys fields).Nodup) (position : Nat)
    (hv : fields[position]? = some (name, v)) (hleaf : v.kind ≠ .mapping)
    (read : Form → Option α) {a : α} (hread : read (formOf (node v)) = some a) (default : α) :
    (formOf (node (.mapping entries))).field? read default position name =
      some (if (Value.mapping entries).gives [name] then a else default) := by
  refine section_field? h hkeys position hv (fun given => if given [] then a else default) ?_ rfl
  intro w hw
  rw [hw.eq_of_leaf hleaf, hread]
  rfl

/-! ## Reading the sections -/

theorem section?_formOf (entries : List (String × Value)) (size : Nat) :
    (formOf (node (.mapping entries))).section? size = some (formOf (node (.mapping entries))) := by
  obtain ⟨word?, hform⟩ := formOf_mapping entries
  rw [hform]
  rfl

theorem text?_text (s : String) : (formOf (node (.text s))).text? = some s := by
  rw [formOf_text]
  rfl

theorem choice?_text (choices : List (String × α)) (word : String) :
    (formOf (node (.text word))).choice? choices = choices.lookup word := by
  rw [formOf_text]
  rfl

theorem queries?_edited {o : Resolution.Options} (h : Edited o.toValue v) :
    (formOf (node v)).queries? = some (o.keeping v.gives) := by
  obtain ⟨entries, rfl⟩ := h.exists_entries
  have hkeys : ["throw_on_missing", "empty_path"].Nodup := by decide
  have hthrow := leaf_field? h hkeys 0 rfl Kind.noConfusion Form.flag? rfl true
  have hempty := leaf_field? h hkeys 1 rfl Kind.noConfusion
    (Form.choice? [("resolve_to_empty_string", .emptyText), ("reject", .reject)])
    (a := o.emptyPath) (by rw [choice?_text]; cases o.emptyPath <;> rfl) EmptyPath.emptyText
  simp only [Form.queries?, section?_formOf, hthrow, hempty, Option.bind_eq_bind, Option.bind_some]
  rfl

theorem tags?_edited {o : Tag.Options} (h : Edited o.toValue v) :
    (formOf (node v)).tags? = some (o.keeping v.gives) := by
  obtain ⟨entries, rfl⟩ := h.exists_entries
  have hkeys : ["empty_tokens"].Nodup := by decide
  have hempty := leaf_field? h hkeys 0 rfl Kind.noConfusion
    (Form.choice? [("keep", .keep), ("reject", .reject)])
    (a := o.emptyTokens) (by rw [choice?_text]; cases o.emptyTokens <;> rfl) Tag.EmptyTokens.keep
  simp only [Form.tags?, section?_formOf, hempty, Option.bind_eq_bind, Option.bind_some]
  rfl

theorem cache?_edited {s : Cache.Settings} (h : Edited s.toValue v) :
    (formOf (node v)).cache? = some (s.keeping v.gives) := by
  obtain ⟨entries, rfl⟩ := h.exists_entries
  have hkeys : ["base_dir", "default_extension", "engine"].Nodup := by decide
  have hbase := leaf_field? h hkeys 0 rfl Kind.noConfusion Form.text? (text?_text s.baseDirectory) ""
  have hextension := leaf_field? h hkeys 1 rfl Kind.noConfusion Form.text?
    (text?_text s.extension) Cache.standardExtension
  have hqueries := section_field? h hkeys 2 rfl s.queries.keeping
    (fun w hw => queries?_edited hw) s.queries.keeping_nothing
  simp only [Form.cache?, section?_formOf, hbase, hextension, hqueries, Option.bind_eq_bind,
    Option.bind_some]
  rfl

theorem settings?_edited {s : Settings} (h : Edited s.toValue v) :
    (formOf (node v)).settings? = some (s.keeping v.gives) := by
  obtain ⟨entries, rfl⟩ := h.exists_entries
  have hkeys : ["engine", "tags", "cache"].Nodup := by decide
  have hqueries := section_field? h hkeys 0 rfl s.queries.keeping
    (fun w hw => queries?_edited hw) s.queries.keeping_nothing
  have htags := section_field? h hkeys 1 rfl s.tags.keeping
    (fun w hw => tags?_edited hw) s.tags.keeping_nothing
  have hcache := section_field? h hkeys 2 rfl s.cache.keeping
    (fun w hw => cache?_edited hw) s.cache.keeping_nothing
  simp only [Form.settings?, section?_formOf, hqueries, htags, hcache, Option.bind_eq_bind,
    Option.bind_some]
  rfl

/-- A text that is laid out, with any white space, from an edited form of the settings. -/
structure Draft (s : Settings) (v : Value) (text : String) : Prop where
  edited : Edited s.toValue v
  laid_out : Json.Spaced (Json.tokens v) text.toList

theorem Draft.ofJson_eq {s : Settings} {text : String} (h : Draft s v text) :
    ofJson text = .ok (s.keeping v.gives) := by
  rw [ofJson, Json.Node.read?_spaced h.laid_out, Option.bind_some, settings?_edited h.edited]

/-- Settings are read back from their own JSON text, compact or pretty. From a text in which, at
any level, fields are left out, unknown ones are put in and the order is changed, the settings that
are given are read as they were, and those left out have their defaults. The query settings of the
cache depend on nothing outside their section, and those beside the cache on nothing inside it. -/
theorem settings_read_back (s : Settings) :
    ofJson s.toValue.json = .ok s ∧ ofJson s.toValue.pretty = .ok s ∧
    (∀ v text, Draft s v text → ofJson text = .ok (s.keeping v.gives)) ∧
    ∀ t v w text other, Draft s v text → Draft t w other →
      (s.cache.queries = t.cache.queries →
        (∀ place, v.gives ("cache" :: "engine" :: place) = w.gives ("cache" :: "engine" :: place)) →
        (ofJson text).map (·.cache.queries) = (ofJson other).map (·.cache.queries)) ∧
      (s.queries = t.queries →
        (∀ place, v.gives ("engine" :: place) = w.gives ("engine" :: place)) →
        (ofJson text).map (·.queries) = (ofJson other).map (·.queries)) := by
  have hwhole (text : String) (h : Json.Spaced (Json.tokens s.toValue) text.toList) :
      ofJson text = .ok s := by
    have hdraft : Draft s s.toValue text := ⟨Edited.refl _, h⟩
    rw [hdraft.ofJson_eq, keeping_all]
  refine ⟨hwhole _ (Json.json_spaced _), hwhole _ (Json.pretty_spaced _), ?_, ?_⟩
  · intro v text h
    exact h.ofJson_eq
  · intro t v w text other h hother
    rw [h.ofJson_eq, hother.ofJson_eq]
    constructor
    · intro hqueries hplaces
      simp only [Except.map, keeping, Cache.Settings.keeping, hqueries, hplaces]
    · intro hqueries hplaces
      simp only [Except.map, keeping, hqueries, hplaces]

/-- A query setting that stands in the cache section itself is an unknown field. The query settings
of the cache, of which nothing is given, are the defaults, whatever stands beside the cache. -/
theorem misplaced_field_not_read :
    let s : Settings :=
      { queries := { throwOnMissing := false, emptyPath := .reject }, tags := { emptyTokens := .reject }
        cache := { baseDirectory := "a\"b", extension := ".json", queries := .lenient } }
    let v : Value := .mapping
      [("\n", .text "\x00"),
        ("cache", .mapping [("throw_on_missing", .boolean false), ("base_dir", .text "a\"b")]),
        ("engine", .mapping [("empty_path", .text "reject")])]
    Draft s v v.pretty ∧
      ofJson v.pretty =
        .ok { queries := { emptyPath := .reject }, cache := { baseDirectory := "a\"b" } } := by
  intro s v
  have hcache : Edited s.cache.toValue
      (.mapping [("throw_on_missing", .boolean false), ("base_dir", .text "a\"b")]) :=
    @Edited.mapping _ [("base_dir", .text "a\"b")] [("throw_on_missing", .boolean false)] _
      (.kept "base_dir" (.refl _) (.leftOut _ _ (.leftOut _ _ .nil))) (by decide)
      (List.Perm.swap _ _ [])
  have hqueries : Edited s.queries.toValue (.mapping [("empty_path", .text "reject")]) :=
    @Edited.mapping _ [("empty_path", .text "reject")] [] _
      (.leftOut _ _ (.kept "empty_path" (.refl _) .nil)) (by decide) (List.Perm.refl _)
  have hv : Edited s.toValue v :=
    @Edited.mapping _ _ [("\n", .text "\x00")] _
      (.kept "engine" hqueries (.leftOut _ _ (.kept "cache" hcache .nil))) (by decide)
      (List.reverse_perm _).symm
  have hdraft : Draft s v v.pretty := ⟨hv, Json.pretty_spaced v⟩
  refine ⟨hdraft, ?_⟩
  rw [(settings_read_back s).2.2.1 v v.pretty hdraft]
  rfl

end Settings

end DocQuery
