import DocQuery.Document

/-! # Distinct keys

Entries are only ever added by `Mapping.insert`, so no mapping of a document that was read has two
entries with one key, at any depth. Among distinct keys a lookup is membership. -/

namespace DocQuery

namespace Mapping

theorem get?_none_iff (m : Mapping) (key : String) : get? m key = none ↔ key ∉ keys m := by
  induction m with
  | nil => simp [get?, keys]
  | cons entry rest ih =>
    obtain ⟨k, v⟩ := entry
    by_cases hk : k = key
    · simp [get?, keys, hk]
    · simp only [get?, if_neg hk, ih]
      simp [keys, Ne.symm hk]

theorem get?_some_iff {m : Mapping} (h : (keys m).Nodup) (key : String) (value : Value) :
    get? m key = some value ↔ (key, value) ∈ m := by
  induction m with
  | nil => simp [get?]
  | cons entry rest ih =>
    obtain ⟨k, v⟩ := entry
    obtain ⟨hk, hrest⟩ := List.nodup_cons.mp h
    by_cases he : k = key
    · subst he
      have hout : (k, value) ∉ rest := fun hm => hk (List.mem_map.mpr ⟨_, hm, rfl⟩)
      simp [get?, hout, eq_comm]
    · have hne : (key, value) ≠ (k, v) := fun hp => he (Prod.mk.inj hp).1.symm
      rw [get?, if_neg he, ih hrest, List.mem_cons, or_iff_right hne]

theorem mem_of_mem_insert {m : Mapping} {key : String} {value : Value} {entry : String × Value}
    (h : entry ∈ insert m key value) : entry = (key, value) ∨ entry ∈ m := by
  induction m with
  | nil => exact Or.inl (List.mem_singleton.mp h)
  | cons first rest ih =>
    obtain ⟨k, v⟩ := first
    rw [insert] at h
    split at h
    · next hk =>
      rcases List.mem_cons.mp h with rfl | h
      · exact Or.inl (by rw [hk])
      · exact Or.inr (List.mem_cons_of_mem _ h)
    · rcases List.mem_cons.mp h with rfl | h
      · exact Or.inr List.mem_cons_self
      · exact (ih h).imp_right (List.mem_cons_of_mem _)

theorem insert_new {m : Mapping} {key : String} (h : key ∉ keys m) (value : Value) :
    insert m key value = m ++ [(key, value)] := by
  induction m with
  | nil => rfl
  | cons entry rest ih =>
    obtain ⟨k, v⟩ := entry
    have hk : k ≠ key := fun he => h (by simp [keys, he])
    have hrest : key ∉ keys rest := fun hm => h (List.mem_cons_of_mem _ hm)
    rw [insert, if_neg hk, ih hrest, List.cons_append]

theorem nodup_insert {m : Mapping} (h : (keys m).Nodup) (key : String) (value : Value) :
    (keys (insert m key value)).Nodup := by
  rw [keys_insert]
  split
  · exact h
  · next hk =>
    refine List.nodup_append.mpr ⟨h, by simp, ?_⟩
    intro other ho k hk' he
    rw [List.mem_singleton.mp hk'] at he
    exact hk (he ▸ ho)

theorem foldl_insert_new (entries m : Mapping) (h : (keys (m ++ entries)).Nodup) :
    entries.foldl (fun m (k, v) => insert m k v) m = m ++ entries := by
  induction entries generalizing m with
  | nil => simp
  | cons entry rest ih =>
    obtain ⟨k, v⟩ := entry
    have hk : k ∉ keys m := by
      intro hm
      rw [keys, List.map_append, List.nodup_append] at h
      exact h.2.2 k hm k List.mem_cons_self rfl
    have hrest : m ++ (k, v) :: rest = (m ++ [(k, v)]) ++ rest := by simp
    rw [hrest] at h ⊢
    rw [← ih _ h, ← insert_new hk v]
    rfl

theorem ofEntries_of_nodup {entries : List (String × Value)} (h : (keys entries).Nodup) :
    ofEntries entries = entries := foldl_insert_new entries [] h

end Mapping

/-- No mapping in the value has two entries with one key. -/
inductive Value.Distinct : Value → Prop where
  | null : Distinct .null
  | boolean (b : Bool) : Distinct (.boolean b)
  | integer (n : Int64) : Distinct (.integer n)
  | float (x : Float) : Distinct (.float x)
  | text (s : String) : Distinct (.text s)
  | sequence {items : List Value} : (∀ v ∈ items, Distinct v) → Distinct (.sequence items)
  | mapping {entries : List (String × Value)} : (Mapping.keys entries).Nodup →
      (∀ entry ∈ entries, Distinct entry.2) → Distinct (.mapping entries)

namespace Value

theorem distinct_insert {m : Mapping} (h : (mapping m).Distinct) (key : String) {value : Value}
    (hv : value.Distinct) : (mapping (Mapping.insert m key value)).Distinct := by
  cases h with
  | mapping hkeys hvalues =>
    refine .mapping (Mapping.nodup_insert hkeys key value) ?_
    intro entry he
    rcases Mapping.mem_of_mem_insert he with rfl | he
    · exact hv
    · exact hvalues entry he

theorem distinct_nil : (mapping []).Distinct := .mapping List.nodup_nil (by simp)

theorem distinct_foldl {entries m : Mapping} (h : (mapping m).Distinct)
    (hv : ∀ entry ∈ entries, entry.2.Distinct) :
    (mapping (entries.foldl (fun m (k, v) => Mapping.insert m k v) m)).Distinct := by
  induction entries generalizing m with
  | nil => exact h
  | cons entry rest ih =>
    have hfirst := distinct_insert h entry.1 (hv entry List.mem_cons_self)
    exact ih hfirst (fun e he => hv e (List.mem_cons_of_mem _ he))

theorem distinct_numeric (n : Numeric) : n.toValue.Distinct := by
  cases n with
  | natural n =>
    rw [Numeric.toValue]
    split
    · exact .integer _
    · exact .float _
  | negative n => exact .integer n
  | float x => exact .float x

end Value

mutual

theorem Json.Tree.toValue_distinct : (t : Json.Tree) → t.toValue.Distinct
  | .null => .null
  | .boolean b => .boolean b
  | .number n => Value.distinct_numeric n
  | .text s => .text s
  | .array items => .sequence (Json.Tree.toValues_distinct items)
  | .object members =>
    Value.distinct_foldl Value.distinct_nil (Json.Tree.toEntries_distinct members)

theorem Json.Tree.toValues_distinct : (ts : List Json.Tree) →
    ∀ v ∈ Json.Tree.toValues ts, v.Distinct
  | [] => by simp [Json.Tree.toValues]
  | t :: rest => by
    intro v hv
    rcases List.mem_cons.mp hv with rfl | hv
    · exact Json.Tree.toValue_distinct t
    · exact Json.Tree.toValues_distinct rest v hv

theorem Json.Tree.toEntries_distinct : (members : List (String × Json.Tree)) →
    ∀ entry ∈ Json.Tree.toEntries members, entry.2.Distinct
  | [] => by simp [Json.Tree.toEntries]
  | (key, t) :: rest => by
    intro entry he
    rcases List.mem_cons.mp he with rfl | he
    · exact Json.Tree.toValue_distinct t
    · exact Json.Tree.toEntries_distinct rest entry he

end

mutual

theorem Yaml.Tree.convert_distinct : (t : Yaml.Tree) → t.convert.result.Distinct
  | .null => .null
  | .boolean b => .boolean b
  | .number n => Value.distinct_numeric n
  | .text s => .text s
  | .sequence items => .sequence (Yaml.Tree.convertItems_distinct items)
  | .mapping entries => Yaml.Tree.convertEntries_distinct Value.distinct_nil entries
  | .tagged _ inner => Yaml.Tree.convert_distinct inner

theorem Yaml.Tree.convertItems_distinct : (ts : List Yaml.Tree) →
    ∀ v ∈ (Yaml.Tree.convertItems ts).result, v.Distinct
  | [] => by simp [Yaml.Tree.convertItems]
  | t :: rest => by
    intro v hv
    rcases List.mem_cons.mp hv with rfl | hv
    · exact Yaml.Tree.convert_distinct t
    · exact Yaml.Tree.convertItems_distinct rest v hv

theorem Yaml.Tree.convertEntries_distinct {done : Mapping} (h : (Value.mapping done).Distinct) :
    (entries : List (Yaml.Tree × Yaml.Tree)) →
      (Value.mapping (Yaml.Tree.convertEntries done entries).result).Distinct
  | [] => h
  | (key, t) :: rest => by
    rw [Yaml.Tree.convertEntries]
    split
    · exact Yaml.Tree.convertEntries_distinct h rest
    · next name _ =>
      have hnext := Value.distinct_insert h name (Yaml.Tree.convert_distinct t)
      exact Yaml.Tree.convertEntries_distinct hnext rest

end

namespace Document

theorem ofValue_distinct {key : String} {v : Value} {d : Document} (h : v.Distinct)
    (hd : ofValue key v = .ok d) : (Value.mapping d.root).Distinct := by
  cases v with
  | mapping root =>
    cases hd
    exact h
  | null =>
    cases hd
    exact Value.distinct_nil
  | _ => cases hd

theorem ofJson_distinct {text : String} {d : Document} (h : ofJson text = .ok d) :
    (Value.mapping d.root).Distinct := by
  rw [ofJson] at h
  split at h
  · next tree _ => exact ofValue_distinct tree.toValue_distinct h
  · cases h

theorem ofYaml_distinct {text : String} {d : Document} (h : (ofYaml text).result = .ok d) :
    (Value.mapping d.root).Distinct := by
  rw [ofYaml] at h
  split at h
  · next tree _ => exact ofValue_distinct tree.convert_distinct h
  · cases h

end Document

end DocQuery
