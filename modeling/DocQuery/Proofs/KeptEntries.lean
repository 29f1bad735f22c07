import DocQuery.Proofs.DistinctKeys
import DocQuery.Proofs.Numerals
import Mathlib.Data.List.Induction

/-! # Entries with scalar keys

What a YAML mapping becomes is said in two steps. First its entries are taken one by one, in their
order: an entry with a scalar key gives a row of text and value, another one is left out. Then the
rows are merged: every text stands once, where it stood first, with the value that it had last.
Conversion does both at once, and notes the keys it left out on the way. -/

namespace DocQuery

namespace Mapping

/-- The mapping of a list of rows: each text in the place of its first row, with the value of its
last. -/
structure Merges (rows : List (String × Value)) (m : Mapping) : Prop where
  keys : keys m = (rows.map Prod.fst).eraseDups
  values : ∀ before text value after, rows = before ++ (text, value) :: after →
    text ∉ after.map Prod.fst → (text, value) ∈ m

theorem keys_ofEntries (rows : List (String × Value)) :
    keys (ofEntries rows) = (rows.map Prod.fst).eraseDups := by
  -- from the right: the last row is a new key or one that has its place already
  induction rows using List.reverseRecOn with
  | nil => rfl
  | append_singleton rows row ih =>
    obtain ⟨k, v⟩ := row
    have hlast : ofEntries (rows ++ [(k, v)]) = insert (ofEntries rows) k v := by
      rw [ofEntries, List.foldl_append]
      rfl
    rw [hlast, keys_insert, ih, List.map_append, List.eraseDups_append]
    by_cases hk : k ∈ rows.map Prod.fst
    · rw [if_pos (List.mem_eraseDups.mpr hk)]
      simp [List.cons_removeAll, hk]
    · rw [if_neg (mt List.mem_eraseDups.mp hk)]
      simp [List.cons_removeAll, hk, List.eraseDups_cons]

theorem nodup_ofEntries (rows : List (String × Value)) : (keys (ofEntries rows)).Nodup := by
  induction rows using List.reverseRecOn with
  | nil => exact List.nodup_nil
  | append_singleton rows row ih =>
    rw [ofEntries, List.foldl_append]
    exact nodup_insert ih row.1 row.2

theorem get?_foldl_insert_of_not_mem {text : String} (rows : List (String × Value)) (m : Mapping)
    (h : text ∉ rows.map Prod.fst) :
    get? (rows.foldl (fun m (k, v) => insert m k v) m) text = get? m text := by
  induction rows generalizing m with
  | nil => rfl
  | cons row rest ih =>
    obtain ⟨k, v⟩ := row
    obtain ⟨hk, hrest⟩ := not_or.mp (mt List.mem_cons.mpr h)
    rw [List.foldl_cons, ih _ hrest, get?_insert_of_ne _ _ hk]

theorem merges_ofEntries (rows : List (String × Value)) : Merges rows (ofEntries rows) where
  keys := keys_ofEntries rows
  values := by
    rintro before text value after rfl hlast
    rw [← get?_some_iff (nodup_ofEntries _), ofEntries, List.foldl_append, List.foldl_cons,
      get?_foldl_insert_of_not_mem after _ hlast, get?_insert_self]

theorem exists_last_row {text : String} {rows : List (String × Value)}
    (h : text ∈ rows.map Prod.fst) : ∃ before value after,
      rows = before ++ (text, value) :: after ∧ text ∉ after.map Prod.fst := by
  induction rows with
  | nil => cases h
  | cons row rest ih =>
    by_cases hrest : text ∈ rest.map Prod.fst
    · obtain ⟨before, value, after, rfl, hlast⟩ := ih hrest
      exact ⟨row :: before, value, after, rfl, hlast⟩
    · obtain ⟨k, v⟩ := row
      rcases List.mem_cons.mp h with rfl | h
      · exact ⟨[], v, rest, rfl, hrest⟩
      · exact absurd h hrest

theorem eq_of_subset {m n : Mapping} (hkeys : keys m = keys n) (hm : (keys m).Nodup)
    (h : ∀ entry ∈ m, entry ∈ n) : m = n := by
  induction m generalizing n with
  | nil => exact (List.map_eq_nil_iff.mp hkeys.symm).symm
  | cons entry m ih =>
    obtain ⟨k, v⟩ := entry
    cases n with
    | nil => cases hkeys
    | cons other n =>
      obtain ⟨k', v'⟩ := other
      obtain ⟨hk, hrest⟩ := List.cons.inj hkeys
      obtain ⟨hout, hnodup⟩ := List.nodup_cons.mp hm
      dsimp only at hk hout
      subst hk
      have hhead : v = v' := by
        rcases List.mem_cons.mp (h (k, v) List.mem_cons_self) with he | hin
        · exact (Prod.mk.inj he).2
        · have hin' : k ∈ List.map Prod.fst n := List.mem_map.mpr ⟨_, hin, rfl⟩
          rw [← hrest] at hin'
          exact absurd hin' hout
      have htail : m = n := by
        refine ih hrest hnodup ?_
        intro entry hentry
        refine (List.mem_cons.mp (h entry (List.mem_cons_of_mem _ hentry))).resolve_left ?_
        rintro rfl
        exact hout (List.mem_map.mpr ⟨_, hentry, rfl⟩)
      rw [hhead, htail]

theorem Merges.unique {rows : List (String × Value)} {m n : Mapping} (hm : Merges rows m)
    (hn : Merges rows n) : m = n := by
  have hnodup : (Mapping.keys m).Nodup := by
    rw [hm.keys, ← keys_ofEntries]
    exact nodup_ofEntries rows
  refine eq_of_subset (hm.keys.trans hn.keys.symm) hnodup ?_
  rintro ⟨text, value⟩ hentry
  have htext : text ∈ rows.map Prod.fst := by
    rw [← List.mem_eraseDups, ← hm.keys]
    exact List.mem_map.mpr ⟨_, hentry, rfl⟩
  obtain ⟨before, last, after, hrows, hlast⟩ := exists_last_row htext
  have hvalue : value = last := by
    have hfound := (get?_some_iff hnodup text value).mpr hentry
    rw [(get?_some_iff hnodup text last).mpr (hm.values _ _ _ _ hrows hlast)] at hfound
    exact (Option.some.inj hfound).symm
  rw [hvalue]
  exact hn.values _ _ _ _ hrows hlast

end Mapping

namespace Yaml.Tree

open Mapping (Merges)

/-- The text of a scalar key. An integer has its decimal numeral. -/
inductive Names : Tree → String → Prop where
  | null : Names .null "null"
  | true : Names (.boolean true) "true"
  | false : Names (.boolean false) "false"
  | natural (n : UInt64) : Names (.number (.natural n)) (toString n.toNat)
  | negative (n : Int64) : Names (.number (.negative n)) (toString n.toInt)
  | float (x : Float) : Names (.number (.float x)) (String.ofList (keyLayout.write x))
  | text (s : String) : Names (.text s) s
  | tagged (tag : String) {inner : Tree} {s : String} : Names inner s → Names (.tagged tag inner) s

inductive Compound : Tree → Prop where
  | sequence (items : List Tree) : Compound (.sequence items)
  | mapping (entries : List (Tree × Tree)) : Compound (.mapping entries)
  | tagged (tag : String) {inner : Tree} : Compound inner → Compound (.tagged tag inner)

mutual

/-- The value of a tree, and the keys of the entries that are left out in it. -/
inductive Becomes : Tree → Value → List Tree → Prop where
  | null : Becomes .null .null []
  | boolean (b : Bool) : Becomes (.boolean b) (.boolean b) []
  | number (n : Numeric) : Becomes (.number n) n.toValue []
  | text (s : String) : Becomes (.text s) (.text s) []
  | sequence {items : List Tree} {values : List Value} {skipped : List Tree} :
      BecomesItems items values skipped → Becomes (.sequence items) (.sequence values) skipped
  | mapping {entries : List (Tree × Tree)} {rows : List (String × Value)} {skipped : List Tree}
      {m : Mapping} : BecomesRows entries rows skipped → Merges rows m →
      Becomes (.mapping entries) (.mapping m) skipped
  | tagged (tag : String) {inner : Tree} {v : Value} {skipped : List Tree} :
      Becomes inner v skipped → Becomes (.tagged tag inner) v skipped

inductive BecomesItems : List Tree → List Value → List Tree → Prop where
  | nil : BecomesItems [] [] []
  | cons {t : Tree} {v : Value} {skipped skipped' : List Tree} {items : List Tree}
      {values : List Value} : Becomes t v skipped → BecomesItems items values skipped' →
      BecomesItems (t :: items) (v :: values) (skipped ++ skipped')

inductive BecomesRows : List (Tree × Tree) → List (String × Value) → List Tree → Prop where
  | nil : BecomesRows [] [] []
  | kept {key t : Tree} {text : String} {v : Value} {skipped skipped' : List Tree}
      {entries : List (Tree × Tree)} {rows : List (String × Value)} : Names key text →
      Becomes t v skipped → BecomesRows entries rows skipped' →
      BecomesRows ((key, t) :: entries) ((text, v) :: rows) (skipped ++ skipped')
  | left_out {key t : Tree} {skipped : List Tree} {entries : List (Tree × Tree)}
      {rows : List (String × Value)} : Compound key → BecomesRows entries rows skipped →
      BecomesRows ((key, t) :: entries) rows (key :: skipped)

end

theorem Names.keyText {key : Tree} {text : String} (h : Names key text) :
    keyText? key = some text := by
  induction h with
  | natural n => exact congrArg some (Number.natText_eq n.toNat)
  | negative n => exact congrArg some (Number.intText_eq n.toInt)
  | tagged tag _ ih => exact ih
  | _ => rfl

theorem Compound.keyText {key : Tree} (h : Compound key) : keyText? key = none := by
  induction h with
  | tagged tag _ ih => exact ih
  | _ => rfl

theorem names_or_compound : (key : Tree) → (∃ text, Names key text) ∨ Compound key
  | .null => Or.inl ⟨_, .null⟩
  | .boolean true => Or.inl ⟨_, .true⟩
  | .boolean false => Or.inl ⟨_, .false⟩
  | .number (.natural n) => Or.inl ⟨_, .natural n⟩
  | .number (.negative n) => Or.inl ⟨_, .negative n⟩
  | .number (.float x) => Or.inl ⟨_, .float x⟩
  | .text s => Or.inl ⟨_, .text s⟩
  | .sequence items => Or.inr (.sequence items)
  | .mapping entries => Or.inr (.mapping entries)
  | .tagged tag inner => by
    rcases names_or_compound inner with ⟨text, h⟩ | h
    · exact Or.inl ⟨text, .tagged tag h⟩
    · exact Or.inr (.tagged tag h)

mutual

theorem Becomes.convert_eq : {t : Tree} → {v : Value} → {skipped : List Tree} →
    Becomes t v skipped → convert t = ⟨v, skipped⟩
  | _, _, _, .null => rfl
  | _, _, _, .boolean _ => rfl
  | _, _, _, .number _ => rfl
  | _, _, _, .text _ => rfl
  | _, _, _, .sequence h => by rw [convert, h.convertItems_eq]
  | _, _, _, .mapping h hm => by
    rw [convert, h.convertEntries_eq [], hm.unique (Mapping.merges_ofEntries _)]
    rfl
  | _, _, _, .tagged _ h => by rw [convert, h.convert_eq]

theorem BecomesItems.convertItems_eq : {items : List Tree} → {values : List Value} →
    {skipped : List Tree} → BecomesItems items values skipped →
    convertItems items = ⟨values, skipped⟩
  | _, _, _, .nil => rfl
  | _, _, _, .cons h hrest => by rw [convertItems, h.convert_eq, hrest.convertItems_eq]

theorem BecomesRows.convertEntries_eq : {entries : List (Tree × Tree)} →
    {rows : List (String × Value)} → {skipped : List Tree} → BecomesRows entries rows skipped →
    ∀ done, convertEntries done entries =
      ⟨rows.foldl (fun m (k, v) => Mapping.insert m k v) done, skipped⟩
  | _, _, _, .nil, done => rfl
  | _, _, _, .kept hkey h hrest, done => by
    rw [convertEntries, hkey.keyText]
    dsimp only
    rw [h.convert_eq, hrest.convertEntries_eq]
    rfl
  | _, _, _, .left_out hkey hrest, done => by
    rw [convertEntries, hkey.keyText]
    dsimp only
    rw [hrest.convertEntries_eq]

end

mutual

theorem becomes_exists : (t : Tree) → ∃ v skipped, Becomes t v skipped
  | .null => ⟨_, _, .null⟩
  | .boolean b => ⟨_, _, .boolean b⟩
  | .number n => ⟨_, _, .number n⟩
  | .text s => ⟨_, _, .text s⟩
  | .sequence items => by
    obtain ⟨values, skipped, h⟩ := becomesItems_exists items
    exact ⟨_, _, .sequence h⟩
  | .mapping entries => by
    obtain ⟨rows, skipped, h⟩ := becomesRows_exists entries
    exact ⟨_, _, .mapping h (Mapping.merges_ofEntries rows)⟩
  | .tagged tag inner => by
    obtain ⟨v, skipped, h⟩ := becomes_exists inner
    exact ⟨_, _, .tagged tag h⟩

theorem becomesItems_exists : (items : List Tree) → ∃ values skipped,
    BecomesItems items values skipped
  | [] => ⟨_, _, .nil⟩
  | t :: rest => by
    obtain ⟨v, skipped, h⟩ := becomes_exists t
    obtain ⟨values, skipped', hrest⟩ := becomesItems_exists rest
    exact ⟨_, _, .cons h hrest⟩

theorem becomesRows_exists : (entries : List (Tree × Tree)) → ∃ rows skipped,
    BecomesRows entries rows skipped
  | [] => ⟨_, _, .nil⟩
  | (key, t) :: rest => by
    obtain ⟨rows, skipped', hrest⟩ := becomesRows_exists rest
    rcases names_or_compound key with ⟨text, hkey⟩ | hkey
    · obtain ⟨v, skipped, h⟩ := becomes_exists t
      exact ⟨_, _, .kept hkey h hrest⟩
    · exact ⟨_, _, .left_out hkey hrest⟩

end

theorem becomes_iff (t : Tree) (v : Value) (skipped : List Tree) :
    Becomes t v skipped ↔ convert t = ⟨v, skipped⟩ := by
  constructor
  · intro h
    exact h.convert_eq
  · intro h
    obtain ⟨v', skipped', hbecomes⟩ := becomes_exists t
    have heq := hbecomes.convert_eq
    rw [h] at heq
    cases heq
    exact hbecomes

/-- Conversion keeps exactly the entries with scalar keys. There is one value that a tree becomes
and one row of keys that are left out on the way; conversion gives these two, and warns of the keys
one after the other, each in the text that `debug` gives it. No mapping in the value has a key
twice. -/
theorem scalar_entries_kept (t : Tree) :
    ∃ v skipped,
      (∀ v' skipped', Becomes t v' skipped' ↔ v' = v ∧ skipped' = skipped) ∧
      convert t = ⟨v, skipped⟩ ∧
      t.toValue = ⟨v, skipped.map .skippedKey⟩ ∧
      (∀ debug, t.toValue.log.map (LogLine.text debug) =
        skipped.map fun key => "WARN Skipping non-scalar mapping key " ++ debug key) ∧
      v.Distinct := by
  refine ⟨(convert t).result, (convert t).skipped, ?_, rfl, rfl, ?_, convert_distinct t⟩
  · intro v' skipped'
    rw [becomes_iff]
    constructor
    · intro h
      rw [h]
      exact ⟨rfl, rfl⟩
    · rintro ⟨rfl, rfl⟩
      rfl
  · intro debug
    rw [toValue, List.map_map]
    refine List.map_congr_left ?_
    intro key _
    change "WARN" ++ " " ++ ("Skipping non-scalar mapping key " ++ debug key) = _
    rw [← String.append_assoc]
    rfl

/-- The last of three values for one text stands first, and the key below the first of them is
warned of; below a key that is left out nothing is. -/
example :
    let entries : List (Tree × Tree) :=
      [(.boolean true, .mapping [(.tagged "!k" (.sequence []), .null)]), (.text "x", .null),
        (.tagged "!t" (.text "true"), .text "second"),
        (.mapping [], .mapping [(.sequence [], .null)]), (.boolean true, .text "third")]
    (convert (.mapping entries)).result = .mapping [("true", .text "third"), ("x", .null)] ∧
    (convert (.mapping entries)).skipped = [.tagged "!k" (.sequence []), .mapping []] :=
  ⟨rfl, rfl⟩

end Yaml.Tree

end DocQuery
