import DocQuery.Proofs.NumberTexts
import DocQuery.Proofs.PathWalk
import DocQuery.Proofs.TextPieces

/-! # Paths to scalar keys

A number, a boolean or null as a key is stored under its text. That text never holds a bracket, and
a point only if the key is a float, so it is a path of one name unless a float is written with a
point: then the path goes from name to name of the pieces. -/

namespace DocQuery

namespace Yaml.Tree

def untagged : Tree → Tree
  | tagged _ inner => untagged inner
  | t => t

def isBare : Tree → Bool
  | null | boolean _ | number _ => true
  | _ => false

def isFloat : Tree → Bool
  | number (.float _) => true
  | _ => false

theorem keyText?_untagged (t : Tree) : keyText? t.untagged = keyText? t := by
  induction t using untagged.induct with
  | case1 _ inner ih => rw [untagged, ih, keyText?]
  | case2 t h =>
    rw [untagged]
    exact h

theorem convert_untagged (t : Tree) : convert t.untagged = convert t := by
  induction t using untagged.induct with
  | case1 _ inner ih => rw [untagged, ih, convert]
  | case2 t h =>
    rw [untagged]
    exact h

/-! ## The text of a scalar key -/

theorem numeral_plain (n : Nat) {c : Char} (hc : c.isDigit = false) : c ∉ Number.numeral n :=
  Number.not_mem_digits (Number.numeral_digits n) hc

/-- The characters that mean something in a path: no key text of a number, a boolean or null has a
bracket, and none but that of a float has a point. -/
theorem keyText_separators {t : Tree} (ht : t.isBare = true) :
    ∃ text, keyText? t = some text ∧ text.toList ≠ [] ∧ '[' ∉ text.toList ∧
      (t.isFloat = false → '.' ∉ text.toList) := by
  cases t with
  | null => exact ⟨"null", rfl, by simp⟩
  | boolean b =>
    cases b with
    | true => exact ⟨"true", rfl, by simp⟩
    | false => exact ⟨"false", rfl, by simp⟩
  | number n =>
    refine ⟨numberText n, rfl, ?_⟩
    cases n with
    | natural n =>
      simp only [numberText, Number.natText, String.toList_ofList]
      exact ⟨Number.numeral_ne_nil _, numeral_plain _ rfl, fun _ => numeral_plain _ rfl⟩
    | negative n =>
      simp only [numberText, Number.intNumeral, String.toList_ofList]
      have hbracket := numeral_plain n.toInt.natAbs (c := '[') rfl
      have hpoint := numeral_plain n.toInt.natAbs (c := '.') rfl
      split
      · exact ⟨List.cons_ne_nil _ _, by simpa using hbracket, fun _ => by simpa using hpoint⟩
      · exact ⟨Number.numeral_ne_nil _, hbracket, fun _ => hpoint⟩
    | float x =>
      simp only [numberText, String.toList_ofList]
      have hfloat : (number (.float x)).isFloat ≠ false := Bool.noConfusion
      rcases Number.write_cases keyLayout x with hnumber | hword
      · refine ⟨?_, ?_, fun h => absurd h hfloat⟩
        · obtain ⟨c, rest, hs, _⟩ := hnumber.head
          rw [hs]
          exact List.cons_ne_nil _ _
        · intro hc
          cases hnumber.chars '[' hc
      · have hwords : ∀ word ∈ [keyLayout.nan.toList, keyLayout.infinity.toList,
            keyLayout.minusInfinity.toList], word ≠ [] ∧ '[' ∉ word := by simp [keyLayout]
        obtain ⟨hne, hbracket⟩ := hwords _ hword
        exact ⟨hne, hbracket, fun h => absurd h hfloat⟩
  | _ => cases ht

/-! ## The entry of a key -/

theorem convertEntries_get?_of_ne {text : String} (entries : List (Tree × Tree)) (done : Mapping)
    (h : ∀ entry ∈ entries, keyText? entry.1 ≠ some text) :
    Mapping.get? (convertEntries done entries).result text = Mapping.get? done text := by
  induction entries generalizing done with
  | nil => rfl
  | cons entry rest ih =>
    obtain ⟨key, value⟩ := entry
    rw [List.forall_mem_cons] at h
    rw [convertEntries]
    split
    · exact ih done h.2
    · next name hname =>
      have hne : text ≠ name := fun he => h.1 (by rw [he, hname])
      rw [ih _ h.2, Mapping.get?_insert_of_ne _ _ hne]

theorem convertEntries_append (before after : List (Tree × Tree)) (done : Mapping) :
    (convertEntries done (before ++ after)).result =
      (convertEntries (convertEntries done before).result after).result := by
  induction before generalizing done with
  | nil => rfl
  | cons entry rest ih =>
    obtain ⟨key, value⟩ := entry
    rw [List.cons_append, convertEntries, convertEntries]
    split <;> exact ih _

theorem convertEntries_get? {key : Tree} {text : String} (htext : keyText? key = some text)
    (value : Tree) (before after : List (Tree × Tree))
    (h : ∀ entry ∈ after, keyText? entry.1 ≠ some text) :
    Mapping.get? (convertEntries [] (before ++ (key, value) :: after)).result text =
      some (convert value).result := by
  have hentry (done : Mapping) : (convertEntries done ((key, value) :: after)).result =
      (convertEntries (Mapping.insert done text (convert value).result) after).result := by
    rw [convertEntries]
    split
    · next hnone =>
      rw [htext] at hnone
      cases hnone
    · next name hname =>
      rw [htext] at hname
      cases hname
      rfl
  rw [convertEntries_append, hentry, convertEntries_get?_of_ne after _ h,
    Mapping.get?_insert_self]

end Yaml.Tree

namespace Resolution

theorem resolve_names (d : Document) {text : String} (hne : text.toList ≠ [])
    (hbracket : '[' ∉ text.toList) :
    resolve {} d text =
      match walk d.root ((Text.split '.' text.toList).map fun s => .field (String.ofList s)) with
      | .ok value => .ok (some value)
      | .error fault => .error (.invalidPath (some text) fault) := by
  have hspelled : Path.Spelled
      ((Text.split '.' text.toList).map fun s => .field (String.ofList s)) text.toList := by
    refine ⟨Text.split '.' text.toList, ?_, (Text.join_split _ _).symm⟩
    rw [List.forall₂_map_left_iff, List.forall₂_same]
    intro piece hpiece
    have hplain : Path.Plain (String.ofList piece) := by
      rw [Path.Plain, String.toList_ofList]
      exact ⟨Text.not_mem_of_mem_split hpiece,
        fun hc => hbracket (Text.mem_of_mem_split hpiece hc)⟩
    simpa using Path.Spells.field hplain
  have hsegments : (Text.split '.' text.toList).map (fun s => Segment.field (String.ofList s)) ≠
      [] := by
    simpa using Text.split_ne_nil '.' text.toList
  have hempty : text ≠ "" := fun he => hne (String.toList_eq_nil_iff.mpr he)
  exact resolve_spelled rfl d hsegments hspelled hempty

open Yaml (Tree)
open Yaml.Tree (keyText? convert)

/-- Scalar keys are addressed by their text. In a mapping that is the root of a document, the value
of a number, boolean or null as a key, which no other entry shares its key text with, is found at
that text unless it is null. Only a float has to be written without a point. -/
theorem scalar_keys_addressed {root key value : Tree} {before after : List (Tree × Tree)}
    (name : String) (hroot : root.untagged = .mapping (before ++ (key, value) :: after))
    (hkey : key.untagged.isBare = true)
    (halone : ∀ entry ∈ before ++ after, keyText? entry.1 ≠ keyText? key)
    (hvalue : (convert value).result ≠ .null)
    (hpoint : key.untagged.isFloat = true →
      ∀ text, keyText? key = some text → '.' ∉ text.toList) :
    ∃ text d, keyText? key = some text ∧ Document.ofValue name root.toValue.result = .ok d ∧
      resolve {} d text = .ok (some (convert value).result) := by
  obtain ⟨text, htext, hne, hbracket, hplain⟩ := Yaml.Tree.keyText_separators hkey
  rw [Yaml.Tree.keyText?_untagged] at htext
  have hnopoint : '.' ∉ text.toList := by
    cases hfloat : key.untagged.isFloat with
    | false => exact hplain hfloat
    | true => exact hpoint hfloat text htext
  have hentries := Yaml.Tree.convertEntries_get? htext value before after (by
    intro entry hentry
    rw [← htext]
    exact halone entry (List.mem_append_right before hentry))
  have hconvert : root.toValue.result = .mapping
      (Yaml.Tree.convertEntries [] (before ++ (key, value) :: after)).result := by
    rw [Yaml.Tree.toValue, ← Yaml.Tree.convert_untagged root, hroot]
    rfl
  refine ⟨text, ⟨name, _⟩, htext, by rw [hconvert]; rfl, ?_⟩
  rw [resolve_names _ hne hbracket, Text.split_of_not_mem hnopoint]
  simp only [List.map_cons, List.map_nil, walk, step_field, String.ofList_toList, hentries]
  rw [(land_ok_iff _ _ _).mpr ⟨rfl, hvalue⟩]

/-- A key below zero with a tag, behind an entry that is left out and one with a similar key. -/
theorem tagged_integer_key_addressed :
    let key : Tree := .tagged "!k" (.number (.negative (-3)))
    let root : Tree :=
      .tagged "!m" (.mapping [(.sequence [], .null), (.text "3", .null), (key, .boolean true)])
    keyText? key = some "-3" ∧
    Document.ofValue "a.yml" root.toValue.result =
      .ok ⟨"a.yml", [("3", .null), ("-3", .boolean true)]⟩ ∧
    resolve {} ⟨"a.yml", [("3", .null), ("-3", .boolean true)]⟩ "-3" =
      .ok (some (.boolean true)) := by
  intro key root
  have htext : keyText? key = some "-3" := by
    have hthree : Number.numeral 3 = ['3'] := Number.numeral_of_lt (by decide)
    have hminus : Number.intNumeral (-3) = ['-', '3'] := congrArg ('-' :: ·) hthree
    exact congrArg (fun s => some (String.ofList s)) hminus
  have hdocument : Document.ofValue "a.yml" root.toValue.result =
      .ok ⟨"a.yml", [("3", .null), ("-3", .boolean true)]⟩ := by
    simp only [root, Yaml.Tree.toValue, convert, Yaml.Tree.convertEntries, htext]
    rfl
  have halone : ∀ entry ∈ [((.sequence [] : Tree), (.null : Tree)), (.text "3", .null)] ++ [],
      keyText? entry.1 ≠ keyText? key := by
    rw [htext]
    simp [keyText?]
  have hvalue : (convert (.boolean true)).result ≠ .null := Value.noConfusion
  have hroot : root.untagged =
      .mapping ([(.sequence [], .null), (.text "3", .null)] ++ (key, .boolean true) :: []) := rfl
  have hfloat : key.untagged.isFloat ≠ true := Bool.noConfusion
  obtain ⟨text, d, ht, hd, hr⟩ :=
    scalar_keys_addressed "a.yml" hroot rfl halone hvalue fun h => absurd h hfloat
  rw [htext] at ht
  rw [hdocument] at hd
  cases ht
  cases hd
  exact ⟨htext, hdocument, hr⟩

/-- The point of a float key separates names: its text is a path to something else. -/
theorem float_key_not_addressed :
    let key : Tree := .number (.float 1.5)
    let root : Tree := .mapping [(key, .text "x")]
    key.untagged.isBare = true ∧ keyText? key = some "1.5" ∧
    Document.ofValue "" root.toValue.result = .ok ⟨"", [("1.5", .text "x")]⟩ ∧
    resolve {} ⟨"", [("1.5", .text "x")]⟩ "1.5" =
      .error (.invalidPath (some "1.5") (.fieldNotFound "1")) := by
  intro key root
  have htext : keyText? key = some "1.5" := by
    have hfloat : Number.Binary.ofFloat 1.5 = .finite false 6755399441055744 (-52) := by decide
    let i := Number.Interval.of 6755399441055744 (-52)
    have hlength : (Number.numeral (i.value * Nat.pow 10 Number.places / i.denominator)).length =
        400 + 1 := Number.numeral_length (by decide +kernel) (by decide +kernel)
    have hpoint : i.point = 1 := by
      rw [Number.Interval.point, hlength]
      rfl
    have hhit : i.coarsest .toEven 1 17 1 = (15, -1) := by decide
    have hshortest : Number.shortest .toEven 6755399441055744 (-52) = ⟨['1', '5'], 1⟩ := by
      have hnumeral : Number.numeral 15 = ['1', '5'] := by
        rw [Number.numeral, if_neg (by decide), Number.numeral_of_lt (by decide)]
        rfl
      rw [Number.shortest_of_hit hpoint hhit, Number.significantDigits, hnumeral]
      rfl
    simp only [key, keyText?, Yaml.numberText, Number.Layout.write, hfloat,
      Number.Layout.magnitude, Yaml.keyLayout, hshortest]
    rfl
  refine ⟨rfl, htext, ?_, ?_⟩
  · simp only [root, Yaml.Tree.toValue, convert, Yaml.Tree.convertEntries, htext]
    rfl
  · rw [resolve_names _ (by decide) (by decide)]
    rfl

end Resolution

end DocQuery
