import DocQuery.Proofs.BuildRules
import DocQuery.Proofs.TextPieces

/-! # Names with the same key

A key is the base directory followed by the name with its extension written out. The directory is
the same for all names, so two names have the same key just if writing out the extension makes them
equal: they are equal, or one of them is the other with the extension added that it lacked. -/

namespace DocQuery.Cache

/-- A name with the extension written out. -/
def withExtension (extension name : List Char) : List Char :=
  if extension <:+ name then name else name ++ extension

section

variable {extension name other : List Char}

theorem withExtension_of_suffix (h : extension <:+ name) : withExtension extension name = name :=
  if_pos h

theorem withExtension_of_missing (h : ¬ extension <:+ name) :
    withExtension extension name = name ++ extension := if_neg h

theorem suffix_withExtension (extension name : List Char) :
    extension <:+ withExtension extension name := by
  by_cases h : extension <:+ name
  · rwa [withExtension_of_suffix h]
  · rw [withExtension_of_missing h]
    exact List.suffix_append name extension

theorem withExtension_withExtension (extension name : List Char) :
    withExtension extension (withExtension extension name) = withExtension extension name :=
  withExtension_of_suffix (suffix_withExtension extension name)

theorem withExtension_append (h : ¬ extension <:+ name) :
    withExtension extension (name ++ extension) = withExtension extension name := by
  rw [withExtension_of_suffix (List.suffix_append name extension), withExtension_of_missing h]

/-- Writing out the extension identifies a name that lacks it with the one that has it, and no other
two names. -/
theorem withExtension_eq_iff : withExtension extension name = withExtension extension other ↔
    name = other ∨ name = other ++ extension ∧ ¬ extension <:+ other ∨
      other = name ++ extension ∧ ¬ extension <:+ name := by
  constructor
  · intro h
    by_cases hname : extension <:+ name
    · rw [withExtension_of_suffix hname] at h
      by_cases hother : extension <:+ other
      · rw [withExtension_of_suffix hother] at h
        exact Or.inl h
      · rw [withExtension_of_missing hother] at h
        exact Or.inr (Or.inl ⟨h, hother⟩)
    · rw [withExtension_of_missing hname] at h
      by_cases hother : extension <:+ other
      · rw [withExtension_of_suffix hother] at h
        exact Or.inr (Or.inr ⟨h.symm, hname⟩)
      · rw [withExtension_of_missing hother] at h
        exact Or.inl (List.append_cancel_right h)
  · rintro (rfl | ⟨rfl, hother⟩ | ⟨rfl, hname⟩)
    · rfl
    · exact withExtension_append hother
    · exact (withExtension_append hname).symm

example : withExtension ['a', 'a'] ['a'] = withExtension ['a', 'a'] ['a', 'a', 'a'] ∧
    withExtension ['a', 'a'] ['a'] ≠ withExtension ['a', 'a'] ['a', 'a'] := by decide

end

namespace Settings

variable (c : Settings)

theorem keyOf_eq (name : List Char) :
    c.keyOf name = c.directory ++ withExtension c.extension.toList name := by
  rw [keyOf, List.append_assoc]
  by_cases h : c.extension.toList <:+ name
  · rw [if_pos (List.isSuffixOf_iff_suffix.mpr h), List.append_nil, withExtension_of_suffix h]
  · rw [if_neg (mt List.isSuffixOf_iff_suffix.mp h), withExtension_of_missing h]

theorem key_ok_iff {name key : String} : c.key name = .ok key ↔
    (∃ ch ∈ name.toList, Text.isBlank ch = false) ∧
      key.toList = c.directory ++ withExtension c.extension.toList name.toList := by
  have hblank : Text.trim name.toList = [] ↔ ¬ ∃ ch ∈ name.toList, Text.isBlank ch = false := by
    rw [Text.trim_eq_nil_iff]
    simp
  unfold Settings.key
  by_cases h : Text.trim name.toList = []
  · rw [if_pos h]
    simp [hblank.mp h]
  · rw [if_neg h, Except.ok.injEq, keyOf_eq, ← String.toList_inj, String.toList_ofList, eq_comm,
      iff_and_self]
    intro _
    exact not_not.mp (mt hblank.mpr h)

theorem key_withExtension {name key full : String} (h : c.key name = .ok key)
    (hfull : full.toList = withExtension c.extension.toList name.toList) :
    c.key full = .ok key := by
  obtain ⟨⟨ch, hmem, hch⟩, hkey⟩ := c.key_ok_iff.mp h
  refine c.key_ok_iff.mpr ⟨⟨ch, ?_, hch⟩, ?_⟩
  · rw [hfull, withExtension]
    split
    · exact hmem
    · exact List.mem_append_left _ hmem
  · rw [hfull, withExtension_withExtension, hkey]

theorem directory_with_slash (hne : c.baseDirectory ≠ "")
    (hslash : ¬ ['/'] <:+ c.baseDirectory.toList) :
    ({ c with baseDirectory := c.baseDirectory ++ "/" } : Settings).directory = c.directory := by
  have hbase : c.directory = c.baseDirectory.toList ++ ['/'] := by
    have hempty : c.baseDirectory.toList ≠ [] := mt String.toList_eq_nil_iff.mp hne
    rw [directory, if_neg]
    simp [hempty, hslash]
  rw [hbase, directory]
  simp

end Settings

/-- Which names have a key, and which of them the same one. -/
structure SameKeyRules (c : Settings) : Prop where
  refused_iff : ∀ name e, c.key name = .error e ↔
    (∀ ch ∈ name.toList, Text.isBlank ch = true) ∧ e = .invalidArgument .emptyDocumentName
  same_iff : ∀ name other key key', c.key name = .ok key → c.key other = .ok key' →
    (key = key' ↔ name = other ∨
      name = other ++ c.extension ∧ ¬ c.extension.toList <:+ other.toList ∨
      other = name ++ c.extension ∧ ¬ c.extension.toList <:+ name.toList)
  written_out : ∀ name key, c.key name = .ok key → ¬ c.extension.toList <:+ name.toList →
    c.key (name ++ c.extension) = .ok key
  appended_once : ∀ name key, c.key name = .ok key → ∃ full,
    key = String.ofList c.directory ++ full ∧ c.extension.toList <:+ full.toList ∧
      full = (if c.extension.toList <:+ name.toList then name else name ++ c.extension) ∧
      c.key full = .ok key
  slash_added : c.baseDirectory ≠ "" → ¬ ['/'] <:+ c.baseDirectory.toList →
    ∀ name, ({ c with baseDirectory := c.baseDirectory ++ "/" } : Settings).key name = c.key name

/-- Whatever the base directory and the extension, names have the same key just if they differ at
most in the extension being written out. -/
theorem keys_identify_extended_names (c : Settings) : SameKeyRules c := by
  have hadded (name : String) (h : ¬ c.extension.toList <:+ name.toList) :
      (name ++ c.extension).toList = withExtension c.extension.toList name.toList := by
    rw [String.toList_append, withExtension_of_missing h]
  constructor
  case refused_iff =>
    intro name e
    rw [Settings.key_error_iff, Text.trim_eq_nil_iff]
  case same_iff =>
    intro name other key key' hname hother
    have hkey := (c.key_ok_iff.mp hname).2
    have hkey' := (c.key_ok_iff.mp hother).2
    rw [← String.toList_inj, hkey, hkey', List.append_right_inj, withExtension_eq_iff]
    simp only [← String.toList_inj, String.toList_append]
  case written_out =>
    intro name key hkey hmissing
    exact c.key_withExtension hkey (hadded name hmissing)
  case appended_once =>
    intro name key hkey
    have hfull : (if c.extension.toList <:+ name.toList then name else name ++ c.extension).toList =
        withExtension c.extension.toList name.toList := by
      split
      · next h => rw [withExtension_of_suffix h]
      · next h => exact hadded name h
    refine ⟨_, ?_, ?_, rfl, c.key_withExtension hkey hfull⟩
    · rw [← String.toList_inj, String.toList_append, String.toList_ofList, hfull]
      exact (c.key_ok_iff.mp hkey).2
    · rw [hfull]
      exact suffix_withExtension _ _
  case slash_added =>
    intro hne hslash name
    unfold Settings.key
    rw [Settings.keyOf_eq, Settings.keyOf_eq, c.directory_with_slash hne hslash]

end DocQuery.Cache
