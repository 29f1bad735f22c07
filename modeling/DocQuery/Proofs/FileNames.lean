import DocQuery.Command
import DocQuery.Proofs.DocumentKeys
import DocQuery.Proofs.FirstInsert

/-! # Files and their names

The file of a path is what stands behind its last slash. A key is made of a name by adding to both
ends, and the name of a document is cut out of the key again, so it is the file of the name without
its extension. A path that is itself the only document keeps the extension it has. -/

namespace DocQuery

open Text (LastPiece)

/-! ## The name of a document -/

namespace Document

theorem nameOf_eq {key directories stem tail : List Char}
    (h : LastPiece '/' key directories (stem ++ '.' :: tail)) (htail : '.' ∉ tail) :
    nameOf key = if stem = [] then '.' :: tail else stem := by
  simp only [nameOf, h.afterLast_eq, Text.beforeLast?_append htail]
  cases stem <;> rfl

end Document

namespace Cache

theorem Settings.directory_last (c : Settings) {ch : Char} (h : c.directory.getLast? = some ch) :
    ch = '/' := by
  rw [directory] at h
  split at h
  · next hbase =>
    rcases hbase with hempty | hslash
    · rw [hempty] at h
      cases h
    · obtain ⟨before, hbefore⟩ := List.isSuffixOf_iff_suffix.mp hslash
      rw [← hbefore, List.getLast?_concat] at h
      exact (Option.some.inj h).symm
  · rw [List.getLast?_concat] at h
    exact (Option.some.inj h).symm

theorem lastPiece_withExtension {name directories file extension : List Char}
    (h : LastPiece '/' name directories file) (hextension : '/' ∉ extension) :
    LastPiece '/' (withExtension extension name) directories (withExtension extension file) := by
  by_cases hsuffix : extension <:+ file
  · rwa [withExtension_of_suffix hsuffix,
      withExtension_of_suffix ((h.suffix_iff hextension).mpr hsuffix)]
  · rw [withExtension_of_missing hsuffix,
      withExtension_of_missing (mt (h.suffix_iff hextension).mp hsuffix)]
    exact h.append hextension

/-- The file without the extension at its end, unless that is all there is. -/
def nameWithout (extension file : List Char) : List Char :=
  if file = [] ∨ file = extension then extension
  else if extension <:+ file then file.rdrop extension.length
  else file

theorem nameWithout_append {extension : List Char} (hne : extension ≠ []) (stem : List Char) :
    nameWithout extension (stem ++ extension) = if stem = [] then extension else stem := by
  by_cases hstem : stem = []
  · simp [nameWithout, hstem]
  · have hlong : stem ++ extension ≠ extension := by simpa using hstem
    have hsome : stem ++ extension ≠ [] := by simp [hne]
    rw [nameWithout, if_neg (not_or.mpr ⟨hsome, hlong⟩), if_pos (List.suffix_append _ _),
      if_neg hstem, List.rdrop_append_length]

theorem nameWithout_withExtension {extension : List Char} (hne : extension ≠ [])
    (file : List Char) :
    nameWithout extension (withExtension extension file) = nameWithout extension file := by
  by_cases hsuffix : extension <:+ file
  · rw [withExtension_of_suffix hsuffix]
  · rw [withExtension_of_missing hsuffix, nameWithout_append hne]
    by_cases hfile : file = []
    · simp [nameWithout, hfile]
    · have hother : file ≠ extension := by
        rintro rfl
        exact hsuffix (List.suffix_refl _)
      rw [if_neg hfile, nameWithout, if_neg (not_or.mpr ⟨hfile, hother⟩), if_neg hsuffix]

theorem Settings.nameOf_key (c : Settings) {tail : List Char}
    (hextension : c.extension.toList = '.' :: tail) (hdot : '.' ∉ tail) (hslash : '/' ∉ tail)
    {name directories file : List Char} (hfile : LastPiece '/' name directories file) :
    Document.nameOf (c.directory ++ withExtension c.extension.toList name) =
      nameWithout c.extension.toList file := by
  have hplain : '/' ∉ c.extension.toList := by
    rw [hextension]
    simpa using hslash
  have hne : c.extension.toList ≠ [] := by
    rw [hextension]
    exact List.cons_ne_nil _ _
  have hkey := (lastPiece_withExtension hfile hplain).prepend fun _ => c.directory_last
  obtain ⟨stem, hstem⟩ := suffix_withExtension c.extension.toList file
  rw [← nameWithout_withExtension hne file, ← hstem, nameWithout_append hne]
  rw [← hstem, hextension] at hkey
  rw [hextension, Document.nameOf_eq hkey hdot]

theorem TakesPlace.document_key {c : Settings} {l : Loader} {depth : Nat} {s : State}
    {requests : List Request} {replies : List Reply} {call : Call} {key : String} {i : Instance}
    (hcall : TakesPlace c l {} requests call)
    (h : run c l depth {} requests = some (s, replies)) (hkey : c.key call.name = .ok key)
    (hres : call.result = .ok i) : i.document.key = key := by
  have hwins := run_first_insert h
  have hi : s.get? key = some i := hwins.one_instance call key i hcall hkey hres
  exact (hwins.origin key i hi).1

/-- The document of a name is named after the file of the name, without the extension. Neither the
base directory nor the directories in the name count, nor whether the extension was written. -/
theorem document_named_after_file {c : Settings} {tail : List Char}
    (hextension : c.extension.toList = '.' :: tail) (hdot : '.' ∉ tail) (hslash : '/' ∉ tail)
    {name : String} (hname : ∃ ch ∈ name.toList, Text.isBlank ch = false)
    {directories file : List Char} (hfile : LastPiece '/' name.toList directories file) :
    ∃ key, c.key name = .ok key ∧
      (∀ root d, Document.ofValue key root = .ok d →
        d.name.toList = nameWithout c.extension.toList file) ∧
      (∀ l depth requests s replies call i, run c l depth {} requests = some (s, replies) →
        TakesPlace c l {} requests call → call.name = name → call.result = .ok i →
          i.document.name.toList = nameWithout c.extension.toList file) ∧
      ∀ (c' : Settings) (name' key' : String) (directories' file' : List Char),
        c'.extension = c.extension → LastPiece '/' name'.toList directories' file' →
        withExtension c.extension.toList file' = withExtension c.extension.toList file →
        c'.key name' = .ok key' → Document.nameOf key'.toList = Document.nameOf key.toList := by
  let full := c.directory ++ withExtension c.extension.toList name.toList
  have hkey : c.key name = .ok (String.ofList full) :=
    c.key_ok_iff.mpr ⟨hname, String.toList_ofList⟩
  have hnamed (d : Document) (hd : d.key = String.ofList full) :
      d.name.toList = nameWithout c.extension.toList file := by
    rw [Document.name, hd, String.toList_ofList, String.toList_ofList]
    exact c.nameOf_key hextension hdot hslash hfile
  refine ⟨String.ofList full, hkey, ?_, ?_, ?_⟩
  · intro root d hd
    exact hnamed d (Document.ofValue_ok hd).1
  · rintro l depth requests s replies call i hrun hcall rfl hres
    exact hnamed i.document (hcall.document_key hrun hkey hres)
  · intro c' name' key' directories' file' hsame hfile' hwritten hkey'
    have hextension' : c'.extension.toList = '.' :: tail := by rw [hsame, hextension]
    have hne : c.extension.toList ≠ [] := by
      rw [hextension]
      exact List.cons_ne_nil _ _
    have hwithout : nameWithout c.extension.toList file' = nameWithout c.extension.toList file := by
      rw [← nameWithout_withExtension hne, hwritten, nameWithout_withExtension hne]
    rw [(c'.key_ok_iff.mp hkey').2, c'.nameOf_key hextension' hdot hslash hfile', hsame, hwithout,
      String.toList_ofList, c.nameOf_key hextension hdot hslash hfile]

/-- The document of a hidden file, below a directory with a dot. -/
theorem hidden_file_named :
    let c : Settings := { baseDirectory := "etc" }
    let l : Loader := fun _ _ => .ends (.ok .null)
    c.key "conf.d/.hosts" = .ok "etc/conf.d/.hosts.yml" ∧
    ∃ s i, run c l 1 {} [.build "conf.d/.hosts"] = some (s, [.document i]) ∧
      i.document.name = ".hosts" := by
  intro c l
  have hkey : c.key "conf.d/.hosts" = .ok "etc/conf.d/.hosts.yml" :=
    c.key_ok_iff.mpr ⟨⟨'c', by decide, by decide⟩, by decide⟩
  obtain ⟨s, i, hbuild⟩ : ∃ s i, build c l 1 {} "conf.d/.hosts" = some (s, .ok i) := by
    simp only [build, hkey]
    exact ⟨_, _, rfl⟩
  have hrun : run c l 1 {} [.build "conf.d/.hosts"] = some (s, [.document i]) := by
    rw [run, perform, answer_build hbuild]
    rfl
  obtain ⟨calls, hb⟩ := build_builds hbuild
  have hcall : TakesPlace c l {} [.build "conf.d/.hosts"] ⟨{}, "conf.d/.hosts", s, .ok i⟩ :=
    ⟨calls ++ [], s, .built hb .nil, List.mem_append_left _ hb.mem⟩
  have hfile : LastPiece '/' "conf.d/.hosts".toList "conf.d/".toList ".hosts".toList :=
    ⟨rfl, by decide, by simp⟩
  have hextension : c.extension.toList = '.' :: ['y', 'm', 'l'] := by decide
  obtain ⟨_, _, _, hnamed, _⟩ := document_named_after_file hextension (by decide) (by decide)
    ⟨'c', by decide, by decide⟩ hfile
  refine ⟨hkey, s, i, hrun, ?_⟩
  rw [← String.toList_inj, hnamed l 1 _ s _ _ i hrun hcall rfl rfl]
  decide

/-! ## Settings for a single file -/

/-- A file name with an extension: there is a dot behind its first character, and it is not the
parent directory. -/
def HasExtension (file : List Char) : Prop := file ≠ ['.', '.'] ∧ '.' ∈ file.tail

instance (file : List Char) : Decidable (HasExtension file) := inferInstanceAs (Decidable (_ ∧ _))

namespace Settings

theorem fileOf?_eq {path directories file : List Char} (h : LastPiece '/' path directories file)
    (hne : file ≠ []) (hdot : file ≠ ['.']) :
    fileOf? path = if file = ['.', '.'] then none else some file := by
  obtain ⟨pieces, hpieces⟩ := h.split_eq
  have hlast : (Text.split '/' path).reverse.dropWhile (fun c => c == [] || c == ['.']) =
      file :: pieces.reverse := by
    rw [hpieces, List.reverse_append, List.reverse_singleton, List.singleton_append,
      List.dropWhile_cons_of_neg]
    simp [hne, hdot]
  rw [fileOf?, hlast]

theorem extensionOf?_of_dot {file : List Char} (h : '.' ∈ file.tail) :
    ∃ tail, extensionOf? file = some tail ∧ '.' :: tail <:+ file := by
  obtain ⟨stem, tail, hstem, htail, rfl⟩ := Text.exists_stem h
  refine ⟨tail, ?_, List.suffix_append _ _⟩
  obtain ⟨c, rest, rfl⟩ := List.exists_cons_of_ne_nil hstem
  rw [extensionOf?, Text.beforeLast?_append htail]
  dsimp only
  rw [Text.afterLast_append htail]

theorem extensionOf?_of_no_dot {file : List Char} (h : '.' ∉ file.tail) :
    extensionOf? file = none := by
  rw [extensionOf?]
  by_cases hmem : '.' ∈ file
  · obtain ⟨c, rest, rfl⟩ := List.exists_cons_of_ne_nil (List.ne_nil_of_mem hmem)
    rw [List.tail_cons] at h
    obtain rfl : '.' = c := (List.mem_cons.mp hmem).resolve_right h
    have hfront : Text.beforeLast? '.' ('.' :: rest) = some [] := Text.beforeLast?_append h []
    rw [hfront]
  · rw [Text.beforeLast?_of_not_mem hmem]

variable {path : String} {directories file : List Char}

theorem forFile_extension (h : LastPiece '/' path.toList directories file) (hne : file ≠ [])
    (hdot : file ≠ ['.']) (hfile : HasExtension file) :
    ∃ extension, forFile path = { extension } ∧ extension.toList <:+ path.toList := by
  obtain ⟨tail, htail, hsuffix⟩ := extensionOf?_of_dot hfile.2
  refine ⟨String.ofList ('.' :: tail), ?_, ?_⟩
  · rw [forFile, fileOf?_eq h hne hdot, if_neg hfile.1, Option.bind_some, htail]
  · rw [String.toList_ofList]
    exact hsuffix.trans ⟨directories, h.text.symm⟩

theorem forFile_standard (h : LastPiece '/' path.toList directories file) (hne : file ≠ [])
    (hdot : file ≠ ['.']) (hfile : ¬ HasExtension file) : forFile path = {} := by
  rw [forFile, fileOf?_eq h hne hdot]
  by_cases hparent : file = ['.', '.']
  · rw [if_pos hparent]
    rfl
  · have hnone : '.' ∉ file.tail := fun hmem => hfile ⟨hparent, hmem⟩
    rw [if_neg hparent, Option.bind_some, extensionOf?_of_no_dot hnone]

theorem key_of_path (extension : String) (hname : ∃ ch ∈ path.toList, Text.isBlank ch = false) :
    ({ extension } : Settings).key path =
      .ok (if extension.toList <:+ path.toList then path else path ++ extension) := by
  refine (key_ok_iff _).mpr ⟨hname, ?_⟩
  rw [withExtension]
  split
  · rfl
  · exact String.toList_append

end Settings

/-- The settings for a single file give its path as its key, if the file has an extension. If not,
the key is the path with the standard extension at its end. The command reads the file of that
key. -/
theorem file_keeps_path {path : String} (hname : ∃ ch ∈ path.toList, Text.isBlank ch = false)
    {directories file : List Char} (hfile : LastPiece '/' path.toList directories file)
    (hne : file ≠ []) (hdot : file ≠ ['.']) :
    (HasExtension file → (Settings.forFile path).key path = .ok path) ∧
    (¬ HasExtension file → (Settings.forFile path).key path =
      .ok (if ".yml".toList <:+ path.toList then path else path ++ ".yml")) ∧
    ∀ g : Command.Get, g.file = path →
      g.settings.key g.file = (Settings.forFile path).key path := by
  refine ⟨?_, ?_, ?_⟩
  · intro hextension
    obtain ⟨extension, hsettings, hsuffix⟩ :=
      Settings.forFile_extension hfile hne hdot hextension
    rw [hsettings, Settings.key_of_path extension hname, if_pos hsuffix]
  · intro hnone
    rw [Settings.forFile_standard hfile hne hdot hnone]
    exact Settings.key_of_path ".yml" hname
  · rintro g rfl
    rfl

/-- An empty extension, and the parent directory, both below a directory with a dot. -/
theorem empty_extension_kept :
    (Settings.forFile "conf.d/hosts.").extension = "." ∧
    (Settings.forFile "conf.d/hosts.").key "conf.d/hosts." = .ok "conf.d/hosts." ∧
    (Settings.forFile "conf.d/..").key "conf.d/.." = .ok "conf.d/...yml" := by
  have hfile : LastPiece '/' "conf.d/hosts.".toList "conf.d/".toList "hosts.".toList :=
    ⟨rfl, by decide, by simp⟩
  have hparent : LastPiece '/' "conf.d/..".toList "conf.d/".toList "..".toList :=
    ⟨rfl, by decide, by simp⟩
  have hkept := file_keeps_path ⟨'c', by decide, by decide⟩ hfile (by decide) (by decide)
  have hextended := file_keeps_path ⟨'c', by decide, by decide⟩ hparent (by decide) (by decide)
  exact ⟨rfl, hkept.1 (by decide), hextended.2.1 (by decide)⟩

end Cache

end DocQuery
