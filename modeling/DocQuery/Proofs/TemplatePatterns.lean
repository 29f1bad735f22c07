import DocQuery.Proofs.PathGrammar
import DocQuery.Proofs.QueryRules

/-! # Templates made of segment patterns

A segment pattern is a segment with holes: its name is a row of literal fragments and holes, and its
index, if it has one, is a numeral or a hole. A template written from patterns may be filled as a
text or segment by segment, and both give the same path. -/

namespace DocQuery

namespace Template

/-- A text that stands for itself in the name of a segment pattern. -/
structure Fragment where
  text : String
  plain : Path.Plain text
  closed : '?' ∉ text.toList

/-- A numeral of an index, with any number of zeros in front. -/
structure IndexNumeral where
  digits : List Char
  ne_nil : digits ≠ []
  isDigit : ∀ c ∈ digits, c.isDigit = true
  bounded : Number.digitsValue digits < UInt64.size

inductive Hole
  | name
  | index
  deriving DecidableEq, Repr

/-- The arguments that may be put into a hole. -/
def Hole.Takes : Hole → String → Prop
  | name, argument => Path.Plain argument ∧ '?' ∉ argument.toList
  | index, argument => ∃ n : UInt64, argument = Number.natText n.toNat

/-- There is an argument for every hole, in order; there may be more. -/
def Supplies : List Hole → List String → Prop
  | [], _ => True
  | _ :: _, [] => False
  | hole :: holes, argument :: arguments => hole.Takes argument ∧ Supplies holes arguments

inductive NamePart
  | literal (fragment : Fragment)
  | hole

inductive IndexPart
  | literal (numeral : IndexNumeral)
  | hole

structure Pattern where
  name : List NamePart
  index? : Option IndexPart

namespace NamePart

def written : NamePart → List Char
  | literal fragment => fragment.text.toList
  | hole => ['?']

def holes : NamePart → List Hole
  | literal _ => []
  | hole => [.name]

def filled : NamePart → List String → List Char
  | literal fragment, _ => fragment.text.toList
  | hole, arguments => (arguments.headD "").toList

end NamePart

namespace IndexPart

def written : IndexPart → List Char
  | literal numeral => numeral.digits
  | hole => ['?']

def holes : IndexPart → List Hole
  | literal _ => []
  | hole => [.index]

def filled : IndexPart → List String → UInt64
  | literal numeral, _ => UInt64.ofNat (Number.digitsValue numeral.digits)
  | hole, arguments => UInt64.ofNat (Number.digitsValue (arguments.headD "").toList)

end IndexPart

/-- Parts in a row take as many arguments as they have holes, one part after the other. -/
def inTurn {α β : Type} (holes : α → List Hole) (filled : α → List String → β) :
    List α → List String → List β
  | [], _ => []
  | part :: parts, arguments =>
    filled part arguments :: inTurn holes filled parts (arguments.drop (holes part).length)

namespace Pattern

def nameHoles (p : Pattern) : List Hole := p.name.flatMap NamePart.holes

def indexHoles (p : Pattern) : List Hole :=
  match p.index? with
  | none => []
  | some index => index.holes

def holes (p : Pattern) : List Hole := p.nameHoles ++ p.indexHoles

def written (p : Pattern) : List Char :=
  p.name.flatMap NamePart.written ++
    match p.index? with
    | none => []
    | some index => '[' :: (index.written ++ [']'])

def filledName (p : Pattern) (arguments : List String) : List Char :=
  (inTurn NamePart.holes NamePart.filled p.name arguments).flatten

def filled (p : Pattern) (arguments : List String) : Segment :=
  match p.index? with
  | none => .field (String.ofList (p.filledName arguments))
  | some index =>
    .indexed (String.ofList (p.filledName arguments))
      (index.filled (arguments.drop p.nameHoles.length))

end Pattern

def ofPatterns (patterns : List Pattern) : Template :=
  ⟨String.ofList (Text.join '.' (patterns.map Pattern.written))⟩

def holes (patterns : List Pattern) : List Hole := patterns.flatMap Pattern.holes

def segments (patterns : List Pattern) (arguments : List String) : List Segment :=
  inTurn Pattern.holes Pattern.filled patterns arguments

theorem fillFirst_skip {before : List Char} (h : '?' ∉ before) (argument text : List Char) :
    fillFirst argument (before ++ text) = before ++ fillFirst argument text := by
  induction before with
  | nil => rfl
  | cons c before ih =>
    have hc : c ≠ '?' := fun he => h (by simp [he])
    rw [List.cons_append, fillFirst, if_neg hc, ih (fun hm => h (by simp [hm]))]
    rfl

theorem fill_skip {before : List Char} (h : '?' ∉ before) (text : List Char)
    (arguments : List (List Char)) :
    fill (before ++ text) arguments = before ++ fill text arguments := by
  induction arguments generalizing text with
  | nil => rfl
  | cons argument arguments ih =>
    change fill (fillFirst argument (before ++ text)) arguments = _
    rw [fillFirst_skip h, ih]
    rfl

theorem fill_hole {argument : List Char} (h : '?' ∉ argument) (text : List Char)
    (arguments : List (List Char)) :
    fill ('?' :: text) (argument :: arguments) = argument ++ fill text arguments := by
  have hfirst : fillFirst argument ('?' :: text) = argument ++ text := if_pos rfl
  change fill (fillFirst argument ('?' :: text)) arguments = _
  rw [hfirst, fill_skip h]

theorem fill_nil (arguments : List (List Char)) : fill [] arguments = [] := by
  induction arguments with
  | nil => rfl
  | cons argument arguments ih => exact ih

/-- Filling turns the text into `out`, for which it uses up `count` arguments. -/
def Expands (text : List Char) (count : Nat) (arguments : List String) (out : List Char) : Prop :=
  ∀ rest, fill (text ++ rest) (arguments.map String.toList) =
    out ++ fill rest ((arguments.drop count).map String.toList)

namespace Expands

theorem literal {text : List Char} (h : '?' ∉ text) (arguments : List String) :
    Expands text 0 arguments text := by
  intro rest
  exact fill_skip h rest _

theorem hole {argument : String} (h : '?' ∉ argument.toList) (arguments : List String) :
    Expands ['?'] 1 (argument :: arguments) argument.toList := by
  intro rest
  exact fill_hole h rest _

theorem append {text text' out out' : List Char} {count count' : Nat} {arguments : List String}
    (h : Expands text count arguments out)
    (h' : Expands text' count' (arguments.drop count) out') :
    Expands (text ++ text') (count + count') arguments (out ++ out') := by
  intro rest
  rw [List.append_assoc, h, h', List.drop_drop, List.append_assoc]

theorem bracketed {text out : List Char} {count : Nat} {arguments : List String}
    (h : Expands text count arguments out) :
    Expands ('[' :: (text ++ [']'])) count arguments ('[' :: (out ++ [']'])) := by
  have hopen : '?' ∉ ['['] := by decide
  have hclose : '?' ∉ [']'] := by decide
  have hinner := h.append (.literal hclose (arguments.drop count))
  have hall := (literal hopen arguments).append hinner
  rwa [Nat.zero_add, Nat.add_zero] at hall

end Expands

theorem supplies_append {front back : List Hole} {arguments : List String}
    (h : Supplies (front ++ back) arguments) :
    Supplies front arguments ∧ Supplies back (arguments.drop front.length) := by
  induction front generalizing arguments with
  | nil => exact ⟨trivial, h⟩
  | cons hole front ih =>
    cases arguments with
    | nil => exact absurd h id
    | cons argument arguments =>
      obtain ⟨htakes, hrest⟩ := h
      obtain ⟨hfront, hback⟩ := ih hrest
      exact ⟨⟨htakes, hfront⟩, hback⟩

theorem NamePart.expands {part : NamePart} {arguments : List String}
    (h : Supplies part.holes arguments) :
    Expands part.written part.holes.length arguments (part.filled arguments) ∧
      '.' ∉ part.filled arguments ∧ '[' ∉ part.filled arguments := by
  cases part with
  | literal fragment => exact ⟨.literal fragment.closed arguments, fragment.plain⟩
  | hole =>
    cases arguments with
    | nil => exact absurd h id
    | cons argument arguments =>
      obtain ⟨⟨hplain, hclosed⟩, -⟩ := h
      exact ⟨.hole hclosed arguments, hplain⟩

theorem name_expands {parts : List NamePart} {arguments : List String}
    (h : Supplies (parts.flatMap NamePart.holes) arguments) :
    let out := (inTurn NamePart.holes NamePart.filled parts arguments).flatten
    Expands (parts.flatMap NamePart.written) (parts.flatMap NamePart.holes).length arguments out ∧
      '.' ∉ out ∧ '[' ∉ out := by
  induction parts generalizing arguments with
  | nil => exact ⟨.literal List.not_mem_nil arguments, List.not_mem_nil, List.not_mem_nil⟩
  | cons part parts ih =>
    obtain ⟨hpart, hparts⟩ := supplies_append h
    obtain ⟨hexpand, hdot, hopen⟩ := NamePart.expands hpart
    obtain ⟨hrest, hdots, hopens⟩ := ih hparts
    have hboth := hexpand.append hrest
    rw [← List.length_append] at hboth
    refine ⟨hboth, ?_, ?_⟩
    · intro hm
      rcases List.mem_append.mp hm with hm | hm
      · exact hdot hm
      · exact hdots hm
    · intro hm
      rcases List.mem_append.mp hm with hm | hm
      · exact hopen hm
      · exact hopens hm

theorem IndexPart.expands {part : IndexPart} {arguments : List String}
    (h : Supplies part.holes arguments) :
    ∃ digits, digits ≠ [] ∧ (∀ c ∈ digits, c.isDigit = true) ∧
      Number.digitsValue digits = (part.filled arguments).toNat ∧
      Expands part.written part.holes.length arguments digits := by
  have hhole : Char.isDigit '?' = false := by decide
  cases part with
  | literal numeral =>
    refine ⟨numeral.digits, numeral.ne_nil, numeral.isDigit, ?_, ?_⟩
    · exact (UInt64.toNat_ofNat_of_lt' numeral.bounded).symm
    · exact .literal (Number.not_mem_digits numeral.isDigit hhole) arguments
  | hole =>
    cases arguments with
    | nil => exact absurd h id
    | cons argument arguments =>
      obtain ⟨⟨n, rfl⟩, -⟩ := h
      have htext : (Number.natText n.toNat).toList = Number.numeral n.toNat :=
        String.toList_ofList
      refine ⟨Number.numeral n.toNat, Number.numeral_ne_nil _, Number.numeral_digits _, ?_, ?_⟩
      · change _ = (UInt64.ofNat (Number.digitsValue (Number.natText n.toNat).toList)).toNat
        rw [htext, Number.digitsValue_numeral, UInt64.ofNat_toNat]
      · have hdigits := Number.not_mem_digits (Number.numeral_digits n.toNat) hhole
        rw [← htext] at hdigits ⊢
        exact .hole hdigits arguments

/-- A pattern that is filled as text becomes a spelling of the segment that it is filled to. -/
theorem Pattern.expands {p : Pattern} {arguments : List String}
    (h : Supplies p.holes arguments) :
    ∃ piece, Path.Spells (p.filled arguments) piece ∧
      Expands p.written p.holes.length arguments piece := by
  obtain ⟨hname, hindex⟩ := supplies_append h
  obtain ⟨hexpand, hchars⟩ := name_expands hname
  have hplain : Path.Plain (String.ofList (p.filledName arguments)) := by
    rw [Path.Plain, String.toList_ofList]
    exact hchars
  obtain ⟨name, index?⟩ := p
  cases index? with
  | none =>
    have hspells := Path.Spells.field hplain
    rw [String.toList_ofList] at hspells
    refine ⟨_, hspells, ?_⟩
    rw [Pattern.written, Pattern.holes, Pattern.indexHoles, List.append_nil, List.append_nil]
    exact hexpand
  | some index =>
    obtain ⟨digits, hne, hd, hv, hbetween⟩ := IndexPart.expands hindex
    rw [Path.digits_value_positional] at hv
    have hspells := Path.Spells.indexed hplain hne hd hv
    rw [String.toList_ofList] at hspells
    refine ⟨_, hspells, ?_⟩
    rw [Pattern.holes, List.length_append]
    exact hexpand.append hbetween.bracketed

theorem patterns_expand {patterns : List Pattern} {arguments : List String}
    (hne : patterns ≠ []) (h : Supplies (holes patterns) arguments) :
    ∃ pieces, List.Forall₂ Path.Spells (segments patterns arguments) pieces ∧
      Expands (Text.join '.' (patterns.map Pattern.written)) (holes patterns).length arguments
        (Text.join '.' pieces) := by
  induction patterns generalizing arguments with
  | nil => exact absurd rfl hne
  | cons p patterns ih =>
    obtain ⟨hp, hrest⟩ := supplies_append h
    obtain ⟨piece, hspells, hexpand⟩ := p.expands hp
    cases patterns with
    | nil =>
      refine ⟨[piece], .cons hspells .nil, ?_⟩
      rw [holes, List.flatMap_cons, List.flatMap_nil, List.append_nil]
      exact hexpand
    | cons next patterns =>
      obtain ⟨pieces, hspelled, hexpands⟩ := ih (List.cons_ne_nil _ _) hrest
      refine ⟨piece :: pieces, .cons hspells hspelled, ?_⟩
      have hdot : '?' ∉ ['.'] := by decide
      have hall := hexpand.append ((Expands.literal hdot _).append hexpands)
      rw [Nat.zero_add, ← List.length_append] at hall
      cases hspelled with
      | cons hq hqs => exact hall

theorem expand_spelled {patterns : List Pattern} {arguments : List String} (hne : patterns ≠ [])
    (h : Supplies (holes patterns) arguments) :
    Path.Spelled (segments patterns arguments) ((ofPatterns patterns).expand arguments).toList := by
  obtain ⟨pieces, hspells, hexpand⟩ := patterns_expand hne h
  refine ⟨pieces, hspells, ?_⟩
  have hall := hexpand []
  rw [List.append_nil, fill_nil, List.append_nil] at hall
  rw [expand, ofPatterns, String.toList_ofList, String.toList_ofList, hall]

theorem segments_ne_nil {patterns : List Pattern} (hne : patterns ≠ []) (arguments : List String) :
    segments patterns arguments ≠ [] := by
  cases patterns with
  | nil => exact absurd rfl hne
  | cons p patterns => exact List.cons_ne_nil _ _

end Template

/-- The same error, quoting another path. -/
def Error.quoting (path : String) : Error → Error
  | .invalidPath (some _) fault => .invalidPath (some path) fault
  | e => e

namespace Resolution

theorem resolvePath_segments (o : Options) (d : Document) {p q : Path}
    (h : p.segments = q.segments) (hne : p.segments ≠ []) :
    resolvePath o d p = (resolvePath o d q).mapError (Error.quoting p.source) := by
  rw [resolvePath_walk o d hne, resolvePath_walk o d (h ▸ hne), h]
  cases walk d.root q.segments with
  | ok value => rfl
  | error fault =>
    cases hthrow : o.throwOnMissing with
    | true => simp [suppress, Except.mapError, hthrow, Error.quoting]
    | false => simp [suppress, Except.mapError, hthrow, Error.isMissing]

end Resolution

namespace Template

/-- A template written from patterns may be filled before it is read: as long as every hole gets an
argument that fits, the filled text reads as the filled segments, and resolving the template is
resolving any path with these segments, but for the path that errors quote. Further arguments do
not matter. A single empty name has no text of its own, so it is left out. -/
theorem expand_reads_as_segments {patterns : List Pattern} {arguments : List String}
    (hne : patterns ≠ []) (hargs : Supplies (holes patterns) arguments)
    (hempty : segments patterns arguments ≠ [.field ""]) :
    Path.parse ((ofPatterns patterns).expand arguments) =
      .ok ⟨(ofPatterns patterns).expand arguments, segments patterns arguments⟩ ∧
    (arguments ≠ [] → ∀ (o : Resolution.Options) (d : Document) (p : Path),
      p.segments = segments patterns arguments →
      Query.run o d ⟨.template (ofPatterns patterns) arguments, .value⟩ =
        (Query.run o d ⟨.parsed p, .value⟩).mapError
          (Error.quoting ((ofPatterns patterns).expand arguments))) := by
  have hspelled := expand_spelled hne hargs
  have hsegments := segments_ne_nil hne arguments
  have htext : ((ofPatterns patterns).expand arguments).toList ≠ [] :=
    fun hnil => hempty ((hspelled.eq_nil_iff hsegments).mp hnil)
  have hparse : Path.parse ((ofPatterns patterns).expand arguments) =
      .ok ⟨(ofPatterns patterns).expand arguments, segments patterns arguments⟩ :=
    (Path.parse_ok_iff _ _).mpr ⟨rfl, .inr ⟨htext, hsegments, hspelled⟩⟩
  refine ⟨hparse, ?_⟩
  intro hsome o d p hp
  have hplace : (Place.template (ofPatterns patterns) arguments).text =
      .ok ((ofPatterns patterns).expand arguments) := by
    cases arguments with
    | nil => exact absurd rfl hsome
    | cons first rest => rfl
  have hrun : Query.run o d ⟨.template (ofPatterns patterns) arguments, .value⟩ =
      Resolution.resolve o d ((ofPatterns patterns).expand arguments) := by
    rw [Query.run_text o d hplace (by simp), Wanted.answer_value]
  rw [hrun, Resolution.resolve_parsed o d hparse]
  exact Resolution.resolvePath_segments o d hp.symm hsegments

/-- Two holes in one name, one in brackets, a name without text and surplus placeholders. -/
def shardPatterns : List Pattern :=
  [⟨[.literal ⟨"a]", by simp [Path.Plain], by simp⟩, .hole, .hole], some .hole⟩,
    ⟨[.hole], none⟩, ⟨[], some (.literal ⟨['0', '7'], by simp, by simp, by decide⟩)⟩]

theorem shards_filled :
    shardPatterns ≠ [] ∧
    Supplies (holes shardPatterns) ["b", "", "18446744073709551615", "c d", "?.["] ∧
    segments shardPatterns ["b", "", "18446744073709551615", "c d", "?.["] ≠ [.field ""] ∧
    Path.parse "a]b[18446744073709551615].c d.[07]" =
      .ok ⟨"a]b[18446744073709551615].c d.[07]",
        [.indexed "a]b" 18446744073709551615, .field "c d", .indexed "" 7]⟩ := by
  have hargs : Supplies (holes shardPatterns) ["b", "", "18446744073709551615", "c d", "?.["] := by
    refine ⟨?_, ?_, ⟨18446744073709551615, ?_⟩, ?_, trivial⟩
    · simp [Hole.Takes, Path.Plain]
    · simp [Hole.Takes, Path.Plain]
    · simp [Number.natText, Number.numeral, Number.digit]
    · simp [Hole.Takes, Path.Plain]
  have hsegments : segments shardPatterns ["b", "", "18446744073709551615", "c d", "?.["] =
      [.indexed "a]b" 18446744073709551615, .field "c d", .indexed "" 7] := by decide
  have htext : (ofPatterns shardPatterns).expand ["b", "", "18446744073709551615", "c d", "?.["] =
      "a]b[18446744073709551615].c d.[07]" := by decide
  have hempty : segments shardPatterns ["b", "", "18446744073709551615", "c d", "?.["] ≠
      [.field ""] := by simp [hsegments]
  have hparse := (expand_reads_as_segments (by simp [shardPatterns]) hargs hempty).1
  rw [hsegments, htext] at hparse
  exact ⟨by simp [shardPatterns], hargs, hempty, hparse⟩

end Template

end DocQuery
