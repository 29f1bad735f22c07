import DocQuery.Proofs.PathGrammar
import DocQuery.Proofs.TextPieces

/-! # Canonical path texts

A row of segments is written in one way, and reading what was written gives the row back. Of the
other texts with the same reading each differs from the written one by zeros: an index may begin
with more of them than it needs, and nothing else can be spelled in two ways. -/

namespace DocQuery

namespace Path

/-- Some index begins with a zero that another digit follows. -/
def SuperfluousZero (s : List Char) : Prop :=
  ∃ before c after, s = before ++ '[' :: '0' :: c :: after ∧ c.isDigit = true

/-- Leaves out the superfluous zeros of all indices. The flag says that an opening bracket stands in
front, with nothing or only such zeros in between. -/
def dropZeros : Bool → List Char → List Char
  | _, [] => []
  | opened, c :: rest =>
    if opened && c == '0' && rest.head?.any Char.isDigit then dropZeros true rest
    else c :: dropZeros (c == '[') rest

def rendered (segments : List Segment) : String := ".".intercalate (segments.map Segment.text)

theorem dropZeros_closed (c : Char) (rest : List Char) :
    dropZeros false (c :: rest) = c :: dropZeros (c == '[') rest := by
  simp [dropZeros]

theorem dropZeros_zero {c : Char} (hc : c.isDigit = true) (rest : List Char) :
    dropZeros true ('0' :: c :: rest) = dropZeros true (c :: rest) := by
  rw [dropZeros]
  simp [hc]

theorem dropZeros_kept {c : Char} {rest : List Char}
    (h : ¬ (c = '0' ∧ rest.head?.any Char.isDigit = true)) (opened : Bool) :
    dropZeros opened (c :: rest) = c :: dropZeros (c == '[') rest := by
  rw [dropZeros, if_neg]
  intro hdrop
  simp only [Bool.and_eq_true, beq_iff_eq] at hdrop
  exact h ⟨hdrop.1.2, hdrop.2⟩

theorem dropZeros_append {s : List Char} (h : '[' ∉ s) (rest : List Char) :
    dropZeros false (s ++ rest) = s ++ dropZeros false rest := by
  induction s with
  | nil => rfl
  | cons c s ih =>
    have hc : c ≠ '[' := fun he => h (by simp [he])
    have hflag : (c == '[') = false := by simp [hc]
    rw [List.cons_append, dropZeros_closed, hflag, ih (fun hm => h (by simp [hm]))]
    rfl

theorem dropZeros_index {ds : List Char} (hne : ds ≠ []) (hd : ∀ c ∈ ds, c.isDigit = true)
    (rest : List Char) :
    dropZeros true (ds ++ ']' :: rest) =
      Number.numeral (Number.digitsValue ds) ++ ']' :: dropZeros false rest := by
  have hbracket : Char.isDigit '[' = false := by decide
  induction ds with
  | nil => exact absurd rfl hne
  | cons c ds ih =>
    have hds : ∀ d ∈ ds, d.isDigit = true := fun d hm => hd d (List.mem_cons_of_mem _ hm)
    by_cases hdrop : c = '0' ∧ ds ≠ []
    · obtain ⟨rfl, hrest⟩ := hdrop
      obtain ⟨next, tail, rfl⟩ := List.exists_cons_of_ne_nil hrest
      have hnext : next.isDigit = true := hds next List.mem_cons_self
      rw [Number.digitsValue_zero_cons, ← ih hrest hds]
      exact dropZeros_zero hnext _
    · have hnum : Number.numeral (Number.digitsValue (c :: ds)) = c :: ds := by
        apply Number.numeral_digitsValue hne hd
        intro hhead
        have hc : c = '0' := Option.some.inj hhead
        by_contra hlong
        exact hdrop ⟨hc, fun hnil => hlong (by rw [hc, hnil])⟩
      have hkept : ¬ (c = '0' ∧ (ds ++ ']' :: rest).head?.any Char.isDigit = true) := by
        rintro ⟨hc, hdigit⟩
        cases ds with
        | nil =>
          have hclose : Char.isDigit ']' = false := by decide
          simp [hclose] at hdigit
        | cons next tail => exact hdrop ⟨hc, List.cons_ne_nil _ _⟩
      have hflag : (c == '[') = false := by
        have hopen : c ≠ '[' := fun he => Number.not_mem_digits hd hbracket (by simp [he])
        simp [hopen]
      rw [hnum, List.cons_append, dropZeros_kept hkept, hflag,
        dropZeros_append (Number.not_mem_digits hds hbracket), dropZeros_closed]
      rfl

theorem Spells.dropZeros {segment : Segment} {piece : List Char} (h : Spells segment piece)
    (rest : List Char) :
    Path.dropZeros false (piece ++ rest) = segment.written ++ Path.dropZeros false rest := by
  cases h with
  | field hname => exact dropZeros_append hname.2 rest
  | @indexed name digits index hname hne hd hv =>
    rw [← digits_value_positional] at hv
    have hopen : Path.dropZeros false ('[' :: (digits ++ ']' :: rest)) =
        '[' :: Path.dropZeros true (digits ++ ']' :: rest) := dropZeros_closed _ _
    rw [List.append_assoc, dropZeros_append hname.2, List.cons_append, List.append_assoc,
      List.singleton_append, hopen, dropZeros_index hne hd, hv]
    simp [Segment.written]

theorem dropZeros_join {segments : List Segment} {pieces : List (List Char)}
    (h : List.Forall₂ Spells segments pieces) :
    dropZeros false (Text.join '.' pieces) = written segments := by
  induction h with
  | nil => rfl
  | @cons segment piece segments pieces hp hps ih =>
    cases hps with
    | nil =>
      have hone := hp.dropZeros []
      simpa [Text.join, written, dropZeros] using hone
    | @cons next q nexts qs hq hqs =>
      have hrest := hp.dropZeros ('.' :: Text.join '.' (q :: qs))
      have hdot : dropZeros false ('.' :: Text.join '.' (q :: qs)) =
          '.' :: dropZeros false (Text.join '.' (q :: qs)) := dropZeros_closed _ _
      rw [hdot, ih] at hrest
      exact hrest

theorem dropZeros_length_le (opened : Bool) (s : List Char) :
    (dropZeros opened s).length ≤ s.length := by
  induction s generalizing opened with
  | nil => rfl
  | cons c s ih =>
    rw [dropZeros]
    split
    · have := ih true
      simp only [List.length_cons]
      omega
    · have := ih (c == '[')
      simp only [List.length_cons]
      omega

theorem dropZeros_shortens (before after : List Char) {c : Char} (hc : c.isDigit = true)
    (opened : Bool) :
    (dropZeros opened (before ++ '[' :: '0' :: c :: after)).length <
      (before ++ '[' :: '0' :: c :: after).length := by
  induction before generalizing opened with
  | nil =>
    have hopen : dropZeros opened ('[' :: '0' :: c :: after) =
        '[' :: dropZeros true ('0' :: c :: after) := dropZeros_kept (by simp) opened
    have hle := dropZeros_length_le true (c :: after)
    rw [List.nil_append, hopen, dropZeros_zero hc]
    simp only [List.length_cons] at hle ⊢
    omega
  | cons d before ih =>
    rw [List.cons_append, dropZeros]
    split
    · have := ih true
      simp only [List.length_cons]
      omega
    · have := ih (d == '[')
      simp only [List.length_cons]
      omega

/-- The bracket that the flag stands for is put back in front, so the induction goes through. -/
theorem dropZeros_of_not_superfluous (opened : Bool) {s : List Char}
    (h : ¬ SuperfluousZero (if opened then '[' :: s else s)) : dropZeros opened s = s := by
  induction s generalizing opened with
  | nil => rfl
  | cons c s ih =>
    have htail : ¬ SuperfluousZero (c :: s) := by
      rintro ⟨before, d, after, hs, hd⟩
      apply h
      cases opened with
      | false => exact ⟨before, d, after, hs, hd⟩
      | true => exact ⟨'[' :: before, d, after, by simp [hs], hd⟩
    have hrest : dropZeros (c == '[') s = s := by
      apply ih
      rintro ⟨before, d, after, hs, hd⟩
      by_cases hc : c = '['
      · subst hc
        exact htail ⟨before, d, after, hs, hd⟩
      · have hflag : (c == '[') = false := by simp [hc]
        simp only [hflag, Bool.false_eq_true, if_false] at hs
        exact htail ⟨c :: before, d, after, by rw [hs]; rfl, hd⟩
    by_cases hzero : c = '0' ∧ s.head?.any Char.isDigit = true
    · obtain ⟨rfl, hdigit⟩ := hzero
      cases s with
      | nil => cases hdigit
      | cons d after =>
        cases opened with
        | true => exact absurd ⟨[], d, after, rfl, hdigit⟩ h
        | false => rw [dropZeros_closed, hrest]
    · rw [dropZeros_kept hzero, hrest]

theorem dropZeros_eq_iff (s : List Char) : dropZeros false s = s ↔ ¬ SuperfluousZero s := by
  constructor
  · rintro h ⟨before, c, after, rfl, hc⟩
    have := dropZeros_shortens before after hc false
    rw [h] at this
    omega
  · exact dropZeros_of_not_superfluous false

example : dropZeros false "a0[007].b00[00]".toList = "a0[7].b00[0]".toList := by decide

theorem rendered_toList (segments : List Segment) :
    (rendered segments).toList = written segments := by
  have htexts : segments.map (String.toList ∘ Segment.text) = segments.map Segment.written := by
    simp [Segment.text, Function.comp_def]
  rw [rendered, String.toList_intercalate, List.map_map, htexts, written,
    Text.join_eq_intercalate]
  rfl

theorem Spelled.plain {segments : List Segment} {s : List Char} (h : Spelled segments s) :
    ∀ segment ∈ segments, Plain segment.name := by
  obtain ⟨pieces, hps, -⟩ := h
  clear s
  induction hps with
  | nil => simp
  | cons hp _ ih =>
    intro segment hm
    rcases List.mem_cons.mp hm with rfl | hm
    · cases hp with
      | field hname => exact hname
      | indexed hname _ _ _ => exact hname
    · exact ih segment hm

theorem parse_rendered {segments : List Segment} (hne : segments ≠ [])
    (hplain : ∀ s ∈ segments, Plain s.name) (hempty : segments ≠ [.field ""]) :
    parse (rendered segments) = .ok ⟨rendered segments, segments⟩ := by
  refine (parse_ok_iff _ _).mpr ⟨rfl, .inr ?_⟩
  change (rendered segments).toList ≠ [] ∧ segments ≠ [] ∧ Spelled segments _
  rw [rendered_toList]
  exact ⟨written_ne_nil hne hempty, hne, written_spelled hplain⟩

theorem rendered_grammatical {segments : List Segment} {s : List Char}
    (h : Grammatical segments s) :
    (rendered segments).toList = dropZeros false s ∧
      parse (rendered segments) = .ok ⟨rendered segments, segments⟩ := by
  rcases h with ⟨rfl, rfl⟩ | ⟨hs, hne, hspelled⟩
  · exact ⟨rfl, rfl⟩
  · constructor
    · obtain ⟨pieces, hps, rfl⟩ := hspelled
      rw [rendered_toList, dropZeros_join hps]
    · apply parse_rendered hne hspelled.plain
      intro hempty
      exact hs ((hspelled.eq_nil_iff hne).mpr hempty)

/-- Writing and reading are inverse up to zeros. What was written is read back; and writing what
was read drops the superfluous zeros of the indices, so it gives the same text just if there are
none, and in any case a text with the same reading. -/
theorem rendered_inverse_parse :
    (∀ segments : List Segment, segments ≠ [] → (∀ s ∈ segments, Plain s.name) →
      segments ≠ [.field ""] →
      parse (rendered segments) = .ok ⟨rendered segments, segments⟩) ∧
    (∀ (s : String) (p : Path), parse s = .ok p →
      (rendered p.segments).toList = dropZeros false s.toList ∧
      (rendered p.segments = s ↔ ¬ SuperfluousZero s.toList) ∧
      parse (rendered p.segments) = .ok ⟨rendered p.segments, p.segments⟩) := by
  constructor
  · intro segments hne hplain hempty
    exact parse_rendered hne hplain hempty
  · intro s p hp
    obtain ⟨-, hg⟩ := (parse_ok_iff s p).mp hp
    obtain ⟨htext, hback⟩ := rendered_grammatical hg
    refine ⟨htext, ?_, hback⟩
    rw [← String.toList_inj, htext]
    exact dropZeros_eq_iff s.toList

/-- The greatest index, a name with a closing bracket and an empty name are read back; a text with
zeros in two indices is not the written form of its segments. -/
theorem greatest_index_read_back :
    parse (rendered [.indexed "a]" 18446744073709551615, .field ""]) =
      .ok ⟨rendered [.indexed "a]" 18446744073709551615, .field ""],
        [.indexed "a]" 18446744073709551615, .field ""]⟩ ∧
    parse "x[007].[00]" = .ok ⟨"x[007].[00]", [.indexed "x" 7, .indexed "" 0]⟩ ∧
    rendered [.indexed "x" 7, .indexed "" 0] ≠ "x[007].[00]" := by
  have hx : Spells (.indexed "x" 7) ("x".toList ++ '[' :: (['0', '0', '7'] ++ [']'])) :=
    .indexed (by simp [Plain]) (by simp) (by simp) (by decide)
  have hempty : Spells (.indexed "" 0) ("".toList ++ '[' :: (['0', '0'] ++ [']'])) :=
    .indexed (by simp [Plain]) (by simp) (by simp) (by decide)
  have hread : parse "x[007].[00]" = .ok ⟨"x[007].[00]", [.indexed "x" 7, .indexed "" 0]⟩ :=
    (parse_ok_iff _ _).mpr ⟨rfl, .inr ⟨by simp, by simp, _, .cons hx (.cons hempty .nil),
      by simp [Text.join]⟩⟩
  refine ⟨rendered_inverse_parse.1 _ (by simp) (by simp [Plain, Segment.name]) (by simp),
    hread, ?_⟩
  intro he
  apply (rendered_inverse_parse.2 _ _ hread).2.1.mp he
  exact ⟨['x'], '0', "7].[00]".toList, by simp, by decide⟩

end Path

end DocQuery
