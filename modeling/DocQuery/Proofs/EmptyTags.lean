import DocQuery.Proofs.TagNormalForm

/-! # Empty tags

A strict compiler refuses a text just if two separators stand side by side in it, or a comma stands
at one of its ends; a space cannot stand there, since the text is trimmed. What it accepts is
compiled as ever, into tags only. -/

namespace DocQuery.Tag

open Text

def IsSeparator (c : Char) : Prop := c = ' ' ∨ c = ','

/-- What gives a trimmed text an empty tag: a comma at an end, or two separators side by side. -/
def HasEmptyTag (t : List Char) : Prop :=
  t ≠ [] ∧ (t.head? = some ',' ∨ t.getLast? = some ',' ∨
    [',', ','] <:+: t ∨ [' ', ' '] <:+: t ∨ [' ', ','] <:+: t ∨ [',', ' '] <:+: t)

instance (t : List Char) : Decidable (HasEmptyTag t) := inferInstanceAs (Decidable (_ ∧ _))

/-! ## Where the empty tags of a text are -/

theorem gap_nested {outer inner inner' outer' : List Char} (ho : Gap (· = ' ') outer outer')
    (hi : Gap (· = ',') inner inner') : Gap IsSeparator (outer ++ inner) (inner' ++ outer') := by
  constructor
  · intro c hc
    rw [List.getLast?_append, Option.or_eq_some_iff] at hc
    rcases hc with hc | ⟨-, hc⟩
    · exact Or.inr (hi.before c hc)
    · exact Or.inl (ho.before c hc)
  · intro c hc
    rw [List.head?_append, Option.or_eq_some_iff] at hc
    rcases hc with hc | ⟨-, hc⟩
    · exact Or.inr (hi.behind c hc)
    · exact Or.inl (ho.behind c hc)

theorem gap_within {outer inner inner' outer' : List Char}
    (h : Gap IsSeparator (outer ++ inner) (inner' ++ outer')) (hinner : ' ' ∉ inner)
    (hinner' : ' ' ∉ inner') : Gap (· = ',') inner inner' := by
  constructor
  · intro c hc
    have hwhole : (outer ++ inner).getLast? = some c := by rw [List.getLast?_append, hc]; rfl
    refine (h.before c hwhole).resolve_left ?_
    rintro rfl
    exact hinner (List.mem_of_getLast? hc)
  · intro c hc
    have hwhole : (inner' ++ outer').head? = some c := by rw [List.head?_append, hc]; rfl
    refine (h.behind c hwhole).resolve_left ?_
    rintro rfl
    exact hinner' (List.mem_of_head? hc)

/-- Splitting at spaces and then at commas gives an empty piece just where two separators meet. -/
theorem empty_piece_iff (t : List Char) :
    (∃ group ∈ split ' ' t, [] ∈ split ',' group) ↔
      ∃ front back, t = front ++ back ∧ Gap IsSeparator front back := by
  constructor
  · rintro ⟨group, hgroup, hempty⟩
    obtain ⟨-, outer, outer', rfl, ho⟩ := (mem_split_iff ' ' t group).mp hgroup
    obtain ⟨-, inner, inner', rfl, hi⟩ := (mem_split_iff ',' group []).mp hempty
    exact ⟨outer ++ inner, inner' ++ outer', by simp, gap_nested ho hi⟩
  · rintro ⟨front, back, rfl, hgap⟩
    obtain ⟨outer, inner, rfl, hinner, houter⟩ := exists_last_piece ' ' front
    obtain ⟨inner', outer', rfl, hinner', houter'⟩ := exists_first_piece ' ' back
    have hplain : ' ' ∉ inner ++ inner' := by simp [hinner, hinner']
    have hgroup := Gap.mem_split ⟨houter, houter'⟩ hplain
    have hempty := (gap_within hgap hinner hinner').mem_split List.not_mem_nil
    rw [List.append_nil] at hempty
    exact ⟨inner ++ inner', by simpa using hgroup, hempty⟩

theorem gap_iff_adjacent (t : List Char) :
    (∃ front back, front ≠ [] ∧ back ≠ [] ∧ t = front ++ back ∧ Gap IsSeparator front back) ↔
      ∃ c d, IsSeparator c ∧ IsSeparator d ∧ [c, d] <:+: t := by
  constructor
  · rintro ⟨front, back, hfront, hback, rfl, hgap⟩
    obtain ⟨first, c, rfl⟩ := front.eq_nil_or_concat'.resolve_left hfront
    obtain ⟨d, last, rfl⟩ := List.exists_cons_of_ne_nil hback
    exact ⟨c, d, hgap.before c List.getLast?_concat, hgap.behind d rfl, first, last, by simp⟩
  · rintro ⟨c, d, hc, hd, first, last, rfl⟩
    refine ⟨first ++ [c], d :: last, by simp, by simp, by simp, ?_, ?_⟩
    · intro x hx
      rw [List.getLast?_concat, Option.some.injEq] at hx
      rwa [← hx]
    · intro x hx
      rw [List.head?_cons, Option.some.injEq] at hx
      rwa [← hx]

theorem separator_at_end {t : List Char} (ht : Trimmed t) {c : Char}
    (hc : t.head? = some c ∨ t.getLast? = some c) (hsep : IsSeparator c) : c = ',' := by
  refine hsep.resolve_left ?_
  rintro rfl
  have hblank : isBlank ' ' = false := hc.elim (ht.1 ' ') (ht.2 ' ')
  revert hblank
  decide

theorem hasEmptyTag_iff_gap {t : List Char} (ht : Trimmed t) (hne : t ≠ []) :
    HasEmptyTag t ↔ ∃ front back, t = front ++ back ∧ Gap IsSeparator front back := by
  constructor
  · rintro ⟨-, h | h | h⟩
    · exact ⟨[], t, rfl, by simp, by simp [h, IsSeparator]⟩
    · exact ⟨t, [], by simp, by simp [h, IsSeparator], by simp⟩
    · obtain ⟨front, back, -, -, hgap⟩ := (gap_iff_adjacent t).mpr <| by
        rcases h with h | h | h | h
        all_goals exact ⟨_, _, by simp [IsSeparator], by simp [IsSeparator], h⟩
      exact ⟨front, back, hgap⟩
  · rintro ⟨front, back, hcut, hgap⟩
    refine ⟨hne, ?_⟩
    by_cases hfront : front = []
    · left
      rw [hfront, List.nil_append] at hcut
      have hc := List.head?_eq_some_head hne
      rwa [separator_at_end ht (Or.inl hc) (hgap.behind _ (hcut ▸ hc))] at hc
    by_cases hback : back = []
    · right; left
      rw [hback, List.append_nil] at hcut
      have hc := List.getLast?_eq_some_getLast hne
      rwa [separator_at_end ht (Or.inr hc) (hgap.before _ (hcut ▸ hc))] at hc
    · right; right
      obtain ⟨c, d, hc, hd, hpair⟩ :=
        (gap_iff_adjacent t).mp ⟨front, back, hfront, hback, hcut, hgap⟩
      rcases hc with rfl | rfl <;> rcases hd with rfl | rfl
      · exact Or.inr (Or.inl hpair)
      · exact Or.inr (Or.inr (Or.inl hpair))
      · exact Or.inr (Or.inr (Or.inr hpair))
      · exact Or.inl hpair

theorem Expression.hasBlank_iff (e : Expression) :
    e.hasBlank = true ↔ ∃ c ∈ e.clauses, .blank ∈ c.tokens := by
  have hblank (t : Token) : t.isBlank = true ↔ t = .blank := by cases t <;> simp [Token.isBlank]
  simp only [Expression.hasBlank, List.any_eq_true, hblank, exists_eq_right]

theorem Clause.blank_mem_read_iff (group : List Char) :
    .blank ∈ (Clause.read group).tokens ↔ [] ∈ split ',' group := by
  rw [Clause.read, List.mem_map]
  constructor
  · rintro ⟨raw, hraw, hread⟩
    rwa [Token.read_blank hread] at hraw
  · intro h
    exact ⟨[], h, rfl⟩

theorem hasBlank_read_iff (s : List Char) :
    (Expression.read s).hasBlank = true ↔ HasEmptyTag (trim s) := by
  rw [Expression.hasBlank_iff]
  by_cases hne : trim s = []
  · rw [read_of_blank hne, hne]
    simp [HasEmptyTag]
  · rw [hasEmptyTag_iff_gap (trimmed_trim s) hne, ← empty_piece_iff, read_of_ne_nil hne]
    simp only [List.mem_map, exists_exists_and_eq_and, Clause.blank_mem_read_iff]

theorem compile_strict (s : String) : compile .strict s =
    if HasEmptyTag (trim s.toList) then .error (.invalidArgument (.emptyTag s))
    else .ok (Expression.read s.toList) := by
  have hstrict : Options.strict.emptyTokens = .reject := rfl
  simp only [compile, hstrict, true_and, hasBlank_read_iff]

theorem emptyTag_message (s : String) : (Error.invalidArgument (.emptyTag s)).message =
    "Invalid argument: Tag expression '" ++ s ++ "' contains an empty tag" := by
  change "Invalid argument: " ++ ("Tag expression '" ++ s ++ "' contains an empty tag") = _
  simp only [← String.append_assoc, String.reduceAppend]

theorem WellFormed.texts_have_sigils {e : Expression} (h : WellFormed e) (htags : e.hasBlank ≠ true) :
    ∀ text ∈ e.texts, text ≠ "" ∧ ∀ piece ∈ text.toList.splitOn ',', HasSigil piece := by
  intro text htext
  obtain ⟨c, hc, rfl⟩ := List.mem_map.mp htext
  have hpieces : ∀ piece ∈ c.text.toList.splitOn ',', HasSigil piece := by
    rw [Clause.text, String.toList_ofList, ← split_eq_splitOn, h.clause_pieces hc]
    intro piece hpiece
    obtain ⟨t, ht, rfl⟩ := List.mem_map.mp hpiece
    apply Token.written_hasSigil
    rintro rfl
    exact htags ((Expression.hasBlank_iff e).mpr ⟨c, hc, ht⟩)
  refine ⟨?_, hpieces⟩
  intro hempty
  rw [hempty] at hpieces
  simpa [HasSigil] using hpieces [] List.mem_cons_self

/-- Whether a text has an empty tag can be seen in it, and a strict compiler refuses exactly those
that have one, quoting the text as it was given. -/
theorem strict_refuses_empty_tags (s : String) :
    ∃ e, compile {} s = .ok e ∧
      (∀ error, compile .strict s = .error error ↔
        HasEmptyTag (trim s.toList) ∧ error = .invalidArgument (.emptyTag s)) ∧
      (Error.invalidArgument (.emptyTag s)).message =
        "Invalid argument: Tag expression '" ++ s ++ "' contains an empty tag" ∧
      (¬ HasEmptyTag (trim s.toList) →
        compile .strict s = .ok e ∧
        (∀ c ∈ e.clauses, ∀ t ∈ c.tokens, ∃ negated name, t = .tag negated name) ∧
        (∀ text ∈ e.texts, text ≠ "" ∧ ∀ piece ∈ text.toList.splitOn ',', HasSigil piece) ∧
        compile .strict e.text = .ok e) := by
  refine ⟨Expression.read s.toList, rfl, ?_, emptyTag_message s, ?_⟩
  · intro error
    rw [compile_strict]
    split
    · next h => simp [h, eq_comm]
    · next h => simp [h]
  · intro hnone
    have hwell := wellFormed_read s.toList
    have htags : (Expression.read s.toList).hasBlank ≠ true := by rwa [Ne, hasBlank_read_iff]
    refine ⟨by rw [compile_strict, if_neg hnone], ?_, hwell.texts_have_sigils htags, ?_⟩
    · intro c hc t ht
      cases t with
      | blank => exact absurd ((Expression.hasBlank_iff _).mpr ⟨c, hc, ht⟩) htags
      | tag negated name => exact ⟨negated, name, rfl⟩
    · rw [compile, hwell.read_text]
      exact if_neg fun h => htags h.2

/-- The tab at the end is no part of a tag, and the text written with all sigils is accepted too. -/
theorem tab_at_end_accepted :
    ¬ HasEmptyTag (trim "~a,@b c\t".toList) ∧
    compile .strict "~a,@b c\t" = .ok ⟨[⟨[.tag true "a", .tag false "b"]⟩, ⟨[.tag false "c"]⟩]⟩ ∧
    compile .strict "~@a,@b @c" = .ok ⟨[⟨[.tag true "a", .tag false "b"]⟩, ⟨[.tag false "c"]⟩]⟩ := by
  have hnone : ¬ HasEmptyTag (trim "~a,@b c\t".toList) := by decide +kernel
  have hread : Expression.read "~a,@b c\t".toList =
      ⟨[⟨[.tag true "a", .tag false "b"]⟩, ⟨[.tag false "c"]⟩]⟩ := by decide +kernel
  obtain ⟨e, he, -, -, haccepted⟩ := strict_refuses_empty_tags "~a,@b c\t"
  obtain ⟨hstrict, -, -, hagain⟩ := haccepted hnone
  have hcompiled : e = ⟨[⟨[.tag true "a", .tag false "b"]⟩, ⟨[.tag false "c"]⟩]⟩ := by
    rw [← hread]
    exact (Except.ok.inj he).symm
  rw [hcompiled] at hstrict hagain
  have htext : Expression.text ⟨[⟨[.tag true "a", .tag false "b"]⟩, ⟨[.tag false "c"]⟩]⟩ =
      "~@a,@b @c" := by decide +kernel
  rw [htext] at hagain
  exact ⟨hnone, hstrict, hagain⟩

end DocQuery.Tag
