import DocQuery.Proofs.TagNormalForm

/-! # Concatenated tag expressions

Two expressions with a space between them are the clauses of both, and two groups with a comma
between them are the tokens of both. White space around a text never shows. -/

namespace DocQuery.Tag

open Text

def BeginsBlank (s : List Char) : Prop := s.head?.any isBlank = true

instance (s : List Char) : Decidable (BeginsBlank s) := inferInstanceAs (Decidable (_ = true))

def EndsBlank (s : List Char) : Prop := s.getLast?.any isBlank = true

instance (s : List Char) : Decidable (EndsBlank s) := inferInstanceAs (Decidable (_ = true))

theorem exists_padding_before {s : List Char} (h : ¬ EndsBlank s) :
    ∃ before, s = before ++ trim s ∧ ∀ c ∈ before, isBlank c = true := by
  obtain ⟨before, behind, hs, hbefore, hbehind⟩ := exists_padding s
  rcases behind.eq_nil_or_concat' with rfl | ⟨rest, c, rfl⟩
  · exact ⟨before, by simpa using hs, hbefore⟩
  · refine absurd ?_ h
    rw [EndsBlank, hs, ← List.append_assoc, List.getLast?_concat]
    exact hbehind c (by simp)

theorem exists_padding_behind {s : List Char} (h : ¬ BeginsBlank s) :
    ∃ behind, s = trim s ++ behind ∧ ∀ c ∈ behind, isBlank c = true := by
  obtain ⟨before, behind, hs, hbefore, hbehind⟩ := exists_padding s
  cases before with
  | nil => exact ⟨behind, hs, hbehind⟩
  | cons c rest =>
    refine absurd ?_ h
    rw [BeginsBlank, hs]
    exact hbefore c List.mem_cons_self

theorem trimmed_append_space {a b : List Char} (ha : Trimmed a) (hb : Trimmed b) (hane : a ≠ [])
    (hbne : b ≠ []) : Trimmed (a ++ ' ' :: b) := by
  obtain ⟨first, a', rfl⟩ := List.exists_cons_of_ne_nil hane
  obtain ⟨b', last, rfl⟩ := b.eq_nil_or_concat'.resolve_left hbne
  constructor
  · intro c hc
    exact ha.1 c hc
  · intro c hc
    apply hb.2 c
    rw [← List.cons_append, ← List.append_assoc, List.getLast?_concat] at hc
    rwa [List.getLast?_concat]

theorem trim_append_space {a b : List Char} (ha : ¬ EndsBlank a) (hb : ¬ BeginsBlank b)
    (hane : a ≠ []) (hbne : b ≠ []) :
    trim a ≠ [] ∧ trim b ≠ [] ∧ trim (a ++ ' ' :: b) = trim a ++ ' ' :: trim b := by
  have hta : trim a ≠ [] := by
    intro htrim
    apply ha
    rw [EndsBlank, List.getLast?_eq_some_getLast hane]
    exact (trim_eq_nil_iff a).mp htrim _ (List.getLast_mem hane)
  have htb : trim b ≠ [] := by
    intro htrim
    apply hb
    rw [BeginsBlank, List.head?_eq_some_head hbne]
    exact (trim_eq_nil_iff b).mp htrim _ (List.head_mem hbne)
  obtain ⟨before, hpad, hbefore⟩ := exists_padding_before ha
  obtain ⟨behind, hpad', hbehind⟩ := exists_padding_behind hb
  have hjoined : a ++ ' ' :: b = before ++ (trim a ++ ' ' :: trim b) ++ behind := by
    conv_lhs => rw [hpad, hpad']
    simp
  refine ⟨hta, htb, ?_⟩
  rw [hjoined, trim_padded hbefore hbehind]
  exact trim_of_trimmed (trimmed_append_space (trimmed_trim a) (trimmed_trim b) hta htb)

theorem read_congr {s t : List Char} (h : trim s = trim t) :
    Expression.read s = Expression.read t := by
  rw [Expression.read, Expression.read, h]

theorem read_padded {before behind : List Char} (hbefore : ∀ c ∈ before, isBlank c = true)
    (hbehind : ∀ c ∈ behind, isBlank c = true) (s : List Char) :
    Expression.read (before ++ s ++ behind) = Expression.read s :=
  read_congr (trim_padded hbefore hbehind s)

theorem clauses_append_space {a b : List Char} (ha : ¬ EndsBlank a) (hb : ¬ BeginsBlank b) :
    (Expression.read (a ++ ' ' :: b)).clauses =
      (Expression.read a).clauses ++ (Expression.read b).clauses := by
  have hspace : ∀ c ∈ [' '], isBlank c = true := by simp [isBlank]
  have hnil : (Expression.read []).clauses = [] := rfl
  by_cases hane : a = []
  · have hread := read_padded hspace (List.forall_mem_nil _) b
    rw [List.append_nil, List.singleton_append] at hread
    rw [hane, List.nil_append, hread, hnil, List.nil_append]
  by_cases hbne : b = []
  · have hread := read_padded (List.forall_mem_nil _) hspace a
    rw [List.nil_append] at hread
    rw [hbne, hread, hnil, List.append_nil]
  · obtain ⟨hta, htb, htrim⟩ := trim_append_space ha hb hane hbne
    have hne : trim (a ++ ' ' :: b) ≠ [] := by simp [htrim]
    rw [read_of_ne_nil hne, read_of_ne_nil hta, read_of_ne_nil htb, htrim, split_append_sep,
      List.map_append]

theorem tokens_append_comma (a b : List Char) : (Clause.read (a ++ ',' :: b)).tokens =
    (Clause.read a).tokens ++ (Clause.read b).tokens := by
  rw [Clause.read, split_append_sep, List.map_append]
  rfl

/-- Whether a text compiles, and into what, does not depend on the blanks around it. A refusal
quotes the text, and so is another one. -/
theorem compile_ok_congr {s t : String} (h : Expression.read s.toList = Expression.read t.toList)
    (o : Options) (e : Expression) : compile o s = .ok e ↔ compile o t = .ok e := by
  rw [compile, compile, h]
  split <;> simp

/-- Compiling goes through the spaces and the commas of a text, and past the blanks around it. -/
theorem compilation_distributes :
    (∀ a b : String, ¬ EndsBlank a.toList → ¬ BeginsBlank b.toList →
      clauseTexts (a ++ " " ++ b) = clauseTexts a ++ clauseTexts b ∧
      (Expression.read (a ++ " " ++ b).toList).clauses =
        (Expression.read a.toList).clauses ++ (Expression.read b.toList).clauses) ∧
    (∀ a b : String, (Clause.read (a ++ "," ++ b).toList).tokens =
      (Clause.read a.toList).tokens ++ (Clause.read b.toList).tokens) ∧
    ∀ before s behind : String, (∀ c ∈ before.toList, isBlank c = true) →
      (∀ c ∈ behind.toList, isBlank c = true) →
      Expression.read (before ++ s ++ behind).toList = Expression.read s.toList ∧
      clauseTexts (before ++ s ++ behind) = clauseTexts s ∧
      ∀ o e, compile o (before ++ s ++ behind) = .ok e ↔ compile o s = .ok e := by
  refine ⟨?_, ?_, ?_⟩
  · intro a b ha hb
    have hclauses := clauses_append_space ha hb
    have htext : (a ++ " " ++ b).toList = a.toList ++ ' ' :: b.toList := by simp
    rw [← htext] at hclauses
    refine ⟨?_, hclauses⟩
    rw [clauseTexts, Expression.texts, hclauses, List.map_append]
    rfl
  · intro a b
    have htext : (a ++ "," ++ b).toList = a.toList ++ ',' :: b.toList := by simp
    rw [htext, tokens_append_comma]
  · intro before s behind hbefore hbehind
    have hread := read_padded hbefore hbehind s.toList
    rw [← String.toList_append, ← String.toList_append] at hread
    exact ⟨hread, by rw [clauseTexts, hread]; rfl, compile_ok_congr hread⟩

/-- The comma next to the space stays; the tab and the no-break space at the outer ends do not. -/
theorem comma_before_space_kept :
    (¬ EndsBlank "\t~a,".toList ∧ ¬ BeginsBlank "b\u00a0".toList ∧
      clauseTexts ("\t~a," ++ " " ++ "b\u00a0") = clauseTexts "\t~a," ++ clauseTexts "b\u00a0") ∧
    (∀ c ∈ " ".toList, isBlank c = true) ∧ (∀ c ∈ "\u2003\n".toList, isBlank c = true) ∧
      clauseTexts (" " ++ "~a, b" ++ "\u2003\n") = clauseTexts "~a, b" := by
  have hend : ¬ EndsBlank "\t~a,".toList := by decide
  have hbegin : ¬ BeginsBlank "b\u00a0".toList := by decide
  have hbefore : ∀ c ∈ " ".toList, isBlank c = true := by simp [isBlank]
  have hbehind : ∀ c ∈ "\u2003\n".toList, isBlank c = true := by simp [isBlank]
  exact ⟨⟨hend, hbegin, (compilation_distributes.1 _ _ hend hbegin).1⟩, hbefore, hbehind,
    (compilation_distributes.2.2 _ _ _ hbefore hbehind).2.1⟩

end DocQuery.Tag
