import DocQuery.Proofs.TextPieces
import DocQuery.Tag

/-! # Normal forms of tag expressions

Reading a text and writing the expression are inverse on the well-formed expressions, and these are
all that reading ever gives. The conditions at the ends are what trimming takes away: a blank
clause there would be lost, and so would white space behind the last name. -/

namespace DocQuery.Tag

open Text

structure WellFormed (e : Expression) : Prop where
  tokens : ∀ c ∈ e.clauses, c.tokens ≠ []
  names : ∀ c ∈ e.clauses, ∀ negated name, .tag negated name ∈ c.tokens →
    ' ' ∉ name.toList ∧ ',' ∉ name.toList
  first_clause : ∀ c, e.clauses.head? = some c → c.tokens ≠ [.blank]
  last_clause : ∀ c, e.clauses.getLast? = some c → c.tokens ≠ [.blank]
  last_name : ∀ c negated name ch, e.clauses.getLast? = some c →
    c.tokens.getLast? = some (.tag negated name) → name.toList.getLast? = some ch →
    isBlank ch = false

theorem Token.read_written (t : Token) : Token.read t.written = t := by
  cases t with
  | blank => rfl
  | tag negated name => cases negated <;> simp [Token.written, Token.read, Token.nameOf]

theorem Token.written_separators {t : Token} {sep : Char} (hneg : sep ≠ '~') (hsigil : sep ≠ '@')
    (h : ∀ negated name, t = .tag negated name → sep ∉ name.toList) : sep ∉ t.written := by
  cases t with
  | blank => exact List.not_mem_nil
  | tag negated name =>
    have hname := h negated name rfl
    cases negated <;> simp [Token.written, hneg, hsigil, hname]

def HasSigil (t : List Char) : Prop := ['@'] <+: t ∨ ['~', '@'] <+: t

instance (t : List Char) : Decidable (HasSigil t) := inferInstanceAs (Decidable (_ ∨ _))

theorem Token.written_hasSigil {t : Token} (h : t ≠ .blank) : HasSigil t.written := by
  cases t with
  | blank => exact absurd rfl h
  | tag negated name =>
    cases negated with
    | false => exact Or.inl ⟨name.toList, rfl⟩
    | true => exact Or.inr ⟨name.toList, rfl⟩

theorem Token.written_head (t : Token) (h : t ≠ .blank) :
    t.written.head? = some '@' ∨ t.written.head? = some '~' := by
  cases t with
  | blank => exact absurd rfl h
  | tag negated name =>
    cases negated
    · exact Or.inl rfl
    · exact Or.inr rfl

theorem Token.written_last (negated : Bool) (name : String) :
    (Token.tag negated name).written.getLast? = name.toList.getLast?.or (some '@') := by
  have hsigil : ('@' :: name.toList).getLast? = name.toList.getLast?.or (some '@') := by
    rw [List.getLast?_cons]
    cases name.toList.getLast? <;> rfl
  cases negated with
  | false => exact hsigil
  | true => exact (List.getLast?_cons_cons).trans hsigil

theorem Token.nameOf_suffix (raw : List Char) : (Token.nameOf raw).toList <:+ raw := by
  unfold Token.nameOf
  split
  · exact ⟨['@'], by simp⟩
  · exact ⟨[], by simp⟩

theorem Token.read_name {raw : List Char} {negated : Bool} {name : String}
    (h : Token.read raw = .tag negated name) : name.toList <:+ raw := by
  unfold Token.read at h
  split at h
  · cases h
  · cases h; exact (Token.nameOf_suffix _).trans (List.suffix_cons _ _)
  · cases h; exact Token.nameOf_suffix _

theorem Token.read_blank {raw : List Char} (h : Token.read raw = .blank) : raw = [] := by
  unfold Token.read at h
  split at h
  · rfl
  · cases h
  · cases h

theorem Clause.split_written {c : Clause} (hne : c.tokens ≠ [])
    (hnames : ∀ negated name, .tag negated name ∈ c.tokens → ',' ∉ name.toList) :
    split ',' c.written = c.tokens.map Token.written := by
  refine split_join (by simpa using hne) ?_
  intro piece hp
  obtain ⟨t, ht, rfl⟩ := List.mem_map.mp hp
  refine Token.written_separators (by decide) (by decide) ?_
  rintro negated name rfl
  exact hnames negated name ht

theorem Clause.read_written {c : Clause} (hne : c.tokens ≠ [])
    (hnames : ∀ negated name, .tag negated name ∈ c.tokens → ',' ∉ name.toList) :
    Clause.read c.written = c := by
  have hback : c.tokens.map (Token.read ∘ Token.written) = c.tokens := by
    rw [show Token.read ∘ Token.written = id from funext Token.read_written, List.map_id]
  rw [Clause.read, Clause.split_written hne hnames, List.map_map, hback]

theorem Clause.written_head {c : Clause} (hne : c.tokens ≠ []) (hb : c.tokens ≠ [.blank]) :
    ∃ ch, c.written.head? = some ch ∧ isBlank ch = false := by
  obtain ⟨tokens⟩ := c
  cases tokens with
  | nil => exact absurd rfl hne
  | cons t rest =>
    rw [Clause.written, List.map_cons, head_join]
    by_cases ht : t = .blank
    · subst ht
      have hrest : rest.map Token.written ≠ [] := by
        intro h
        rw [List.map_eq_nil_iff.mp h] at hb
        exact hb rfl
      exact ⟨',', by rw [if_neg hrest]; rfl, by decide⟩
    · rcases Token.written_head t ht with h | h
      · exact ⟨'@', by rw [h]; rfl, by decide⟩
      · exact ⟨'~', by rw [h]; rfl, by decide⟩

theorem Clause.written_last {c : Clause} (hne : c.tokens ≠ []) (hb : c.tokens ≠ [.blank])
    (hname : ∀ negated name ch, c.tokens.getLast? = some (.tag negated name) →
      name.toList.getLast? = some ch → isBlank ch = false) :
    ∃ ch, c.written.getLast? = some ch ∧ isBlank ch = false := by
  obtain ⟨t, ht⟩ : ∃ t, c.tokens.getLast? = some t := ⟨_, List.getLast?_eq_some_getLast hne⟩
  have hlast : (c.tokens.map Token.written).getLast? = some t.written := by
    rw [List.getLast?_map, ht]; rfl
  rw [Clause.written, last_join ',' hlast]
  cases t with
  | blank =>
    have hlong : c.tokens.map Token.written ≠ [Token.blank.written] := by
      intro h
      obtain ⟨u, hu, -⟩ := List.map_eq_singleton_iff.mp h
      rw [hu] at ht hb
      cases ht
      exact hb rfl
    exact ⟨',', by rw [if_neg hlong]; rfl, by decide⟩
  | tag negated name =>
    rw [Token.written_last]
    cases hn : name.toList.getLast? with
    | none => exact ⟨'@', rfl, by decide⟩
    | some ch => exact ⟨ch, rfl, hname negated name ch ht hn⟩

theorem Clause.written_no_space {c : Clause}
    (hnames : ∀ negated name, .tag negated name ∈ c.tokens → ' ' ∉ name.toList) :
    ' ' ∉ c.written := by
  intro h
  rcases mem_of_mem_join h with h | ⟨piece, hp, h⟩
  · exact absurd h (by decide)
  · obtain ⟨t, ht, rfl⟩ := List.mem_map.mp hp
    refine Token.written_separators (by decide) (by decide) ?_ h
    rintro negated name rfl
    exact hnames negated name ht

theorem WellFormed.written_head {e : Expression} (h : WellFormed e) (hne : e.clauses ≠ []) :
    ∃ ch, e.written.head? = some ch ∧ isBlank ch = false := by
  obtain ⟨clauses⟩ := e
  cases clauses with
  | nil => exact absurd rfl hne
  | cons c rest =>
    obtain ⟨ch, hc, hb⟩ :=
      Clause.written_head (h.tokens c List.mem_cons_self) (h.first_clause c rfl)
    exact ⟨ch, by rw [Expression.written, List.map_cons, head_join, hc]; rfl, hb⟩

theorem WellFormed.written_last {e : Expression} (h : WellFormed e) (hne : e.clauses ≠ []) :
    ∃ ch, e.written.getLast? = some ch ∧ isBlank ch = false := by
  obtain ⟨c, hc⟩ : ∃ c, e.clauses.getLast? = some c := ⟨_, List.getLast?_eq_some_getLast hne⟩
  have hlast : (e.clauses.map Clause.written).getLast? = some c.written := by
    rw [List.getLast?_map, hc]; rfl
  obtain ⟨ch, hl, hb⟩ := Clause.written_last (h.tokens c (List.mem_of_getLast? hc))
    (h.last_clause c hc) (fun negated name ch => h.last_name c negated name ch hc)
  exact ⟨ch, by rw [Expression.written, last_join ' ' hlast, hl]; rfl, hb⟩

theorem read_of_blank {s : List Char} (h : trim s = []) : Expression.read s = ⟨[]⟩ := by
  simp [Expression.read, h]

theorem read_of_ne_nil {s : List Char} (h : trim s ≠ []) :
    Expression.read s = ⟨(split ' ' (trim s)).map Clause.read⟩ := by
  unfold Expression.read
  split
  · contradiction
  · rfl

theorem WellFormed.split_written {e : Expression} (h : WellFormed e) (hne : e.clauses ≠ []) :
    split ' ' e.written = e.clauses.map Clause.written := by
  refine split_join (by simpa using hne) ?_
  intro piece hp
  obtain ⟨c, hc, rfl⟩ := List.mem_map.mp hp
  exact Clause.written_no_space fun negated name ht => (h.names c hc negated name ht).1

theorem WellFormed.clause_pieces {e : Expression} (h : WellFormed e) {c : Clause}
    (hc : c ∈ e.clauses) : split ',' c.written = c.tokens.map Token.written :=
  Clause.split_written (h.tokens c hc) fun negated name ht => (h.names c hc negated name ht).2

theorem WellFormed.read_written {e : Expression} (h : WellFormed e) :
    Expression.read e.written = e := by
  by_cases hne : e.clauses = []
  · obtain ⟨clauses⟩ := e
    change clauses = [] at hne
    subst hne
    exact read_of_blank rfl
  · obtain ⟨first, hfirst, hfb⟩ := h.written_head hne
    obtain ⟨last, hlast, hlb⟩ := h.written_last hne
    have htrim : trim e.written = e.written := by
      apply trim_of_trimmed
      constructor
      · intro ch hch; rw [hfirst] at hch; cases hch; exact hfb
      · intro ch hch; rw [hlast] at hch; cases hch; exact hlb
    have hwritten : e.written ≠ [] := by
      intro hnil; rw [hnil] at hfirst; cases hfirst
    have hback : e.clauses.map (Clause.read ∘ Clause.written) = e.clauses := by
      conv_rhs => rw [← List.map_id e.clauses]
      refine List.map_congr_left fun c hc => ?_
      exact Clause.read_written (h.tokens c hc)
        fun negated name ht => (h.names c hc negated name ht).2
    rw [read_of_ne_nil (by rwa [htrim]), htrim, h.split_written hne, List.map_map, hback]

theorem WellFormed.read_text {e : Expression} (h : WellFormed e) :
    Expression.read e.text.toList = e := by
  rw [Expression.text, String.toList_ofList, h.read_written]

theorem Clause.read_blank {group : List Char} (h : (Clause.read group).tokens = [.blank]) :
    group = [] := by
  obtain ⟨raw, hraw, hblank⟩ := List.map_eq_singleton_iff.mp h
  rw [← join_split ',' group, hraw, Token.read_blank hblank]
  rfl

theorem wellFormed_read (s : List Char) : WellFormed (Expression.read s) := by
  by_cases hne : trim s = []
  · rw [read_of_blank hne]
    constructor <;> simp
  · have htrimmed := trimmed_trim s
    rw [read_of_ne_nil hne]
    generalize trim s = t at hne htrimmed
    constructor
    case tokens =>
      intro c hc
      obtain ⟨group, -, rfl⟩ := List.mem_map.mp hc
      simpa [Clause.read] using split_ne_nil ',' group
    case names =>
      intro c hc negated name ht
      obtain ⟨group, hg, rfl⟩ := List.mem_map.mp hc
      obtain ⟨raw, hraw, hread⟩ := List.mem_map.mp ht
      have htail := Token.read_name hread
      refine ⟨fun hspace => ?_, fun hcomma => ?_⟩
      · exact not_mem_of_mem_split hg (mem_of_mem_split hraw (htail.subset hspace))
      · exact not_mem_of_mem_split hraw (htail.subset hcomma)
    case first_clause =>
      intro c hc hblank
      rw [List.head?_map] at hc
      obtain ⟨group, hg, rfl⟩ := Option.map_eq_some_iff.mp hc
      rw [Clause.read_blank hblank] at hg
      exact absurd (htrimmed.1 ' ' (head_of_empty_piece hne hg)) (by decide)
    case last_clause =>
      intro c hc hblank
      rw [List.getLast?_map] at hc
      obtain ⟨group, hg, rfl⟩ := Option.map_eq_some_iff.mp hc
      rw [Clause.read_blank hblank] at hg
      exact absurd (htrimmed.2 ' ' (last_of_empty_piece hne hg)) (by decide)
    case last_name =>
      intro c negated name ch hc ht hch
      rw [List.getLast?_map] at hc
      obtain ⟨group, hg, rfl⟩ := Option.map_eq_some_iff.mp hc
      rw [Clause.read, List.getLast?_map] at ht
      obtain ⟨raw, hraw, hread⟩ := Option.map_eq_some_iff.mp ht
      obtain ⟨front, rfl⟩ := Token.read_name hread
      have hrawlast : (front ++ name.toList).getLast? = some ch := by
        rw [List.getLast?_append, hch]; rfl
      exact htrimmed.2 ch (last_of_last_piece hg (last_of_last_piece hraw hrawlast))

theorem written_eq_texts (e : Expression) :
    (" ".intercalate e.texts).toList = e.written := by
  rw [String.toList_intercalate, Expression.written, join_eq_intercalate, Expression.texts,
    List.map_map]
  congr 1
  exact List.map_congr_left fun c _ => String.toList_ofList

/-- The normal forms of tag expressions are exactly the well-formed ones: reading gives nothing
else, and each is read back from its own text. So compiling the text of a compiled expression, or
its clause texts with single spaces between them, changes nothing. -/
theorem tag_normal_forms :
    (∀ s : String, WellFormed (Expression.read s.toList)) ∧
    (∀ e : Expression, WellFormed e → Expression.read e.text.toList = e) ∧
    ∀ s : String,
      compile {} (Expression.read s.toList).text = .ok (Expression.read s.toList) ∧
      clauseTexts (Expression.read s.toList).text = clauseTexts s ∧
      compile {} (" ".intercalate (clauseTexts s)) = .ok (Expression.read s.toList) ∧
      clauseTexts (" ".intercalate (clauseTexts s)) = clauseTexts s := by
  refine ⟨fun s => wellFormed_read s.toList, fun e h => h.read_text, ?_⟩
  intro s
  have htext := (wellFormed_read s.toList).read_text
  have hjoined : Expression.read (" ".intercalate (clauseTexts s)).toList =
      Expression.read s.toList := by
    rw [clauseTexts, written_eq_texts, (wellFormed_read s.toList).read_written]
  have keep (t : String) : compile {} t = .ok (Expression.read t.toList) := rfl
  refine ⟨?_, ?_, ?_, ?_⟩
  · rw [keep, htext]
  · rw [clauseTexts, htext]; rfl
  · rw [keep, hjoined]
  · rw [clauseTexts, hjoined]; rfl

end DocQuery.Tag
