import DocQuery.Proofs.TagNormalForm
import Mathlib.Data.List.Forall2

/-! # Adding sigils

Compiling a text is a rewriting of its tokens: what is read into a tag and written again is the
token it was, with an `@` before the name if there was none. Nothing else of the trimmed text
changes. -/

namespace DocQuery.Tag

open Text

/-- The rewriting of a token. An empty one, and one that begins with `@` or `~@`, stays as it is. -/
def withSigil (raw : List Char) : List Char :=
  if raw = [] ∨ HasSigil raw then raw
  else if ['~'] <+: raw then '~' :: '@' :: raw.tail
  else '@' :: raw

/-- Unchanged, or with one `@` more. -/
def SigilAdded (raw written : List Char) : Prop :=
  written = raw ∨ ∃ front back, raw = front ++ back ∧ written = front ++ '@' :: back

/-- The tokens of a text: its groups are cut at spaces, and a group at commas. -/
def tokensOf (t : List Char) : List (List (List Char)) := (t.splitOn ' ').map (·.splitOn ',')

theorem withSigil_added (raw : List Char) : SigilAdded raw (withSigil raw) := by
  unfold withSigil
  split
  · exact Or.inl rfl
  · right
    split
    · next hneg =>
      obtain ⟨rest, rfl⟩ := hneg
      exact ⟨['~'], rest, rfl, rfl⟩
    · exact ⟨[], raw, rfl, rfl⟩

theorem Token.nameOf_of_head_ne {raw : List Char} (h : ¬ ['@'] <+: raw) :
    Token.nameOf raw = String.ofList raw := by
  unfold Token.nameOf
  split
  · next name => exact absurd ⟨name, rfl⟩ h
  · rfl

theorem Token.written_read (raw : List Char) : (Token.read raw).written = withSigil raw := by
  unfold withSigil Token.read
  split
  · rfl
  · next rest =>
    by_cases hsigil : ['@'] <+: rest
    · obtain ⟨name, rfl⟩ := hsigil
      simp [HasSigil, Token.nameOf, Token.written]
    · have hnone : ¬ HasSigil ('~' :: rest) := by
        rintro (h | h)
        · simp at h
        · exact hsigil (by simpa using h)
      rw [Token.nameOf_of_head_ne hsigil, if_neg (by simp [hnone]), if_pos ⟨rest, rfl⟩]
      simp [Token.written]
  · next hne hneg =>
    have hplain : ¬ ['~'] <+: raw := by
      rintro ⟨rest, rfl⟩
      exact hneg rest rfl
    by_cases hsigil : ['@'] <+: raw
    · obtain ⟨name, rfl⟩ := hsigil
      simp [HasSigil, Token.nameOf, Token.written]
    · have hnone : ¬ HasSigil raw := by
        rintro (h | ⟨rest, rfl⟩)
        · exact hsigil h
        · exact hplain ⟨'@' :: rest, rfl⟩
      have hempty : raw ≠ [] := fun h => hne h
      rw [Token.nameOf_of_head_ne hsigil, if_neg (by simp [hempty, hnone]), if_neg hplain]
      simp [Token.written]

theorem WellFormed.tokensOf_written {e : Expression} (h : WellFormed e) (hne : e.clauses ≠ []) :
    tokensOf e.written = e.clauses.map fun c => c.tokens.map Token.written := by
  rw [tokensOf, ← split_eq_splitOn, h.split_written hne, List.map_map]
  refine List.map_congr_left fun c hc => ?_
  rw [Function.comp_apply, ← split_eq_splitOn, h.clause_pieces hc]

theorem clauses_read {s : List Char} (hne : trim s ≠ []) :
    (Expression.read s).clauses.map (fun c => c.tokens.map Token.written) =
      (tokensOf (trim s)).map (·.map withSigil) := by
  have hclause (group : List Char) : (Clause.read group).tokens.map Token.written =
      (group.splitOn ',').map withSigil := by
    rw [Clause.read, List.map_map, ← split_eq_splitOn]
    exact List.map_congr_left fun raw _ => Token.written_read raw
  rw [read_of_ne_nil hne, tokensOf, ← split_eq_splitOn, List.map_map, List.map_map]
  exact List.map_congr_left fun group _ => hclause group

theorem tokensOf_read (s : List Char) :
    tokensOf (Expression.read s).written = (tokensOf (trim s)).map (·.map withSigil) := by
  by_cases hne : trim s = []
  · rw [read_of_blank hne, hne]
    rfl
  · have hclauses : (Expression.read s).clauses ≠ [] := by
      rw [read_of_ne_nil hne]
      simpa using split_ne_nil ' ' (trim s)
    rw [(wellFormed_read s).tokensOf_written hclauses, clauses_read hne]

/-- Compiling rewrites the tokens of the trimmed text, in their groups and in their order, and adds
an `@` to some of them; the text made of the clauses differs in nothing else. -/
theorem clause_texts_add_sigils (s : String) :
    clauseTexts s =
      (if s.toList.all isBlank then []
      else (tokensOf (trim s.toList)).map fun group =>
        String.ofList ([','].intercalate (group.map withSigil))) ∧
    List.Forall₂ (List.Forall₂ SigilAdded) (tokensOf (trim s.toList))
      (tokensOf (" ".intercalate (clauseTexts s)).toList) := by
  constructor
  · have htexts (e : Expression) : e.texts =
        (e.clauses.map fun c => c.tokens.map Token.written).map fun written =>
          String.ofList ([','].intercalate written) := by
      rw [Expression.texts, List.map_map]
      refine List.map_congr_left fun c _ => ?_
      rw [Function.comp_apply, Clause.text, Clause.written, join_eq_intercalate]
    have hblank : s.toList.all isBlank = true ↔ trim s.toList = [] := by
      rw [List.all_eq_true, trim_eq_nil_iff]
    rw [clauseTexts]
    by_cases hne : trim s.toList = []
    · rw [if_pos (hblank.mpr hne), read_of_blank hne]
      rfl
    · rw [if_neg (mt hblank.mp hne), htexts, clauses_read hne, List.map_map]
      rfl
  · rw [clauseTexts, written_eq_texts, tokensOf_read, List.forall₂_map_right_iff, List.forall₂_same]
    intro group _
    rw [List.forall₂_map_right_iff, List.forall₂_same]
    intro raw _
    exact withSigil_added raw

example : clauseTexts "~~x,@~x,,@@x  ~ @" = ["~@~x,@~x,,@@x", "", "~@", "@"] := by decide +kernel

end DocQuery.Tag
