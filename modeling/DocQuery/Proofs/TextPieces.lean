import DocQuery.Text.Blank
import DocQuery.Text.Split
import Mathlib.Data.List.DropRight

/-! # Pieces and trimming

Splitting undoes joining where no piece holds the separator, and its pieces are what stands between
separators. The last piece is what stands behind the last separator, and nothing that is put around
the text reaches it across a separator. Trimming leaves alone exactly the texts whose ends are not
blank, and does not see what blanks were put around a text. -/

namespace DocQuery.Text

theorem split_eq_splitOn (sep : Char) (s : List Char) : split sep s = s.splitOn sep := by
  induction s with
  | nil => rfl
  | cons c rest ih =>
    rw [List.splitOn_cons_eq_if_modifyHead, ← ih, split]
    by_cases hc : c = sep
    · rw [if_pos hc, if_pos (beq_iff_eq.mpr hc)]
    · rw [if_neg hc, if_neg (mt beq_iff_eq.mp hc)]
      cases hs : split sep rest with
      | nil => exact absurd hs (split_ne_nil sep rest)
      | cons piece pieces => rfl

theorem split_of_not_mem {sep : Char} {s : List Char} (h : sep ∉ s) : split sep s = [s] := by
  rw [split_eq_splitOn, List.splitOn_eq_singleton h]

theorem split_append_sep (sep : Char) (front back : List Char) :
    split sep (front ++ sep :: back) = split sep front ++ split sep back := by
  simp only [split_eq_splitOn, List.splitOn_append_cons_self]

theorem split_append {sep : Char} {piece : List Char} (h : sep ∉ piece) (rest : List Char) :
    split sep (piece ++ sep :: rest) = piece :: split sep rest := by
  rw [split_append_sep, split_of_not_mem h, List.singleton_append]

theorem join_eq_intercalate (sep : Char) (pieces : List (List Char)) :
    join sep pieces = [sep].intercalate pieces := by
  induction pieces with
  | nil => rfl
  | cons piece rest ih =>
    cases rest with
    | nil => simp [join]
    | cons next rest => simp [join, ih]

theorem split_join {sep : Char} {pieces : List (List Char)} (hne : pieces ≠ [])
    (h : ∀ piece ∈ pieces, sep ∉ piece) : split sep (join sep pieces) = pieces := by
  rw [split_eq_splitOn, join_eq_intercalate, List.splitOn_intercalate sep h hne]

theorem count_join {sep : Char} {first : List Char} {others : List (List Char)}
    (h : ∀ piece ∈ first :: others, sep ∉ piece) :
    (join sep (first :: others)).count sep = others.length := by
  induction others generalizing first with
  | nil => exact List.count_eq_zero_of_not_mem (h first List.mem_cons_self)
  | cons next rest ih =>
    have hfirst := List.count_eq_zero_of_not_mem (h first List.mem_cons_self)
    have hrest := ih fun piece hp => h piece (List.mem_cons_of_mem _ hp)
    change (first ++ sep :: join sep (next :: rest)).count sep = _
    rw [List.count_append, List.count_cons_self, hfirst, hrest, List.length_cons, Nat.zero_add]

theorem not_mem_of_mem_split {sep : Char} {s piece : List Char} (h : piece ∈ split sep s) :
    sep ∉ piece := by
  induction s generalizing piece with
  | nil =>
    rw [split, List.mem_singleton] at h
    rw [h]; exact List.not_mem_nil
  | cons c rest ih =>
    rw [split] at h
    split at h
    · rcases List.mem_cons.mp h with rfl | h
      · exact List.not_mem_nil
      · exact ih h
    · next hc =>
      split at h
      · rw [List.mem_singleton] at h
        rw [h]
        exact mt List.mem_cons.mp (not_or.mpr ⟨Ne.symm hc, List.not_mem_nil⟩)
      · next first pieces hs =>
        rw [hs] at ih
        rcases List.mem_cons.mp h with rfl | h
        · exact mt List.mem_cons.mp (not_or.mpr ⟨Ne.symm hc, ih List.mem_cons_self⟩)
        · exact ih (List.mem_cons_of_mem _ h)

theorem mem_join_of_mem {sep c : Char} {piece : List Char} {pieces : List (List Char)}
    (hp : piece ∈ pieces) (hc : c ∈ piece) : c ∈ join sep pieces := by
  induction pieces with
  | nil => cases hp
  | cons first rest ih =>
    cases rest with
    | nil => rwa [← List.mem_singleton.mp hp]
    | cons next rest =>
      change c ∈ first ++ sep :: join sep (next :: rest)
      rcases List.mem_cons.mp hp with rfl | hp
      · exact List.mem_append_left _ hc
      · exact List.mem_append_right _ (List.mem_cons_of_mem _ (ih hp))

theorem mem_of_mem_join {sep c : Char} {pieces : List (List Char)} (h : c ∈ join sep pieces) :
    c = sep ∨ ∃ piece ∈ pieces, c ∈ piece := by
  induction pieces with
  | nil => cases h
  | cons first rest ih =>
    cases rest with
    | nil => exact Or.inr ⟨first, List.mem_cons_self, h⟩
    | cons next rest =>
      change c ∈ first ++ sep :: join sep (next :: rest) at h
      rcases List.mem_append.mp h with h | h
      · exact Or.inr ⟨first, List.mem_cons_self, h⟩
      rcases List.mem_cons.mp h with h | h
      · exact Or.inl h
      rcases ih h with h | ⟨piece, hp, hc⟩
      · exact Or.inl h
      · exact Or.inr ⟨piece, List.mem_cons_of_mem _ hp, hc⟩

theorem mem_of_mem_split {sep c : Char} {s piece : List Char} (h : piece ∈ split sep s)
    (hc : c ∈ piece) : c ∈ s := by
  have hj : c ∈ join sep (split sep s) := mem_join_of_mem h hc
  rwa [join_split] at hj

theorem join_append (sep : Char) {front back : List (List Char)} (hf : front ≠ [])
    (hb : back ≠ []) : join sep (front ++ back) = join sep front ++ sep :: join sep back := by
  obtain ⟨first, rest, rfl⟩ := List.exists_cons_of_ne_nil hf
  clear hf
  induction rest generalizing first with
  | nil =>
    obtain ⟨next, others, rfl⟩ := List.exists_cons_of_ne_nil hb
    rfl
  | cons next others ih =>
    change first ++ sep :: join sep (next :: (others ++ back)) = _
    rw [← List.cons_append, ih next]
    simp [join]

theorem head_join (sep : Char) (piece : List Char) (pieces : List (List Char)) :
    (join sep (piece :: pieces)).head? =
      piece.head?.or (if pieces = [] then none else some sep) := by
  cases pieces with
  | nil => simp [join]
  | cons next rest => simp [join]

theorem last_join (sep : Char) {piece : List Char} {pieces : List (List Char)}
    (h : pieces.getLast? = some piece) :
    (join sep pieces).getLast? =
      piece.getLast?.or (if pieces = [piece] then none else some sep) := by
  induction pieces with
  | nil => cases h
  | cons first rest ih =>
    cases rest with
    | nil =>
      cases h
      simp [join]
    | cons next rest =>
      rw [List.getLast?_cons_cons] at h
      have hlast := ih h
      change (first ++ sep :: join sep (next :: rest)).getLast? = _
      rw [List.getLast?_append, List.getLast?_cons, hlast]
      have hlong : first :: next :: rest ≠ [piece] := by simp
      rw [if_neg hlong]
      cases hp : piece.getLast? with
      | some c => simp
      | none =>
        by_cases hone : next :: rest = [piece] <;> simp [hone]

theorem last_of_last_piece {sep c : Char} {s piece : List Char}
    (h : (split sep s).getLast? = some piece) (hc : piece.getLast? = some c) :
    s.getLast? = some c := by
  rw [← join_split sep s, last_join sep h, hc]
  rfl

theorem head_of_empty_piece {sep : Char} {s : List Char} (hne : s ≠ [])
    (h : (split sep s).head? = some []) : s.head? = some sep := by
  cases hs : split sep s with
  | nil => exact absurd hs (split_ne_nil _ _)
  | cons piece pieces =>
    rw [hs] at h
    cases h
    have hj := join_split sep s
    rw [hs] at hj
    have hp : pieces ≠ [] := by
      rintro rfl
      exact hne hj.symm
    rw [← hj, head_join, if_neg hp]
    rfl

theorem last_of_empty_piece {sep : Char} {s : List Char} (hne : s ≠ [])
    (h : (split sep s).getLast? = some []) : s.getLast? = some sep := by
  have hp : split sep s ≠ [[]] := by
    intro hs
    apply hne
    rw [← join_split sep s, hs]
    rfl
  rw [← join_split sep s, last_join sep h, if_neg hp]
  rfl

/-- A place in a text next to which, on either side, there is a separator or nothing. -/
structure Gap (isSep : Char → Prop) (front back : List Char) : Prop where
  before : ∀ c, front.getLast? = some c → isSep c
  behind : ∀ c, back.head? = some c → isSep c

theorem exists_last_piece (sep : Char) (s : List Char) :
    ∃ front piece, s = front ++ piece ∧ sep ∉ piece ∧ ∀ c, front.getLast? = some c → c = sep := by
  induction s using List.reverseRecOn with
  | nil => exact ⟨[], [], rfl, List.not_mem_nil, by simp⟩
  | append_singleton s c ih =>
    by_cases hc : c = sep
    · exact ⟨s ++ [c], [], by simp, List.not_mem_nil, by simp [hc]⟩
    · obtain ⟨front, piece, rfl, hpiece, hfront⟩ := ih
      exact ⟨front, piece ++ [c], by simp, by simp [hpiece, Ne.symm hc], hfront⟩

theorem exists_first_piece (sep : Char) (s : List Char) :
    ∃ piece back, s = piece ++ back ∧ sep ∉ piece ∧ ∀ c, back.head? = some c → c = sep := by
  induction s with
  | nil => exact ⟨[], [], rfl, List.not_mem_nil, by simp⟩
  | cons c s ih =>
    by_cases hc : c = sep
    · exact ⟨[], c :: s, rfl, List.not_mem_nil, by simp [hc]⟩
    · obtain ⟨piece, back, rfl, hpiece, hback⟩ := ih
      exact ⟨c :: piece, back, rfl, by simp [hpiece, Ne.symm hc], hback⟩

theorem Gap.mem_split {sep : Char} {front piece back : List Char} (h : Gap (· = sep) front back)
    (hpiece : sep ∉ piece) : piece ∈ split sep (front ++ piece ++ back) := by
  obtain ⟨hfront, hback⟩ := h
  have hfirst : piece ∈ split sep (piece ++ back) := by
    cases back with
    | nil => simp [split_of_not_mem hpiece]
    | cons c back =>
      rw [hback c rfl, split_append hpiece]
      exact List.mem_cons_self
  rw [List.append_assoc]
  rcases front.eq_nil_or_concat with rfl | ⟨front, c, rfl⟩
  · exact hfirst
  · rw [List.concat_eq_append] at hfront ⊢
    rw [hfront c List.getLast?_concat, List.append_assoc, List.singleton_append, split_append_sep]
    exact List.mem_append_right _ hfirst

/-- The pieces of a text are its parts without separators between two separators or ends. -/
theorem mem_split_iff (sep : Char) (s piece : List Char) :
    piece ∈ split sep s ↔ sep ∉ piece ∧
      ∃ front back, s = front ++ piece ++ back ∧ Gap (· = sep) front back := by
  constructor
  · intro h
    refine ⟨not_mem_of_mem_split h, ?_⟩
    obtain ⟨before, behind, hs⟩ := List.append_of_mem h
    obtain ⟨back, hback, hhead⟩ : ∃ back, join sep (piece :: behind) = piece ++ back ∧
        ∀ c, back.head? = some c → c = sep := by
      cases behind with
      | nil => exact ⟨[], by simp [join], by simp⟩
      | cons next rest => exact ⟨sep :: join sep (next :: rest), rfl, by simp⟩
    rw [← join_split sep s, hs]
    cases before with
    | nil => exact ⟨[], back, hback, by simp, hhead⟩
    | cons first rest =>
      rw [join_append sep (List.cons_ne_nil _ _) (List.cons_ne_nil _ _), hback]
      exact ⟨join sep (first :: rest) ++ [sep], back, by simp, by simp, hhead⟩
  · rintro ⟨hpiece, front, back, rfl, hgap⟩
    exact hgap.mem_split hpiece

section

variable {sep : Char} {s front piece : List Char}

/-- The last piece of a text, and what stands in front of it. -/
structure LastPiece (sep : Char) (s front piece : List Char) : Prop where
  text : s = front ++ piece
  closed : sep ∉ piece
  behind : ∀ c, front.getLast? = some c → c = sep

theorem LastPiece.front_cases (h : LastPiece sep s front piece) :
    front = [] ∨ ∃ before, front = before ++ [sep] := by
  rcases front.eq_nil_or_concat' with rfl | ⟨before, c, rfl⟩
  · exact Or.inl rfl
  · right
    have hc : c = sep := h.behind c List.getLast?_concat
    exact ⟨before, by rw [hc]⟩

theorem reverse_closed (h : sep ∉ s) : ∀ c ∈ s.reverse, (c != sep) = true := by
  intro c hc
  rw [bne_iff_ne]
  rintro rfl
  exact h (List.mem_reverse.mp hc)

theorem beforeLast?_of_not_mem (h : sep ∉ s) : beforeLast? sep s = none := by
  rw [beforeLast?, List.dropWhile_eq_nil_iff.mpr (reverse_closed h)]

theorem afterLast_of_not_mem (h : sep ∉ s) : afterLast sep s = s := by
  rw [afterLast, List.takeWhile_eq_self_iff.mpr (reverse_closed h), List.reverse_reverse]

theorem beforeLast?_append (h : sep ∉ piece) (before : List Char) :
    beforeLast? sep (before ++ sep :: piece) = some before := by
  rw [beforeLast?, List.reverse_append, List.reverse_cons, List.append_assoc,
    List.dropWhile_append_of_pos (reverse_closed h)]
  simp

theorem afterLast_append (h : sep ∉ piece) (before : List Char) :
    afterLast sep (before ++ sep :: piece) = piece := by
  rw [afterLast, List.reverse_append, List.reverse_cons, List.append_assoc,
    List.takeWhile_append_of_pos (reverse_closed h)]
  simp

theorem LastPiece.afterLast_eq (h : LastPiece sep s front piece) : afterLast sep s = piece := by
  rw [h.text]
  rcases h.front_cases with rfl | ⟨before, rfl⟩
  · exact afterLast_of_not_mem h.closed
  · rw [List.append_assoc, List.singleton_append, afterLast_append h.closed]

theorem LastPiece.split_eq (h : LastPiece sep s front piece) :
    ∃ pieces, split sep s = pieces ++ [piece] := by
  rw [h.text]
  rcases h.front_cases with rfl | ⟨before, rfl⟩
  · exact ⟨[], split_of_not_mem h.closed⟩
  · refine ⟨split sep before, ?_⟩
    rw [List.append_assoc, List.singleton_append, split_append_sep, split_of_not_mem h.closed]

theorem LastPiece.prepend (h : LastPiece sep s front piece) {before : List Char}
    (hbefore : ∀ c, before.getLast? = some c → c = sep) :
    LastPiece sep (before ++ s) (before ++ front) piece := by
  refine ⟨by rw [h.text, List.append_assoc], h.closed, ?_⟩
  intro c hc
  rw [List.getLast?_append, Option.or_eq_some_iff] at hc
  rcases hc with hc | ⟨-, hc⟩
  · exact h.behind c hc
  · exact hbefore c hc

theorem LastPiece.suffix_iff (h : LastPiece sep s front piece) {tail : List Char}
    (htail : sep ∉ tail) : tail <:+ s ↔ tail <:+ piece := by
  have hpiece : piece <:+ s := ⟨front, h.text.symm⟩
  constructor
  · intro hs
    rcases List.suffix_or_suffix_of_suffix hs hpiece with hshort | ⟨more, rfl⟩
    · exact hshort
    · -- it cannot reach into what is in front of the piece, which ends in a separator
      obtain ⟨rest, hrest⟩ := hs
      rw [h.text, ← List.append_assoc, List.append_cancel_right_eq] at hrest
      rcases more.eq_nil_or_concat' with rfl | ⟨most, c, rfl⟩
      · exact List.suffix_refl piece
      · have hc : c = sep := by
          apply h.behind c
          rw [← hrest, ← List.append_assoc]
          exact List.getLast?_concat
        rw [hc] at htail
        simp at htail
  · intro hs
    exact hs.trans hpiece

theorem LastPiece.append (h : LastPiece sep s front piece) {tail : List Char} (htail : sep ∉ tail) :
    LastPiece sep (s ++ tail) front (piece ++ tail) := by
  refine ⟨by rw [h.text, List.append_assoc], ?_, h.behind⟩
  rw [List.mem_append]
  exact not_or.mpr ⟨h.closed, htail⟩

theorem exists_stem (h : sep ∈ s.tail) :
    ∃ stem piece, stem ≠ [] ∧ sep ∉ piece ∧ s = stem ++ sep :: piece := by
  obtain ⟨front, piece, rfl, hpiece, hfront⟩ := exists_last_piece sep s
  rcases LastPiece.front_cases ⟨rfl, hpiece, hfront⟩ with rfl | ⟨stem, rfl⟩
  · exact absurd (List.mem_of_mem_tail h) hpiece
  · refine ⟨stem, piece, ?_, hpiece, by simp⟩
    rintro rfl
    exact hpiece (by simpa using h)

end

def Trimmed (s : List Char) : Prop :=
  (∀ c, s.head? = some c → isBlank c = false) ∧ ∀ c, s.getLast? = some c → isBlank c = false

theorem trim_of_trimmed {s : List Char} (h : Trimmed s) : trim s = s := by
  have hstart : trimStart s = s := by
    cases s with
    | nil => rfl
    | cons c rest => simp [trimStart, h.1 c rfl]
  have hend : trimEnd s = s := by
    change s.rdropWhile isBlank = s
    rw [List.rdropWhile_eq_self_iff]
    intro hne
    rw [h.2 _ (List.getLast?_eq_some_getLast hne)]
    exact Bool.false_ne_true
  rw [trim, hstart, hend]

theorem trimmed_trim (s : List Char) : Trimmed (trim s) := by
  change Trimmed ((s.dropWhile isBlank).rdropWhile isBlank)
  constructor
  · intro c hc
    obtain ⟨tail, ht⟩ := List.rdropWhile_prefix isBlank (s.dropWhile isBlank)
    have hhead : (s.dropWhile isBlank).head? = some c := by rw [← ht, List.head?_append, hc]; rfl
    have := List.head?_dropWhile_not isBlank s
    rw [hhead] at this
    exact this
  · intro c hc
    have hne : (s.dropWhile isBlank).rdropWhile isBlank ≠ [] := by
      intro h; rw [h] at hc; cases hc
    have hlast := List.rdropWhile_last_not isBlank _ hne
    rw [List.getLast?_eq_some_getLast hne, Option.some.injEq] at hc
    rw [hc] at hlast
    exact eq_false_of_ne_true hlast

theorem trim_eq_nil_iff (s : List Char) : trim s = [] ↔ ∀ c ∈ s, isBlank c = true := by
  change (s.dropWhile isBlank).rdropWhile isBlank = [] ↔ _
  rw [List.rdropWhile_eq_nil_iff]
  constructor
  · intro h
    rw [← List.dropWhile_eq_nil_iff]
    by_contra hne
    have hhead := List.head_dropWhile_not isBlank hne
    rw [h _ (List.head_mem hne)] at hhead
    cases hhead
  · intro h c hc
    exact h c ((List.dropWhile_sublist isBlank).subset hc)

theorem trim_padded {before behind : List Char} (hbefore : ∀ c ∈ before, isBlank c = true)
    (hbehind : ∀ c ∈ behind, isBlank c = true) (s : List Char) :
    trim (before ++ s ++ behind) = trim s := by
  have hstart : trimStart (before ++ s ++ behind) = (s ++ behind).dropWhile isBlank := by
    rw [trimStart, List.append_assoc, List.dropWhile_append_of_pos hbefore]
  rw [trim, hstart, List.dropWhile_append]
  split
  · next hs =>
    rw [trim, trimStart, List.isEmpty_iff.mp hs, List.dropWhile_eq_nil_iff.mpr hbehind]
  · have hreverse : ∀ c ∈ behind.reverse, isBlank c = true := by simpa using hbehind
    rw [trimEnd, List.reverse_append, List.dropWhile_append_of_pos hreverse]
    rfl

theorem exists_padding (s : List Char) : ∃ before behind,
    s = before ++ trim s ++ behind ∧ (∀ c ∈ before, isBlank c = true) ∧
      ∀ c ∈ behind, isBlank c = true := by
  refine ⟨s.takeWhile isBlank, (s.dropWhile isBlank).rtakeWhile isBlank, ?_, ?_, ?_⟩
  · change s = _ ++ (s.dropWhile isBlank).rdropWhile isBlank ++ _
    rw [List.append_assoc, List.rdropWhile_append_rtakeWhile]
    exact List.takeWhile_append_dropWhile.symm
  · intro c hc
    exact List.mem_takeWhile_imp hc
  · intro c hc
    exact List.mem_rtakeWhile_imp hc

end DocQuery.Text
