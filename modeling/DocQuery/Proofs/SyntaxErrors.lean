import DocQuery.Proofs.PathGrammar
import Mathlib.Data.List.Infix

/-! # Where a path text goes wrong

A text that is no path is refused at the end of its longest front that is one. The character there
is a bracket that opens no index, or stands right behind a complete index without being a dot; the
text never simply ends too early. -/

namespace DocQuery.Path

def Accepted (s : List Char) : Prop := ∃ p, parse (String.ofList s) = .ok p

theorem accepted_iff (s : List Char) :
    Accepted s ↔ s = [] ∨ ∃ segments, segments ≠ [] ∧ Spelled segments s := by
  by_cases hs : s = []
  · subst hs
    exact iff_of_true ⟨⟨"", []⟩, rfl⟩ (Or.inl rfl)
  · have hiff : ∀ p, parse (String.ofList s) = .ok p ↔
        p.source = String.ofList s ∧ p.segments ≠ [] ∧ Spelled p.segments s := by
      intro p
      rw [parse_ok_iff, String.toList_ofList, grammatical_iff hs]
    constructor
    · rintro ⟨p, hp⟩
      exact Or.inr ⟨p.segments, ((hiff p).mp hp).2⟩
    · rintro (hnil | ⟨segments, hne, hspelled⟩)
      · exact absurd hnil hs
      · exact ⟨⟨String.ofList s, segments⟩, (hiff _).mpr ⟨rfl, hne, hspelled⟩⟩

/-! ## How far the reader gets -/

theorem take_segment_suffix (s : List Char) : (takeSegment s).2 <:+ s := by
  obtain ⟨piece, -, hs⟩ := take_segment_spells s
  exact ⟨piece, hs.symm⟩

theorem take_segments_suffix (s : List Char) : (takeSegments s).2 <:+ s := by
  obtain ⟨-, pieces, -, hs⟩ := take_segments_spelled s
  exact ⟨Text.join '.' pieces, hs.symm⟩

theorem take_segments_unread (s : List Char) : (takeSegments s).2 <:+ (takeSegment s).2 := by
  fun_cases takeSegments s with
  | case1 segment rest hs segments unread hrest =>
    have hsuffix := take_segments_suffix rest
    rw [hrest] at hsuffix
    rw [hs]
    exact hsuffix.trans (List.suffix_cons _ _)
  | case2 segment unread hdot hs => rw [hs]

theorem take_segment_behind_name {name : List Char} (h : ∀ c ∈ name, isNameChar c = true)
    (rest : List Char) : (takeSegment (name ++ rest)).2 = (takeSegment rest).2 := by
  unfold takeSegment
  rw [List.dropWhile_append_of_pos h]
  split
  · split <;> rfl
  · rfl

theorem take_segment_beyond {segment : Segment} {piece : List Char} (h : Spells segment piece)
    (rest : List Char) : (takeSegment (piece ++ rest)).2 <:+ rest := by
  cases h with
  | field hname =>
    rw [take_segment_behind_name hname.name_chars]
    exact take_segment_suffix rest
  | indexed hname hne hd hv =>
    rw [← digits_value_positional] at hv
    rw [take_segment_indexed hname hne hd hv]

theorem take_segments_beyond {segments : List Segment} {pieces : List (List Char)}
    (h : List.Forall₂ Spells segments pieces) (hne : segments ≠ []) (rest : List Char) :
    (takeSegments (Text.join '.' pieces ++ rest)).2 <:+ rest := by
  induction h with
  | nil => exact absurd rfl hne
  | @cons segment piece segments pieces hp hps ih =>
    cases hps with
    | nil => exact (take_segments_unread _).trans (take_segment_beyond hp rest)
    | @cons next q nexts qs hq hqs =>
      have hdot := take_segment_spelled ('.' :: (Text.join '.' (q :: qs) ++ rest)) hp (by simp)
      have htext : Text.join '.' (piece :: q :: qs) ++ rest =
          piece ++ '.' :: (Text.join '.' (q :: qs) ++ rest) := by simp [Text.join]
      rw [htext, take_segments_dot hdot]
      exact ih (List.cons_ne_nil _ _)

theorem accepted_front_read {front s unread : List Char} (hs : s = front ++ unread)
    (hread : (takeSegments s).2 = unread) {q : List Char} (hq : q <+: s) (haccepted : Accepted q) :
    q <+: front := by
  rcases (accepted_iff q).mp haccepted with rfl | ⟨segments, hne, pieces, hps, rfl⟩
  · exact List.nil_prefix
  · obtain ⟨rest, hrest⟩ := hq
    have hbeyond := take_segments_beyond hps hne rest
    rw [hrest, hread] at hbeyond
    have hlength : (Text.join '.' pieces).length ≤ front.length := by
      have hboth := congrArg List.length (hrest.trans hs)
      rw [List.length_append, List.length_append] at hboth
      have := hbeyond.length_le
      omega
    exact List.prefix_of_prefix_length_le ⟨rest, hrest⟩ ⟨unread, hs.symm⟩ hlength

/-! ## What the reader stops at -/

theorem take_segment_stops {s : List Char} {c : Char} (h : (takeSegment s).2.head? = some c) :
    c = '.' ∨ c = '[' ∨ ∃ name index, (takeSegment s).1 = .indexed name index := by
  unfold takeSegment at h ⊢
  split at h
  · next inner hinner =>
    split at h
    · next index rest hindex =>
      exact Or.inr (Or.inr ⟨String.ofList (s.takeWhile isNameChar), index, rfl⟩)
    · cases h
      exact Or.inr (Or.inl rfl)
  · have hend := List.head?_dropWhile_not isNameChar s
    simp only at h
    rw [h] at hend
    change isNameChar c = false at hend
    simp only [isNameChar, Bool.and_eq_false_iff, bne_eq_false_iff_eq] at hend
    rcases hend with hdot | hopen
    · exact Or.inl hdot
    · exact Or.inr (Or.inl hopen)

theorem take_segments_stops {s : List Char} {c : Char} (h : (takeSegments s).2.head? = some c) :
    c ≠ '.' ∧ (c = '[' ∨ ∃ before name index,
      (takeSegments s).1 = before ++ [.indexed name index]) := by
  fun_induction takeSegments s with
  | case1 s segment rest hs segments unread hrest ih =>
    rw [hrest] at ih
    obtain ⟨hdot, hopen | ⟨before, name, index, hlast⟩⟩ := ih h
    · exact ⟨hdot, Or.inl hopen⟩
    · refine ⟨hdot, Or.inr ⟨segment :: before, name, index, ?_⟩⟩
      simp only at hlast
      rw [hlast, List.cons_append]
  | case2 s segment unread hdot hs =>
    have hnodot : c ≠ '.' := by
      rintro rfl
      obtain ⟨rest, hrest⟩ := List.head?_eq_some_iff.mp h
      exact hdot rest hrest
    have hunread : (takeSegment s).2.head? = some c := by
      rw [hs]
      exact h
    rcases take_segment_stops hunread with hc | hopen | ⟨name, index, hindexed⟩
    · exact absurd hc hnodot
    · exact ⟨hnodot, Or.inl hopen⟩
    · rw [hs] at hindexed
      exact ⟨hnodot, Or.inr ⟨[], name, index, congrArg (fun t => [t]) hindexed⟩⟩

/-! ## The error -/

/-- The longest front of a text that is a path. -/
structure LongestAccepted (s front : List Char) : Prop where
  begins : front <+: s
  accepted : Accepted front
  longest : ∀ q, q <+: s → Accepted q → q <+: front

/-- The fault of a character right behind a path, and its words: a bracket does not open an index,
and behind an index only a dot could go on. -/
inductive Misplaced (front : String) : Char → PathFault → String → Prop where
  | bracket : Misplaced front '[' (.malformedIndex front.utf8ByteSize)
      ("malformed index at position " ++ toString front.utf8ByteSize ++ ", expected '[' digits ']'")
  | behindIndex {c : Char} {before : List Segment} {name : String} {index : UInt64} :
      c ≠ '.' → c ≠ '[' → parse front = .ok ⟨front, before ++ [.indexed name index]⟩ →
      front.toList.getLast? = some ']' → Misplaced front c (.unexpected c front.utf8ByteSize)
        ("unexpected '" ++ String.singleton c ++ "' at position " ++ toString front.utf8ByteSize)

theorem Spells.indexed_last {name : String} {index : UInt64} {piece : List Char}
    (h : Spells (.indexed name index) piece) : piece.getLast? = some ']' := by
  cases h with
  | @indexed _ digits _ hname hne hd hv =>
    rw [← List.cons_append, ← List.append_assoc]
    exact List.getLast?_concat

theorem Spelled.indexed_last {before : List Segment} {name : String} {index : UInt64}
    {s : List Char} (h : Spelled (before ++ [.indexed name index]) s) :
    s.getLast? = some ']' := by
  obtain ⟨pieces, hps, rfl⟩ := h
  induction before generalizing pieces with
  | nil =>
    cases hps with
    | cons hp hnil =>
      cases hnil
      exact hp.indexed_last
  | cons segment before ih =>
    cases hps with
    | @cons _ piece _ pieces hp hps =>
      have hlast := ih pieces hps
      cases pieces with
      | nil => cases hlast
      | cons q qs =>
        change (piece ++ '.' :: Text.join '.' (q :: qs)).getLast? = _
        rw [List.getLast?_append, List.getLast?_cons, hlast]
        rfl

theorem parse_read {s : List Char} {front : String} {unread : List Char}
    (hs : s = front.toList ++ unread) (hread : (takeSegments s).2 = unread) :
    Spelled (takeSegments s).1 front.toList ∧
      (front ≠ "" → parse front = .ok ⟨front, (takeSegments s).1⟩) := by
  obtain ⟨hne, pieces, hps, hjoin⟩ := take_segments_spelled s
  rw [hread] at hjoin
  have hfront : front.toList = Text.join '.' pieces :=
    List.append_cancel_right (hs.symm.trans hjoin)
  have hspelled : Spelled (takeSegments s).1 front.toList := ⟨pieces, hps, hfront⟩
  refine ⟨hspelled, ?_⟩
  intro hempty
  have hchars : front.toList ≠ [] := fun hc => hempty (String.toList_eq_nil_iff.mp hc)
  exact (parse_ok_iff _ _).mpr ⟨rfl, .inr ⟨hchars, hne, hspelled⟩⟩

theorem longest_accepted {s unread : List Char} {front : String}
    (hs : s = front.toList ++ unread) (hread : (takeSegments s).2 = unread) :
    LongestAccepted s front.toList := by
  refine ⟨⟨unread, hs.symm⟩, ?_, fun q hq => accepted_front_read hs hread hq⟩
  by_cases hempty : front = ""
  · subst hempty
    exact (accepted_iff _).mpr (Or.inl rfl)
  · exact ⟨_, by rw [String.ofList_toList]; exact (parse_read hs hread).2 hempty⟩

theorem misplaced {s rest : List Char} {c : Char} {front : String}
    (hs : s = front.toList ++ c :: rest) (hread : (takeSegments s).2 = c :: rest) :
    ∃ cause, Misplaced front c (faultAt front.utf8ByteSize (c :: rest)) cause := by
  have hhead : (takeSegments s).2.head? = some c := by
    rw [hread]
    rfl
  obtain ⟨hdot, hc⟩ := take_segments_stops hhead
  by_cases hopen : c = '['
  · subst hopen
    exact ⟨_, .bracket⟩
  · obtain ⟨before, name, index, hlast⟩ := hc.resolve_left hopen
    obtain ⟨hspelled, hparse⟩ := parse_read hs hread
    rw [hlast] at hspelled hparse
    have hclose := hspelled.indexed_last
    have hempty : front ≠ "" := by
      rintro rfl
      cases hclose
    have hfault : faultAt front.utf8ByteSize (c :: rest) = .unexpected c front.utf8ByteSize := by
      unfold faultAt
      split
      · next heq => exact absurd (List.cons.inj heq).1 hopen
      · next heq => rw [(List.cons.inj heq).1]
      · next heq => cases heq
    rw [hfault]
    exact ⟨_, .behindIndex hdot hopen (hparse hempty) hclose⟩

theorem Misplaced.message_eq {front : String} {c : Char} {fault : PathFault} {cause : String}
    (h : Misplaced front c fault cause) (path : String) :
    (Error.invalidPath (some path) fault).message = "Invalid path '" ++ path ++ "': " ++ cause := by
  have hfault : fault.message = cause := by cases h <;> rfl
  rw [← hfault]
  rfl

theorem Misplaced.no_early_end {front : String} {c : Char} {fault : PathFault} {cause : String}
    (h : Misplaced front c fault cause) : ¬ "unexpected end of path".toList <+: cause.toList := by
  rintro ⟨rest, hrest⟩
  cases h with
  | bracket => simp [String.toList_append] at hrest
  | behindIndex _ _ _ _ => simp [String.toList_append] at hrest

/-- An error in a path text stands behind the longest front of the text that is a path itself, at a
bracket that opens no index or at another character than a dot behind a complete index. Its message
says which, and gives the position, the number of bytes in that front; this lies between two
characters and before the end of the text. No message says that the text ends too early. -/
theorem syntax_error_located {s : String} {e : Error} (h : parse s = .error e) :
    ∃ (front : String) (c : Char) (rest : List Char) (fault : PathFault) (cause : String),
      s.toList = front.toList ++ c :: rest ∧ LongestAccepted s.toList front.toList ∧
      Misplaced front c fault cause ∧ e = .invalidPath (some s) fault ∧
      e.message = "Invalid path '" ++ s ++ "': " ++ cause ∧
      front.utf8ByteSize < s.utf8ByteSize ∧ front.rawEndPos.IsValid s ∧
      ¬ "unexpected end of path".toList <+: cause.toList := by
  have hchars : s.toList ≠ [] := by
    intro hnil
    rw [parse, if_pos hnil] at h
    cases h
  cases hunread : (takeSegments s.toList).2 with
  | nil =>
    have hread : takeSegments s.toList = ((takeSegments s.toList).1, []) := by rw [← hunread]
    rw [parse_of_read hchars hread] at h
    cases h
  | cons c rest =>
    rw [parse_of_unread hchars hunread (List.cons_ne_nil _ _)] at h
    obtain ⟨-, pieces, -, hs⟩ := take_segments_spelled s.toList
    obtain ⟨front, hfront⟩ : ∃ front : String, front.toList = Text.join '.' pieces :=
      ⟨String.ofList _, String.toList_ofList⟩
    rw [hunread, ← hfront] at hs
    have happend : s = front ++ String.ofList (c :: rest) := by
      rw [← String.toList_inj, String.toList_append, hs, String.toList_ofList]
    have hsize : s.utf8ByteSize =
        front.utf8ByteSize + (String.ofList (c :: rest)).utf8ByteSize := by
      rw [happend, String.utf8ByteSize_append]
    have hrest : (String.ofList (c :: rest)).utf8ByteSize ≠ 0 := by
      rw [Ne, String.utf8ByteSize_eq_zero_iff, ← String.toList_eq_nil_iff, String.toList_ofList]
      exact List.cons_ne_nil _ _
    have hposition : s.utf8ByteSize - (String.ofList (c :: rest)).utf8ByteSize =
        front.utf8ByteSize := by omega
    rw [hposition, Except.error.injEq] at h
    obtain ⟨cause, hmisplaced⟩ := misplaced hs hunread
    exact ⟨front, c, rest, _, cause, hs, longest_accepted hs hunread, hmisplaced, h.symm,
      by rw [← h, hmisplaced.message_eq], by omega,
      String.Pos.Raw.isValid_iff_exists_append.mpr ⟨front, _, happend, rfl⟩,
      hmisplaced.no_early_end⟩

/-- The index is too large by one, behind a character of two bytes. -/
theorem overflowing_index_located :
    parse "é.a[18446744073709551616].b" =
      .error (.invalidPath (some "é.a[18446744073709551616].b") (.malformedIndex 4)) ∧
    ∃ (front : String) (rest : List Char),
      "é.a[18446744073709551616].b".toList = front.toList ++ '[' :: rest ∧
      LongestAccepted "é.a[18446744073709551616].b".toList front.toList ∧
      front.utf8ByteSize = 4 ∧
      (Error.invalidPath (some "é.a[18446744073709551616].b") (.malformedIndex 4)).message =
        "Invalid path 'é.a[18446744073709551616].b': malformed index at position 4, " ++
          "expected '[' digits ']'" := by
  have hparse : parse "é.a[18446744073709551616].b" =
      .error (.invalidPath (some "é.a[18446744073709551616].b") (.malformedIndex 4)) := by
    decide +kernel
  obtain ⟨front, c, rest, fault, cause, hs, hlongest, hmisplaced, he, hmessage, -⟩ :=
    syntax_error_located hparse
  cases hmisplaced with
  | bracket =>
    have hposition := PathFault.malformedIndex.inj (Error.invalidPath.inj he).2
    refine ⟨hparse, front, rest, hs, hlongest, hposition.symm, ?_⟩
    rw [hmessage, ← hposition]
    rfl
  | behindIndex _ _ _ _ => cases he

end DocQuery.Path
