import DocQuery.Path.Reader
import DocQuery.Proofs.Numerals
import Mathlib.Data.List.Forall2
import Mathlib.Data.List.Induction
import Mathlib.Data.List.TakeWhile
import Mathlib.Data.Nat.Digits.Defs

/-! # The grammar of paths

Which texts spell which segments is a relation of its own here, apart from any reader. The reader
accepts exactly the texts that spell something, and no text spells two rows of segments. -/

namespace DocQuery.Path

/-- A name that can be written as it stands. -/
def Plain (name : String) : Prop := '.' ∉ name.toList ∧ '[' ∉ name.toList

/-- The spellings of one segment. The decimal value of an index is its positional value, so any
number of zeros may stand in front; being a `UInt64` keeps it below `2 ^ 64`. -/
inductive Spells : Segment → List Char → Prop where
  | field {name : String} : Plain name → Spells (.field name) name.toList
  | indexed {name : String} {digits : List Char} {index : UInt64} : Plain name → digits ≠ [] →
      (∀ c ∈ digits, c.isDigit = true) →
      Nat.ofDigits 10 (digits.reverse.map Number.digitValue) = index.toNat →
      Spells (.indexed name index) (name.toList ++ '[' :: (digits ++ [']']))

/-- One spelling for each segment, with dots between them. -/
def Spelled (segments : List Segment) (s : List Char) : Prop :=
  ∃ pieces, List.Forall₂ Spells segments pieces ∧ s = Text.join '.' pieces

/-- The segments of a path text. Only the empty text has none; a single empty field has no text. -/
def Grammatical (segments : List Segment) (s : List Char) : Prop :=
  s = [] ∧ segments = [] ∨ s ≠ [] ∧ segments ≠ [] ∧ Spelled segments s

theorem grammatical_iff {segments : List Segment} {s : List Char} (hs : s ≠ []) :
    Grammatical segments s ↔ segments ≠ [] ∧ Spelled segments s := by
  simp [Grammatical, hs]

theorem name_char_iff (c : Char) : isNameChar c = true ↔ c ≠ '.' ∧ c ≠ '[' := by
  simp [isNameChar]

theorem Plain.name_chars {name : String} (h : Plain name) :
    ∀ c ∈ name.toList, isNameChar c = true := by
  intro c hc
  refine (name_char_iff c).mpr ⟨?_, ?_⟩
  · rintro rfl; exact h.1 hc
  · rintro rfl; exact h.2 hc

theorem plain_takeWhile (s : List Char) : Plain (String.ofList (s.takeWhile isNameChar)) := by
  constructor
  · intro hc
    rw [String.toList_ofList] at hc
    exact ((name_char_iff _).mp (List.mem_takeWhile_imp hc)).1 rfl
  · intro hc
    rw [String.toList_ofList] at hc
    exact ((name_char_iff _).mp (List.mem_takeWhile_imp hc)).2 rfl

theorem digits_value_positional (ds : List Char) :
    Number.digitsValue ds = Nat.ofDigits 10 (ds.reverse.map Number.digitValue) := by
  induction ds using List.reverseRecOn with
  | nil => rfl
  | append_singleton ds c ih =>
    rw [Number.digitsValue_append_singleton, ih]
    simp [Nat.ofDigits_cons]
    omega

theorem take_index_iff {s rest : List Char} {index : UInt64} :
    takeIndex? s = some (index, rest) ↔
      ∃ digits, digits ≠ [] ∧ (∀ c ∈ digits, c.isDigit = true) ∧
        Number.digitsValue digits = index.toNat ∧ s = digits ++ ']' :: rest := by
  constructor
  · intro h
    unfold takeIndex? at h
    split at h
    · next r hs =>
      split at h
      · next hd =>
        simp only [Option.some.injEq, Prod.mk.injEq] at h
        obtain ⟨hi, rfl⟩ := h
        refine ⟨s.takeWhile Char.isDigit, hd.1, fun c hc => List.mem_takeWhile_imp hc, ?_, ?_⟩
        · rw [← hi, UInt64.toNat_ofNat_of_lt' hd.2]
        · rw [← hs, List.takeWhile_append_dropWhile]
      · cases h
    · cases h
  · rintro ⟨digits, hne, hd, hv, rfl⟩
    have hclose : Char.isDigit ']' = false := by decide
    have htake : (digits ++ ']' :: rest).takeWhile Char.isDigit = digits := by
      rw [List.takeWhile_append_of_pos hd]; simp [hclose]
    have hdrop : (digits ++ ']' :: rest).dropWhile Char.isDigit = ']' :: rest := by
      rw [List.dropWhile_append_of_pos hd]; simp [hclose]
    have hlt : Number.digitsValue digits < UInt64.size := hv ▸ index.toNat_lt_size
    simp only [takeIndex?, hdrop, htake]
    rw [if_pos ⟨hne, hlt⟩, hv, UInt64.ofNat_toNat]

theorem take_segment_spells (s : List Char) :
    ∃ piece, Spells (takeSegment s).1 piece ∧ s = piece ++ (takeSegment s).2 := by
  have hname := plain_takeWhile s
  have hsplit := List.takeWhile_append_dropWhile (p := isNameChar) (l := s)
  have hfield := Spells.field hname
  unfold takeSegment
  split
  · next inner hs =>
    rw [hs] at hsplit
    split
    · next index rest hi =>
      obtain ⟨digits, hne, hd, hv, rfl⟩ := take_index_iff.mp hi
      rw [digits_value_positional] at hv
      refine ⟨_, .indexed hname hne hd hv, ?_⟩
      conv_lhs => rw [← hsplit]
      simp
    · exact ⟨_, hfield, by simpa [hs] using hsplit.symm⟩
  · exact ⟨_, hfield, by simp⟩

theorem take_segment_indexed {name : String} {digits : List Char} {index : UInt64}
    (hname : Plain name) (hne : digits ≠ []) (hd : ∀ c ∈ digits, c.isDigit = true)
    (hv : Number.digitsValue digits = index.toNat) (rest : List Char) :
    takeSegment (name.toList ++ '[' :: (digits ++ [']']) ++ rest) =
      (.indexed name index, rest) := by
  have hopen : isNameChar '[' = false := rfl
  have hindex : takeIndex? (digits ++ ']' :: rest) = some (index, rest) :=
    take_index_iff.mpr ⟨digits, hne, hd, hv, rfl⟩
  unfold takeSegment
  rw [List.append_assoc, List.takeWhile_append_of_pos hname.name_chars,
    List.dropWhile_append_of_pos hname.name_chars]
  simp [hopen, hindex]

theorem take_segment_spelled {segment : Segment} {piece : List Char} (rest : List Char)
    (h : Spells segment piece) (hr : ∀ c, rest.head? = some c → c = '.') :
    takeSegment (piece ++ rest) = (segment, rest) := by
  cases h with
  | @field name hname =>
    have hdrop : rest.dropWhile isNameChar = rest := by
      cases rest with
      | nil => rfl
      | cons c t => rw [hr c rfl]; simp [isNameChar]
    have htake : rest.takeWhile isNameChar = [] := by
      cases rest with
      | nil => rfl
      | cons c t => rw [hr c rfl]; simp [isNameChar]
    unfold takeSegment
    rw [List.takeWhile_append_of_pos hname.name_chars,
      List.dropWhile_append_of_pos hname.name_chars, hdrop, htake]
    split
    · next inner =>
      have := hr '[' rfl
      simp at this
    · simp
  | @indexed name digits index hname hne hd hv =>
    rw [← digits_value_positional] at hv
    exact take_segment_indexed hname hne hd hv rest

theorem take_segments_dot {s rest : List Char} {segment : Segment}
    (h : takeSegment s = (segment, '.' :: rest)) :
    takeSegments s = (segment :: (takeSegments rest).1, (takeSegments rest).2) := by
  rw [takeSegments]
  split
  · next hs => rw [h] at hs; cases hs; rfl
  · next hdot hs => rw [h] at hs; cases hs; exact (hdot rest rfl).elim

theorem take_segments_last {s unread : List Char} {segment : Segment}
    (h : takeSegment s = (segment, unread)) (hdot : unread.head? ≠ some '.') :
    takeSegments s = ([segment], unread) := by
  rw [takeSegments]
  split
  · next hs => rw [h] at hs; cases hs; exact absurd rfl hdot
  · next hs => rw [h] at hs; cases hs; rfl

theorem take_segments_spelled (s : List Char) :
    (takeSegments s).1 ≠ [] ∧ ∃ pieces, List.Forall₂ Spells (takeSegments s).1 pieces ∧
      s = Text.join '.' pieces ++ (takeSegments s).2 := by
  fun_induction takeSegments s with
  | case1 s segment rest hs segments unread hrest ih =>
    obtain ⟨piece, hp, he⟩ := take_segment_spells s
    obtain ⟨hne, pieces, hps, hj⟩ := ih
    rw [hs] at hp he
    rw [hrest] at hne hps hj
    refine ⟨List.cons_ne_nil _ _, piece :: pieces, .cons hp hps, ?_⟩
    cases hps with
    | nil => exact absurd rfl hne
    | cons hq hqs => rw [he, hj]; simp [Text.join]
  | case2 s segment unread hdot hs =>
    obtain ⟨piece, hp, he⟩ := take_segment_spells s
    rw [hs] at hp he
    exact ⟨List.cons_ne_nil _ _, [piece], .cons hp .nil, he⟩

theorem take_segments_join {segments : List Segment} {pieces : List (List Char)}
    (h : List.Forall₂ Spells segments pieces) (hne : segments ≠ []) :
    takeSegments (Text.join '.' pieces) = (segments, []) := by
  induction h with
  | nil => exact absurd rfl hne
  | @cons segment piece segments pieces hp hps ih =>
    cases hps with
    | nil =>
      have hs := take_segment_spelled [] hp (by simp)
      rw [List.append_nil] at hs
      exact take_segments_last hs (by simp)
    | @cons next q nexts qs hq hqs =>
      have hs := take_segment_spelled ('.' :: Text.join '.' (q :: qs)) hp (by simp)
      have hrest := ih (List.cons_ne_nil _ _)
      change takeSegments (piece ++ '.' :: Text.join '.' (q :: qs)) = _
      rw [take_segments_dot hs, hrest]

theorem written_spells {segment : Segment} (h : Plain segment.name) :
    Spells segment segment.written := by
  cases segment with
  | field name => exact .field h
  | indexed name index =>
    refine .indexed h (Number.numeral_ne_nil _) (Number.numeral_digits _) ?_
    rw [← digits_value_positional, Number.digitsValue_numeral]

theorem written_spelled {segments : List Segment} (h : ∀ s ∈ segments, Plain s.name) :
    Spelled segments (written segments) := by
  refine ⟨segments.map Segment.written, ?_, rfl⟩
  rw [List.forall₂_map_right_iff, List.forall₂_same]
  exact fun s hs => written_spells (h s hs)

theorem written_ne_nil {segments : List Segment} (hne : segments ≠ [])
    (hempty : segments ≠ [.field ""]) : written segments ≠ [] := by
  match segments with
  | [] => exact absurd rfl hne
  | [.field name] =>
    intro h
    have hname : name = "" := String.toList_eq_nil_iff.mp h
    exact hempty (by rw [hname])
  | [.indexed name index] => simp [written, Text.join, Segment.written]
  | first :: second :: rest => simp [written, Text.join]

theorem Spelled.eq_nil_iff {segments : List Segment} {s : List Char} (h : Spelled segments s)
    (hne : segments ≠ []) : s = [] ↔ segments = [.field ""] := by
  obtain ⟨pieces, hps, rfl⟩ := h
  cases hps with
  | nil => exact absurd rfl hne
  | @cons segment piece segments pieces hp hps =>
    cases hps with
    | cons hq hqs => simp [Text.join]
    | nil =>
      cases hp with
      | field hname => simp [Text.join, String.toList_eq_nil_iff]
      | indexed hname hdigits hd hv => simp [Text.join]

theorem parse_of_read {s : String} {segments : List Segment} (hne : s.toList ≠ [])
    (h : takeSegments s.toList = (segments, [])) : parse s = .ok ⟨s, segments⟩ := by
  simp [parse, hne, h]

theorem parse_of_unread {s : String} {unread : List Char} (hne : s.toList ≠ [])
    (h : (takeSegments s.toList).2 = unread) (hu : unread ≠ []) :
    parse s = .error (.invalidPath (some s)
      (faultAt (s.utf8ByteSize - (String.ofList unread).utf8ByteSize) unread)) := by
  unfold parse
  rw [if_neg hne]
  split
  · next hs => rw [hs] at h; exact absurd h.symm hu
  · next hs => rw [hs] at h; rw [← h]

/-- The reader consumes a text to its end exactly if the text spells something. -/
theorem take_segments_complete (s : List Char) (segments : List Segment) :
    takeSegments s = (segments, []) ↔ segments ≠ [] ∧ Spelled segments s := by
  constructor
  · intro h
    obtain ⟨hne, pieces, hps, hj⟩ := take_segments_spelled s
    rw [h] at hne hps hj
    exact ⟨hne, pieces, hps, by rw [hj, List.append_nil]⟩
  · rintro ⟨hne, pieces, hps, rfl⟩
    exact take_segments_join hps hne

theorem spelled_unique {S T : List Segment} {s : List Char} (hS : S ≠ []) (hT : T ≠ [])
    (h : Spelled S s) (k : Spelled T s) : S = T := by
  have hs := (take_segments_complete s S).mpr ⟨hS, h⟩
  have ht := (take_segments_complete s T).mpr ⟨hT, k⟩
  exact (Prod.mk.inj (hs.symm.trans ht)).1

theorem parse_ok_iff (s : String) (p : Path) :
    parse s = .ok p ↔ p.source = s ∧ Grammatical p.segments s.toList := by
  obtain ⟨source, segments⟩ := p
  by_cases hs : s.toList = []
  · simp only [parse, hs, Grammatical]
    simp [eq_comm]
  · cases hu : (takeSegments s.toList).2 with
    | nil =>
      have hread : takeSegments s.toList = ((takeSegments s.toList).1, []) := by rw [← hu]
      have hspelled := (take_segments_complete _ _).mp hread
      rw [parse_of_read hs hread]
      constructor
      · intro h
        cases h
        exact ⟨rfl, .inr ⟨hs, hspelled⟩⟩
      · rintro ⟨rfl, ⟨hnil, -⟩ | ⟨-, hne, hsp⟩⟩
        · exact absurd hnil hs
        · rw [spelled_unique hspelled.1 hne hspelled.2 hsp]
    | cons c rest =>
      rw [parse_of_unread hs hu (List.cons_ne_nil _ _)]
      constructor
      · intro h; cases h
      · rintro ⟨-, ⟨hnil, -⟩ | ⟨-, hsp⟩⟩
        · exact absurd hnil hs
        · rw [(take_segments_complete _ _).mpr hsp] at hu
          cases hu

theorem parse_error_path {s : String} {e : Error} (h : parse s = .error e) :
    ∃ fault, e = .invalidPath (some s) fault := by
  by_cases hs : s.toList = []
  · simp [parse, hs] at h
  · cases hu : (takeSegments s.toList).2 with
    | nil => rw [parse_of_read hs (by rw [← hu])] at h; cases h
    | cons c rest =>
      rw [parse_of_unread hs hu (List.cons_ne_nil _ _)] at h
      cases h
      exact ⟨_, rfl⟩

/-- The reader accepts exactly the grammar, no text has two readings, and every text outside the
grammar is an invalid path that carries the text. -/
theorem parse_exactly_grammatical (s : String) :
    (∀ p, parse s = .ok p ↔ p.source = s ∧ Grammatical p.segments s.toList) ∧
    (∀ S T, Grammatical S s.toList ∧ Grammatical T s.toList → S = T) ∧
    ((∃ fault, parse s = .error (.invalidPath (some s) fault)) ↔
      ¬ ∃ S, Grammatical S s.toList) := by
  refine ⟨parse_ok_iff s, ?_, ?_⟩
  · rintro S T ⟨⟨_, rfl⟩ | ⟨_, hS, h⟩, ⟨_, rfl⟩ | ⟨_, hT, k⟩⟩
    · rfl
    · contradiction
    · contradiction
    · exact spelled_unique hS hT h k
  · constructor
    · rintro ⟨fault, h⟩ ⟨S, hS⟩
      rw [(parse_ok_iff s ⟨s, S⟩).mpr ⟨rfl, hS⟩] at h
      cases h
    · intro hn
      cases hp : parse s with
      | ok p => exact absurd ⟨p.segments, ((parse_ok_iff s p).mp hp).2⟩ hn
      | error e =>
        obtain ⟨fault, rfl⟩ := parse_error_path hp
        exact ⟨fault, rfl⟩

end DocQuery.Path
