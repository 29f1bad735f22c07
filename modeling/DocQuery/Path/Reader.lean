import DocQuery.Failure

/-! # Reading paths

The reader takes segments from the front for as long as it can. A bracket that does not open a
complete index is left unread, and so is a character other than a dot behind a closing bracket;
what is left unread decides the error and its position, counted in bytes of UTF-8. -/

namespace DocQuery.Path

/-- Reads the digits of an index and its closing bracket. Indices are below `2 ^ 64`. -/
def takeIndex? (s : List Char) : Option (UInt64 × List Char) :=
  match s.dropWhile Char.isDigit with
  | ']' :: rest =>
    if s.takeWhile Char.isDigit ≠ [] ∧ Number.digitsValue (s.takeWhile Char.isDigit) < UInt64.size then
      some (UInt64.ofNat (Number.digitsValue (s.takeWhile Char.isDigit)), rest)
    else none
  | _ => none

/-- Reads one segment. It always succeeds: the name may be empty. -/
def takeSegment (s : List Char) : Segment × List Char :=
  let name := String.ofList (s.takeWhile isNameChar)
  match s.dropWhile isNameChar with
  | '[' :: inner =>
    match takeIndex? inner with
    | some (index, rest) => (.indexed name index, rest)
    | none => (.field name, '[' :: inner)
  | rest => (.field name, rest)

theorem length_dropWhile_le (p : Char → Bool) (s : List Char) :
    (s.dropWhile p).length ≤ s.length := (List.dropWhile_suffix p).sublist.length_le

theorem length_of_takeIndex? {s rest : List Char} {index : UInt64}
    (h : takeIndex? s = some (index, rest)) : rest.length < s.length := by
  have hle := length_dropWhile_le Char.isDigit s
  unfold takeIndex? at h
  split at h
  · next r hs =>
    rw [hs] at hle
    simp only [List.length_cons] at hle
    split at h
    · simp only [Option.some.injEq, Prod.mk.injEq] at h
      rw [← h.2]; omega
    · simp at h
  · simp at h

theorem length_takeSegment_le (s : List Char) : (takeSegment s).2.length ≤ s.length := by
  have hle := length_dropWhile_le isNameChar s
  unfold takeSegment
  split
  · next inner hs =>
    rw [hs] at hle
    split
    · next index rest hi =>
      have := length_of_takeIndex? hi
      simp only [List.length_cons] at hle ⊢; omega
    · exact hle
  · exact hle

def takeSegments (s : List Char) : List Segment × List Char :=
  match _h : takeSegment s with
  | (segment, '.' :: rest) =>
    let (segments, unread) := takeSegments rest
    (segment :: segments, unread)
  | (segment, unread) => ([segment], unread)
termination_by s.length
decreasing_by
  have := length_takeSegment_le s
  rw [_h] at this
  simp only [List.length_cons] at this; omega

/-- What is wrong with a text of which the last part could not be read. -/
def faultAt (position : Nat) : List Char → PathFault
  | '[' :: _ => .malformedIndex position
  | c :: _ => .unexpected c position
  | [] => .unexpectedEnd position

def parse (source : String) : Except Error Path :=
  if source.toList = [] then .ok { source, segments := [] }
  else
    match takeSegments source.toList with
    | (segments, []) => .ok { source, segments }
    | (_, unread) =>
      let position := source.utf8ByteSize - (String.ofList unread).utf8ByteSize
      .error (.invalidPath (some source) (faultAt position unread))

end DocQuery.Path
