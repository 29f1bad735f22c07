/-! # Splitting at a separator

`split sep` cuts a text at every `sep`; there is always one piece more than there are separators.
`join sep` puts the separators back, and the two are inverse. -/

namespace DocQuery.Text

def split (sep : Char) : List Char → List (List Char)
  | [] => [[]]
  | c :: rest =>
    if c = sep then [] :: split sep rest
    else
      match split sep rest with
      | [] => [[c]]
      | piece :: pieces => (c :: piece) :: pieces

def join (sep : Char) : List (List Char) → List Char
  | [] => []
  | [piece] => piece
  | piece :: pieces => piece ++ sep :: join sep pieces

/-- What follows the last occurrence of `sep`; the whole text if there is none. -/
def afterLast (sep : Char) (s : List Char) : List Char :=
  (s.reverse.takeWhile (· != sep)).reverse

def beforeLast? (sep : Char) (s : List Char) : Option (List Char) :=
  match s.reverse.dropWhile (· != sep) with
  | [] => none
  | _ :: front => some front.reverse

theorem split_ne_nil (sep : Char) (s : List Char) : split sep s ≠ [] := by
  cases s with
  | nil => simp [split]
  | cons c rest =>
    simp only [split]
    split
    · simp
    · split <;> simp

theorem join_split (sep : Char) (s : List Char) : join sep (split sep s) = s := by
  induction s with
  | nil => rfl
  | cons c rest ih =>
    simp only [split]
    have hne := split_ne_nil sep rest
    by_cases hc : c = sep
    · simp only [hc, if_true]
      cases hs : split sep rest with
      | nil => exact absurd hs hne
      | cons piece pieces => rw [← hs]; simp [join, hs] at ih ⊢; exact ih
    · simp only [hc, if_false]
      cases hs : split sep rest with
      | nil => exact absurd hs hne
      | cons piece pieces =>
        rw [hs] at ih
        cases pieces <;> simp_all [join]

end DocQuery.Text
