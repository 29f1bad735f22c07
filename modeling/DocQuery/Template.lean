/-! # Path templates

A template is the text of a path with `?` placeholders. Arguments fill it one after the other, each
replacing the first `?` that the text then holds; a `?` inside an argument is a placeholder for the
arguments after it. Surplus arguments change nothing, and missing ones leave placeholders behind. -/

namespace DocQuery

structure Template where
  source : String
  deriving DecidableEq, Repr

namespace Template

/-- Puts an argument in the place of the first placeholder. -/
def fillFirst (argument : List Char) : List Char → List Char
  | [] => []
  | c :: rest => if c = '?' then argument ++ rest else c :: fillFirst argument rest

def fill (text : List Char) (arguments : List (List Char)) : List Char :=
  arguments.foldl (fun text argument => fillFirst argument text) text

def placeholders (t : Template) : Nat := t.source.toList.count '?'

def expand (t : Template) (arguments : List String) : String :=
  String.ofList (fill t.source.toList (arguments.map String.toList))

theorem fillFirst_of_not_mem {text : List Char} (h : '?' ∉ text) (argument : List Char) :
    fillFirst argument text = text := by
  induction text with
  | nil => rfl
  | cons c rest ih =>
    simp only [List.mem_cons, not_or] at h
    simp [fillFirst, Ne.symm h.1, ih h.2]

theorem fillFirst_append {before : List Char} (h : '?' ∉ before) (argument rest : List Char) :
    fillFirst argument (before ++ '?' :: rest) = before ++ argument ++ rest := by
  induction before with
  | nil => simp [fillFirst]
  | cons c front ih =>
    simp only [List.mem_cons, not_or] at h
    simp [fillFirst, Ne.symm h.1, ih h.2]

end Template

end DocQuery
