import DocQuery.Proofs.TemplatePatterns
import DocQuery.Proofs.TextPieces

/-! # Filling a template in one pass

Filling looks for a placeholder from the front of the text again for every argument. A reader that
never goes back does the same: it copies the text up to a placeholder, pushes the argument back in
its place and reads on from there. So a placeholder that comes with an argument is the next one to
be filled, and what has been copied stays as it is. -/

namespace DocQuery.Template

theorem fill_closed {text : List Char} (h : '?' ∉ text) (arguments : List (List Char)) :
    fill text arguments = text := by
  have hfill := fill_skip h [] arguments
  rwa [List.append_nil, fill_nil, List.append_nil] at hfill

theorem not_placeholder {text : List Char} (h : '?' ∉ text) : ∀ c ∈ text, (c != '?') = true := by
  intro c hc
  rw [bne_iff_ne]
  rintro rfl
  exact h hc

/-- A text that is being filled: what has been copied, and what is still to be read. -/
structure Reader where
  copied : List Char
  unread : List Char
  deriving DecidableEq, Repr

namespace Reader

def text (r : Reader) : List Char := r.copied ++ r.unread

/-- Copies up to the next placeholder and pushes the argument back in its place; none if there is no
placeholder. -/
def push? (r : Reader) (argument : List Char) : Option Reader :=
  match r.unread.dropWhile (· != '?') with
  | [] => none
  | _ :: rest =>
    some { copied := r.copied ++ r.unread.takeWhile (· != '?'), unread := argument ++ rest }

/-- Reads with the arguments in turn. When they or the placeholders are used up, everything that is
left is copied. -/
def run (r : Reader) : List (List Char) → List Char
  | [] => r.text
  | argument :: arguments =>
    match r.push? argument with
    | none => r.text
    | some next => next.run arguments

def Settled (r : Reader) : Prop := '?' ∉ r.copied

/-! ## One step -/

theorem push_absent {r : Reader} (h : '?' ∉ r.unread) (argument : List Char) :
    r.push? argument = none := by
  rw [push?, List.dropWhile_eq_nil_iff.mpr (not_placeholder h)]

theorem push_placeholder {r : Reader} {between rest : List Char} (h : '?' ∉ between)
    (hunread : r.unread = between ++ '?' :: rest) (argument : List Char) :
    r.push? argument = some ⟨r.copied ++ between, argument ++ rest⟩ := by
  rw [push?, hunread, List.dropWhile_append_of_pos (not_placeholder h),
    List.takeWhile_append_of_pos (not_placeholder h)]
  simp

theorem push_cases (r : Reader) (argument : List Char) :
    '?' ∉ r.unread ∧ r.push? argument = none ∨
    ∃ between rest, '?' ∉ between ∧ r.unread = between ++ '?' :: rest ∧
      r.push? argument = some ⟨r.copied ++ between, argument ++ rest⟩ := by
  by_cases hmem : '?' ∈ r.unread
  · obtain ⟨between, rest, hunread, hbetween⟩ := List.eq_append_cons_of_mem hmem
    exact Or.inr ⟨between, rest, hbetween, hunread, push_placeholder hbetween hunread argument⟩
  · exact Or.inl ⟨hmem, push_absent hmem argument⟩

theorem Settled.append {r : Reader} (h : r.Settled) {others : List Char} (ho : '?' ∉ others) :
    '?' ∉ r.copied ++ others := by
  intro hc
  rcases List.mem_append.mp hc with hc | hc
  · exact h hc
  · exact ho hc

theorem push_text {r : Reader} (h : r.Settled) {between rest : List Char} (hbetween : '?' ∉ between)
    (hunread : r.unread = between ++ '?' :: rest) (argument : List Char) :
    text ⟨r.copied ++ between, argument ++ rest⟩ = fillFirst argument r.text := by
  calc r.copied ++ between ++ (argument ++ rest)
      = r.copied ++ between ++ argument ++ rest := by rw [List.append_assoc _ argument]
    _ = fillFirst argument (r.copied ++ between ++ '?' :: rest) :=
        (fillFirst_append (h.append hbetween) argument rest).symm
    _ = fillFirst argument r.text := by rw [text, hunread, List.append_assoc]

/-! ## The whole pass -/

theorem run_absent {r : Reader} {argument : List Char} (h : r.push? argument = none)
    (arguments : List (List Char)) : r.run (argument :: arguments) = r.text := by
  rw [run, h]

theorem run_push {r next : Reader} {argument : List Char} (h : r.push? argument = some next)
    (arguments : List (List Char)) : r.run (argument :: arguments) = next.run arguments := by
  rw [run, h]

theorem run_eq_fill {r : Reader} (h : r.Settled) (arguments : List (List Char)) :
    r.run arguments = fill r.text arguments := by
  induction arguments generalizing r with
  | nil => rfl
  | cons argument arguments ih =>
    rcases push_cases r argument with ⟨hnone, hpush⟩ | ⟨between, rest, hbetween, hunread, hpush⟩
    · rw [run_absent hpush]
      exact (fill_closed (h.append hnone) _).symm
    · have hsettled : Settled ⟨r.copied ++ between, argument ++ rest⟩ := h.append hbetween
      rw [run_push hpush, ih hsettled, push_text h hbetween hunread]
      rfl

theorem copied_kept (r : Reader) (arguments : List (List Char)) :
    r.copied <+: r.run arguments := by
  induction arguments generalizing r with
  | nil => exact List.prefix_append _ _
  | cons argument arguments ih =>
    rcases push_cases r argument with ⟨-, hpush⟩ | ⟨between, rest, -, -, hpush⟩
    · rw [run_absent hpush]
      exact List.prefix_append _ _
    · rw [run_push hpush]
      exact (List.prefix_append r.copied between).trans
        (ih ⟨r.copied ++ between, argument ++ rest⟩)

end Reader

/-! ## Arguments without placeholders -/

/-- What stands in the place of placeholder number `i`: its argument, or the placeholder still. -/
def filler (arguments : List (List Char)) (i : Nat) : List Char := arguments.getD i ['?']

/-- The pieces between the placeholders, each but the first behind the filler of its placeholder. -/
def woven (arguments : List (List Char)) (first : List Char) (others : List (List Char)) :
    List Char :=
  first ++ (others.mapIdx fun i piece => filler arguments i ++ piece).flatten

theorem fill_join {arguments : List (List Char)} (h : ∀ argument ∈ arguments, '?' ∉ argument)
    {first : List Char} {others : List (List Char)} (hfirst : '?' ∉ first)
    (hothers : ∀ piece ∈ others, '?' ∉ piece) :
    fill (Text.join '?' (first :: others)) arguments = woven arguments first others := by
  induction others generalizing first arguments with
  | nil => simp [Text.join, woven, fill_closed hfirst]
  | cons next others ih =>
    have hnext := hothers next List.mem_cons_self
    have hrest : ∀ piece ∈ others, '?' ∉ piece :=
      fun piece hp => hothers piece (List.mem_cons_of_mem _ hp)
    change fill (first ++ '?' :: Text.join '?' (next :: others)) arguments = _
    rw [fill_skip hfirst]
    cases arguments with
    | nil =>
      change first ++ '?' :: fill (Text.join '?' (next :: others)) [] = _
      rw [ih h hnext hrest]
      simp [woven, filler]
    | cons argument arguments =>
      rw [fill_hole (h argument List.mem_cons_self),
        ih (fun a ha => h a (List.mem_cons_of_mem _ ha)) hnext hrest]
      simp [woven, filler]

theorem count_fillFirst {argument : List Char} (h : '?' ∉ argument) (text : List Char) :
    (fillFirst argument text).count '?' = text.count '?' - 1 := by
  by_cases hmem : '?' ∈ text
  · obtain ⟨before, rest, rfl, hbefore⟩ := List.eq_append_cons_of_mem hmem
    rw [fillFirst_append hbefore]
    simp [List.count_eq_zero_of_not_mem, h, hbefore]
  · rw [fillFirst_of_not_mem hmem, List.count_eq_zero_of_not_mem hmem]

theorem count_fill {arguments : List (List Char)} (h : ∀ argument ∈ arguments, '?' ∉ argument)
    (text : List Char) : (fill text arguments).count '?' = text.count '?' - arguments.length := by
  induction arguments generalizing text with
  | nil => rfl
  | cons argument arguments ih =>
    change (fill (fillFirst argument text) arguments).count '?' = _
    rw [ih (fun a ha => h a (List.mem_cons_of_mem _ ha)),
      count_fillFirst (h argument List.mem_cons_self), List.length_cons]
    omega

theorem pieces_of_text (text : List Char) : ∃ first others,
    Text.split '?' text = first :: others ∧ Text.join '?' (first :: others) = text ∧
    '?' ∉ first ∧ (∀ piece ∈ others, '?' ∉ piece) ∧ others.length = text.count '?' := by
  obtain ⟨first, others, hsplit⟩ := List.exists_cons_of_ne_nil (Text.split_ne_nil '?' text)
  have hjoin := Text.join_split '?' text
  have hpieces : ∀ piece ∈ first :: others, '?' ∉ piece := by
    intro piece hp
    rw [← hsplit] at hp
    exact Text.not_mem_of_mem_split hp
  rw [hsplit] at hjoin
  refine ⟨first, others, hsplit, hjoin, hpieces first List.mem_cons_self,
    fun piece hp => hpieces piece (List.mem_cons_of_mem _ hp), ?_⟩
  rw [← hjoin]
  exact (Text.count_join hpieces).symm

theorem expand_toList (t : Template) (arguments : List String) :
    (t.expand arguments).toList = fill t.source.toList (arguments.map String.toList) :=
  String.toList_ofList

theorem expand_append (t : Template) (arguments more : List String) :
    t.expand (arguments ++ more) = (Template.mk (t.expand arguments)).expand more := by
  rw [← String.toList_inj, expand_toList, expand_toList, expand_toList, List.map_append, fill,
    List.foldl_append]
  rfl

/-- Filling a template is one pass of the reader over it, and the reader keeps what it has copied.
When arguments are missing, what is left is a template for them, and surplus arguments change
nothing. If no argument brings placeholders of its own, then argument number `i` takes the place of
placeholder number `i`, what lies between the placeholders stays, and as many placeholders are left
as there are too few arguments. -/
theorem expand_one_pass (t : Template) (arguments : List String) :
    (t.expand arguments).toList =
      (Reader.mk [] t.source.toList).run (arguments.map String.toList) ∧
    (∀ (r : Reader) (more : List (List Char)), r.copied <+: r.run more) ∧
    (∀ more, t.expand (arguments ++ more) = (Template.mk (t.expand arguments)).expand more ∧
      ('?' ∉ (t.expand arguments).toList →
        t.expand (arguments ++ more) = t.expand arguments)) ∧
    ((∀ argument ∈ arguments, '?' ∉ argument.toList) →
      (∃ first others, Text.split '?' t.source.toList = first :: others ∧
        others.length = t.placeholders ∧
        (t.expand arguments).toList = woven (arguments.map String.toList) first others) ∧
      (Template.mk (t.expand arguments)).placeholders = t.placeholders - arguments.length) := by
  refine ⟨?_, Reader.copied_kept, ?_, ?_⟩
  · have hsettled : Reader.Settled ⟨[], t.source.toList⟩ := List.not_mem_nil
    rw [expand_toList, Reader.run_eq_fill hsettled]
    rfl
  · intro more
    refine ⟨expand_append t arguments more, ?_⟩
    intro hclosed
    rw [expand_append, ← String.toList_inj, expand_toList]
    exact fill_closed hclosed _
  · intro hplain
    have harguments : ∀ argument ∈ arguments.map String.toList, '?' ∉ argument := by
      intro argument ha
      obtain ⟨text, htext, rfl⟩ := List.mem_map.mp ha
      exact hplain text htext
    obtain ⟨first, others, hsplit, hjoin, hfirst, hothers, hlength⟩ :=
      pieces_of_text t.source.toList
    refine ⟨⟨first, others, hsplit, hlength, ?_⟩, ?_⟩
    · rw [expand_toList, ← hjoin]
      exact fill_join harguments hfirst hothers
    · rw [placeholders, placeholders, expand_toList, count_fill harguments, List.length_map]

/-- Two arguments for three placeholders, one of them empty. -/
theorem missing_argument_leaves_placeholder :
    (∀ argument ∈ ["x", ""], '?' ∉ argument.toList) ∧
    (Template.mk "é?.?[?]").expand ["x", ""] = "éx.[?]" ∧
    (Template.mk "éx.[?]").placeholders = 1 := by
  have hplain : ∀ argument ∈ ["x", ""], '?' ∉ argument.toList := by simp
  have hexpand : (Template.mk "é?.?[?]").expand ["x", ""] = "éx.[?]" := by decide
  have hcount := ((expand_one_pass ⟨"é?.?[?]"⟩ ["x", ""]).2.2.2 hplain).2
  rw [hexpand] at hcount
  exact ⟨hplain, hexpand, hcount⟩

end DocQuery.Template
