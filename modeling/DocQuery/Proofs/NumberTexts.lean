import DocQuery.Number.Layout
import DocQuery.Proofs.FloatDigits

/-! # Texts of numbers

A decimal number is written as digits without superfluous zeros, perhaps with a sign, a fraction and
an exponent. Integers and finite floats are written so, whatever the layout. -/

namespace DocQuery.Number

/-- The digits before the decimal point: no superfluous zeros stand in front. -/
def IsWhole (ds : List Char) : Prop := IsDigits ds ∧ (ds.head? = some '0' → ds = ['0'])

inductive IsFraction : List Char → Prop where
  | none : IsFraction []
  | digits {ds : List Char} : IsDigits ds → IsFraction ('.' :: ds)

inductive IsExponent : List Char → Prop where
  | none : IsExponent []
  | digits {sign ds : List Char} : sign = [] ∨ sign = ['+'] ∨ sign = ['-'] → IsDigits ds →
      IsExponent ('e' :: (sign ++ ds))

inductive IsMagnitude : List Char → Prop where
  | mk {whole fraction exponent : List Char} : IsWhole whole → IsFraction fraction →
      IsExponent exponent → IsMagnitude (whole ++ (fraction ++ exponent))

inductive IsNumber : List Char → Prop where
  | plain {s : List Char} : IsMagnitude s → IsNumber s
  | minus {s : List Char} : IsMagnitude s → IsNumber ('-' :: s)

theorem isDigits_append {ds es : List Char} (hd : IsDigits ds) (he : ∀ c ∈ es, c.isDigit = true) :
    IsDigits (ds ++ es) := by
  refine ⟨List.append_ne_nil_of_left_ne_nil hd.1 _, ?_⟩
  intro c hc
  rcases List.mem_append.mp hc with hc | hc
  · exact hd.2 c hc
  · exact he c hc

theorem isDigits_of_sublist {ds es : List Char} (hd : IsDigits ds) (h : es.Sublist ds)
    (hne : es ≠ []) : IsDigits es := ⟨hne, fun c hc => hd.2 c (h.subset hc)⟩

theorem zeros_digits (n : Nat) : ∀ c ∈ List.replicate n '0', c.isDigit = true := by
  intro c hc
  rw [List.eq_of_mem_replicate hc]
  rfl

theorem numeral_isDigits (n : Nat) : IsDigits (numeral n) := ⟨numeral_ne_nil n, numeral_digits n⟩

theorem numeral_isWhole (n : Nat) : IsWhole (numeral n) := by
  refine ⟨numeral_isDigits n, ?_⟩
  intro h
  rcases Nat.eq_zero_or_pos n with rfl | hn
  · rw [numeral_of_lt (by decide)]
    rfl
  · exact absurd h (numeral_head hn)

theorem zero_isDigits : IsDigits ['0'] := ⟨List.cons_ne_nil _ _, zeros_digits 1⟩

theorem zero_isWhole : IsWhole ['0'] := ⟨zero_isDigits, fun _ => rfl⟩

theorem IsWhole.magnitude {ds : List Char} (h : IsWhole ds) : IsMagnitude ds := by
  have := IsMagnitude.mk h .none .none
  simpa using this

theorem intNumeral_isNumber (n : Int) : IsNumber (intNumeral n) := by
  rw [intNumeral]
  split
  · exact .minus (numeral_isWhole _).magnitude
  · exact .plain (numeral_isWhole _).magnitude

theorem isWhole_of_head {ds : List Char} (h : IsDigits ds) (hhead : ds.head? ≠ some '0') :
    IsWhole ds := ⟨h, fun h0 => absurd h0 hhead⟩

theorem positional_isMagnitude (keepFraction : Bool) {s : Shortest} (h : s.Proper) :
    IsMagnitude (positionalDigits keepFraction s) := by
  obtain ⟨hdigits, hhead⟩ := h
  rw [positionalDigits]
  split
  · have hfraction : IsFraction ('.' :: (List.replicate (-s.point).toNat '0' ++ s.digits)) := by
      refine .digits ⟨List.append_ne_nil_of_right_ne_nil _ hdigits.1, ?_⟩
      intro c hc
      rcases List.mem_append.mp hc with hc | hc
      · exact zeros_digits _ c hc
      · exact hdigits.2 c hc
    simpa using IsMagnitude.mk zero_isWhole hfraction .none
  · next hpoint =>
    dsimp only
    split
    · have hwhole : IsWhole (s.digits ++ List.replicate (s.point.toNat - s.digits.length) '0') := by
        refine isWhole_of_head (isDigits_append hdigits (zeros_digits _)) ?_
        rwa [List.head?_append_of_ne_nil _ hdigits.1]
      cases keepFraction with
      | true =>
        have hfraction : IsFraction ['.', '0'] := .digits zero_isDigits
        simpa using IsMagnitude.mk hwhole hfraction .none
      | false => simpa using IsMagnitude.mk hwhole .none .none
    · next hlen =>
      have hfront : s.digits.take s.point.toNat ≠ [] := by
        intro hnil
        rcases List.take_eq_nil_iff.mp hnil with hz | hd
        · omega
        · exact hdigits.1 hd
      have hback : s.digits.drop s.point.toNat ≠ [] := by
        intro hnil
        exact hlen (List.drop_eq_nil_iff.mp hnil)
      have hwhole : IsWhole (s.digits.take s.point.toNat) := by
        refine isWhole_of_head (isDigits_of_sublist hdigits (List.take_sublist _ _) hfront) ?_
        rw [List.head?_take]
        split
        · simp
        · exact hhead
      have hfraction : IsFraction ('.' :: s.digits.drop s.point.toNat) :=
        .digits (isDigits_of_sublist hdigits (List.drop_sublist _ _) hback)
      simpa using IsMagnitude.mk hwhole hfraction .none

theorem exponent_isExponent (plusSign : Bool) (e : Int) :
    IsExponent ('e' :: ((if plusSign && 0 < e then ['+'] else []) ++ intNumeral e)) := by
  have hdigits := numeral_isDigits e.natAbs
  rw [intNumeral]
  by_cases hneg : e < 0
  · have hplus : (plusSign && decide (0 < e)) = false := by simp; omega
    rw [if_pos hneg, hplus]
    exact @IsExponent.digits ['-'] _ (by simp) hdigits
  · rw [if_neg hneg]
    split
    · exact @IsExponent.digits ['+'] _ (by simp) hdigits
    · exact @IsExponent.digits [] _ (by simp) hdigits

theorem scientific_isMagnitude (plusSign : Bool) {s : Shortest} (h : s.Proper) :
    IsMagnitude (scientificDigits plusSign s) := by
  obtain ⟨hdigits, hhead⟩ := h
  have hfront : s.digits.take 1 ≠ [] := by
    intro hnil
    rcases List.take_eq_nil_iff.mp hnil with hz | hd
    · cases hz
    · exact hdigits.1 hd
  have hwhole : IsWhole (s.digits.take 1) := by
    refine isWhole_of_head (isDigits_of_sublist hdigits (List.take_sublist _ _) hfront) ?_
    rwa [List.head?_take, if_neg (by decide)]
  have hfraction : IsFraction (if s.digits.length ≤ 1 then [] else '.' :: s.digits.drop 1) := by
    split
    · exact .none
    · next hlen =>
      refine .digits (isDigits_of_sublist hdigits (List.drop_sublist _ _) ?_)
      exact fun hnil => hlen (List.drop_eq_nil_iff.mp hnil)
  have := IsMagnitude.mk hwhole hfraction (exponent_isExponent plusSign (s.point - 1))
  rwa [← List.append_assoc] at this

theorem magnitude_isMagnitude (l : Layout) {m : Nat} {q : Int} (hbound : m < 2 * hiddenBit)
    (hq : leastExponent ≤ q) : IsMagnitude (l.magnitude m q) := by
  rw [Layout.magnitude]
  split
  · split
    · exact .mk zero_isWhole (.digits zero_isDigits) .none
    · exact zero_isWhole.magnitude
  · next hm =>
    have hproper := shortest_proper l.tie (Nat.pos_of_ne_zero hm) hbound hq
    dsimp only
    split
    · exact positional_isMagnitude l.keepFraction hproper
    · split
      · exact positional_isMagnitude l.keepFraction hproper
      · exact scientific_isMagnitude l.plusSign hproper

theorem write_of_finite (l : Layout) {x : Float} {negative : Bool} {m : Nat} {q : Int}
    (h : Binary.ofFloat x = .finite negative m q) : IsNumber (l.write x) := by
  obtain ⟨hbound, hq⟩ := ofFloat_bounds h
  have hmagnitude := magnitude_isMagnitude l hbound hq
  rw [Layout.write, h]
  cases negative with
  | true => exact .minus hmagnitude
  | false => exact .plain hmagnitude

theorem write_isNumber (l : Layout) {x : Float} (h : x.isFinite = true) : IsNumber (l.write x) := by
  obtain ⟨_, _, _, hx⟩ := ofFloat_finite h
  exact write_of_finite l hx

theorem write_cases (l : Layout) (x : Float) :
    IsNumber (l.write x) ∨
      l.write x ∈ [l.nan.toList, l.infinity.toList, l.minusInfinity.toList] := by
  cases hx : Binary.ofFloat x with
  | nan => exact Or.inr (by simp [Layout.write, hx])
  | infinite negative => exact Or.inr (by cases negative <;> simp [Layout.write, hx])
  | finite negative m q => exact Or.inl (write_of_finite l hx)

theorem IsMagnitude.head {s : List Char} (h : IsMagnitude s) :
    ∃ c rest, s = c :: rest ∧ c.isDigit = true := by
  obtain ⟨⟨⟨hne, hd⟩, _⟩, _, _⟩ := h
  obtain ⟨c, ds, rfl⟩ := List.exists_cons_of_ne_nil hne
  exact ⟨c, _, rfl, hd c List.mem_cons_self⟩

theorem IsNumber.head {s : List Char} (h : IsNumber s) :
    ∃ c rest, s = c :: rest ∧ (c.isDigit = true ∨ c = '-') := by
  cases h with
  | plain h =>
    obtain ⟨c, rest, hs, hc⟩ := h.head
    exact ⟨c, rest, hs, Or.inl hc⟩
  | minus h => exact ⟨'-', _, rfl, Or.inr rfl⟩

def isNumberChar (c : Char) : Bool := c.isDigit || c == '.' || c == 'e' || c == '+' || c == '-'

theorem IsDigits.chars {ds : List Char} (h : IsDigits ds) : ∀ c ∈ ds, isNumberChar c = true := by
  intro c hc
  simp [isNumberChar, h.2 c hc]

theorem IsMagnitude.chars {s : List Char} (h : IsMagnitude s) :
    ∀ c ∈ s, isNumberChar c = true := by
  obtain ⟨hwhole, hfraction, hexponent⟩ := h
  intro c hc
  rcases List.mem_append.mp hc with hc | hc
  · exact hwhole.1.chars c hc
  rcases List.mem_append.mp hc with hc | hc
  · cases hfraction with
    | none => cases hc
    | digits hds =>
      rcases List.mem_cons.mp hc with rfl | hc
      · rfl
      · exact hds.chars c hc
  · cases hexponent with
    | none => cases hc
    | digits hsign hds =>
      rcases List.mem_cons.mp hc with rfl | hc
      · rfl
      rcases List.mem_append.mp hc with hc | hc
      · rcases hsign with rfl | rfl | rfl
        · cases hc
        · rw [List.mem_singleton.mp hc]; rfl
        · rw [List.mem_singleton.mp hc]; rfl
      · exact hds.chars c hc

theorem IsNumber.chars {s : List Char} (h : IsNumber s) : ∀ c ∈ s, isNumberChar c = true := by
  cases h with
  | plain h => exact h.chars
  | minus h =>
    intro c hc
    rcases List.mem_cons.mp hc with rfl | hc
    · rfl
    · exact h.chars c hc

end DocQuery.Number
