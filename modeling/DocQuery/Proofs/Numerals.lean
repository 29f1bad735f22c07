import DocQuery.Number.Numeral
import Mathlib.Algebra.Order.Ring.Nat
import Mathlib.Data.List.Basic
import Mathlib.Data.List.Induction
import Mathlib.Tactic.IntervalCases

/-! # Numerals

The numeral of a number is its decimal text: a row of digits without superfluous zeros, as long as
the number's order of magnitude. Every such row is the numeral of its value. -/

namespace DocQuery.Number

theorem not_mem_digits {ds : List Char} (hd : ∀ c ∈ ds, c.isDigit = true) {c : Char}
    (hc : c.isDigit = false) : c ∉ ds := by
  intro hm
  rw [hd c hm] at hc
  cases hc

theorem digit_isDigit {n : Nat} (h : n < 10) : (digit n).isDigit = true := by
  interval_cases n <;> rfl

theorem numeral_digits (n : Nat) : ∀ c ∈ numeral n, c.isDigit = true := by
  induction n using numeral.induct with
  | case1 n h =>
    rw [numeral, if_pos h]
    simpa using digit_isDigit h
  | case2 n h ih =>
    rw [numeral, if_neg h]
    intro c hc
    rcases List.mem_append.mp hc with hc | hc
    · exact ih c hc
    · rw [List.mem_singleton.mp hc]
      exact digit_isDigit (Nat.mod_lt _ (by decide))

theorem digit_digitValue {c : Char} (h : c.isDigit = true) :
    digitValue c < 10 ∧ digit (digitValue c) = c := by
  have hrange : '0'.toNat ≤ c.toNat ∧ c.toNat ≤ '9'.toNat := by
    simpa [Char.isDigit, UInt32.le_iff_toNat_le] using h
  have hzero : '0'.toNat = 48 := rfl
  have hnine : '9'.toNat = 57 := rfl
  constructor
  · unfold digitValue; omega
  · have hsum : '0'.toNat + digitValue c = c.toNat := by unfold digitValue; omega
    rw [digit, hsum, Char.ofNat_toNat]

theorem digit_eq_digitChar {n : Nat} (h : n < 10) : digit n = n.digitChar := by
  interval_cases n <;> rfl

theorem numeral_eq_toDigits (n : Nat) : numeral n = Nat.toDigits 10 n := by
  induction n using numeral.induct with
  | case1 n h => rw [numeral, if_pos h, Nat.toDigits_of_lt_base h, digit_eq_digitChar h]
  | case2 n h ih =>
    rw [numeral, if_neg h, ih, Nat.toDigits_of_base_le (b := 10) (n := n) (by decide) (by omega),
      digit_eq_digitChar (Nat.mod_lt _ (by decide))]

theorem natText_eq (n : Nat) : natText n = toString n := by
  rw [natText, numeral_eq_toDigits, Nat.toString_eq_ofList_toDigits]

theorem intText_eq (n : Int) : String.ofList (intNumeral n) = toString n := by
  cases n with
  | ofNat n =>
    rw [intNumeral, if_neg (by simp)]
    exact natText_eq n
  | negSucc n =>
    rw [intNumeral, if_pos (by simp), String.ofList_cons]
    exact congrArg ("-" ++ ·) (natText_eq (n + 1))

theorem numeral_of_lt {n : Nat} (h : n < 10) : numeral n = [digit n] := by
  rw [numeral, if_pos h]

theorem numeral_digitsValue {ds : List Char} (hne : ds ≠ []) (hd : ∀ c ∈ ds, c.isDigit = true)
    (hzero : ds.head? = some '0' → ds = ['0']) : numeral (digitsValue ds) = ds := by
  induction ds using List.reverseRecOn with
  | nil => exact absurd rfl hne
  | append_singleton front c ih =>
    obtain ⟨hlt, hc⟩ := digit_digitValue (hd c (by simp))
    rw [digitsValue_append_singleton]
    by_cases hf : front = []
    · subst hf
      have hv : 10 * digitsValue [] + digitValue c = digitValue c := by simp
      rw [hv, numeral_of_lt hlt, hc]
      rfl
    · have hhead : front.head? ≠ some '0' := by
        intro h0
        have hone := hzero (by rw [List.head?_append_of_ne_nil _ hf, h0])
        simp [List.append_eq_singleton_iff, hf] at hone
      have hnum := ih hf (fun d hm => hd d (by simp [hm])) (fun h0 => absurd h0 hhead)
      have hpos : digitsValue front ≠ 0 := by
        intro hv
        rw [hv, numeral_of_lt (by decide)] at hnum
        apply hhead
        rw [← hnum]
        rfl
      have hdiv : (10 * digitsValue front + digitValue c) / 10 = digitsValue front := by omega
      have hmod : (10 * digitsValue front + digitValue c) % 10 = digitValue c := by omega
      rw [numeral, if_neg (by omega), hdiv, hmod, hnum, hc]

theorem digitsValue_zero_cons (ds : List Char) : digitsValue ('0' :: ds) = digitsValue ds := rfl

theorem numeral_head {n : Nat} (h : 0 < n) : (numeral n).head? ≠ some '0' := by
  induction n using numeral.induct with
  | case1 n hn =>
    rw [numeral_of_lt hn]
    interval_cases n <;> decide
  | case2 n hn ih =>
    rw [numeral, if_neg hn, List.head?_append_of_ne_nil _ (numeral_ne_nil _)]
    exact ih (by omega)

theorem numeral_bounds {n : Nat} (h : 0 < n) :
    Nat.pow 10 ((numeral n).length - 1) ≤ n ∧ n < Nat.pow 10 (numeral n).length := by
  induction n using numeral.induct with
  | case1 n hn =>
    rw [numeral_of_lt hn, List.length_singleton]
    constructor
    · exact h
    · exact hn
  | case2 n hn ih =>
    obtain ⟨hlow, hhigh⟩ := ih (by omega)
    have hne : (numeral (n / 10)).length ≠ 0 := by simpa using numeral_ne_nil (n / 10)
    obtain ⟨k, hk⟩ := Nat.exists_eq_succ_of_ne_zero hne
    rw [numeral, if_neg hn, List.length_append, List.length_singleton, hk]
    rw [hk] at hlow hhigh
    simp only [Nat.pow_eq, Nat.succ_eq_add_one, Nat.add_sub_cancel, pow_succ] at hlow hhigh ⊢
    omega

theorem numeral_length {n k : Nat} (hlow : Nat.pow 10 k ≤ n) (hhigh : n < Nat.pow 10 (k + 1)) :
    (numeral n).length = k + 1 := by
  have hn : 0 < n := lt_of_lt_of_le (Nat.pow_pos (by decide)) hlow
  obtain ⟨hlow', hhigh'⟩ := numeral_bounds hn
  have hless : (numeral n).length - 1 < k + 1 :=
    (Nat.pow_lt_pow_iff_right (by decide)).mp (lt_of_le_of_lt hlow' hhigh)
  have hmore : k < (numeral n).length :=
    (Nat.pow_lt_pow_iff_right (by decide)).mp (lt_of_le_of_lt hlow hhigh')
  omega

end DocQuery.Number
