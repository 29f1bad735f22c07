import DocQuery.Number.Shortest
import DocQuery.Proofs.FloatNumbers
import DocQuery.Proofs.Numerals
import Mathlib.Data.List.DropRight
import Mathlib.Tactic.Ring

/-! # Digits of floats

The search for the shortest digits of a float always succeeds: the grid of seventeen digits is finer
than the interval of numbers that read back as the float. What it finds is not zero, so the digits
begin with one that is not zero. -/

namespace DocQuery.Number

theorem onGrid_none {tie : Tie} {i : Interval} {e : Int} (h : i.onGrid? tie e = none) :
    i.high * Nat.pow 10 (-e).toNat ≤
      i.low * Nat.pow 10 (-e).toNat + i.denominator * Nat.pow 10 e.toNat := by
  simp only [Interval.onGrid?] at h
  generalize Nat.pow 10 (-e).toNat = scale at h ⊢
  generalize i.denominator * Nat.pow 10 e.toNat = unit at h ⊢
  generalize i.value * scale / unit = below at h
  split at h
  · split at h
    · cases h
    · split at h
      · cases h
      · cases tie <;> cases h
  · cases h
  · cases h
  · next hlow hhigh =>
    rw [add_mul, one_mul] at hhigh
    by_cases hc : i.closed = true
    · simp only [if_pos hc, decide_eq_false_iff_not] at hlow hhigh
      omega
    · simp only [if_neg hc, decide_eq_false_iff_not] at hlow hhigh
      omega

theorem onGrid_pos {tie : Tie} {i : Interval} {e : Int} {n : Nat} (hi : 0 < i.low)
    (h : i.onGrid? tie e = some n) : 0 < n := by
  have hlow : 0 < i.low * Nat.pow 10 (-e).toNat := Nat.mul_pos hi (Nat.pow_pos (by decide))
  simp only [Interval.onGrid?] at h
  generalize Nat.pow 10 (-e).toNat = scale at h hlow
  generalize i.denominator * Nat.pow 10 e.toNat = unit at h
  generalize i.value * scale / unit = below at h
  have hbelow : (if i.closed then decide (i.low * scale ≤ below * unit)
      else decide (i.low * scale < below * unit)) = true → 0 < below := by
    intro hw
    apply Nat.pos_of_ne_zero
    rintro rfl
    rw [Nat.zero_mul] at hw
    split at hw <;> simp only [decide_eq_true_eq] at hw <;> omega
  split at h
  · next hw _ =>
    have := hbelow hw
    split at h
    · cases h; omega
    · split at h
      · cases h; omega
      · cases tie with
        | up => cases h; omega
        | toEven => simp only [Option.some.injEq] at h; split at h <;> omega
  · next hw _ =>
    have := hbelow hw
    cases h; omega
  · cases h; omega
  · cases h

/-- Of a number with `n` digits before the point, and `a` places that were added to count them, a
grid of `b + 1` digits has a unit that is at least `10 ^ b` times smaller. -/
theorem grid_unit {a b n value denominator : Nat} (hn : 0 < n)
    (h : Nat.pow 10 (n - 1) * denominator ≤ value * Nat.pow 10 a) :
    Nat.pow 10 b * (denominator * Nat.pow 10 ((n : Int) - a - (b + 1)).toNat) ≤
      value * Nat.pow 10 (-((n : Int) - a - (b + 1))).toNat := by
  simp only [Nat.pow_eq] at h ⊢
  have hpos : 0 < 10 ^ a := Nat.pow_pos (by decide)
  apply Nat.le_of_mul_le_mul_left _ hpos
  by_cases hlarge : a + b + 1 ≤ n
  · have hexp : ((n : Int) - a - (b + 1)).toNat = n - (a + b + 1) := by omega
    have hneg : (-((n : Int) - a - (b + 1))).toNat = 0 := by omega
    have hsplit : n - 1 = a + (b + (n - (a + b + 1))) := by omega
    rw [hexp, hneg, pow_zero, mul_one]
    rw [hsplit, pow_add, pow_add] at h
    calc 10 ^ a * (10 ^ b * (denominator * 10 ^ (n - (a + b + 1))))
        = 10 ^ a * (10 ^ b * 10 ^ (n - (a + b + 1))) * denominator := by ring
      _ ≤ value * 10 ^ a := h
      _ = 10 ^ a * value := by ring
  · have hexp : ((n : Int) - a - (b + 1)).toNat = 0 := by omega
    have hneg : (-((n : Int) - a - (b + 1))).toNat = a + b + 1 - n := by omega
    have hsplit : n - 1 + (a + b + 1 - n) = a + b := by omega
    have hpow : 10 ^ (n - 1) * 10 ^ (a + b + 1 - n) = 10 ^ a * 10 ^ b := by
      rw [← pow_add, hsplit, pow_add]
    rw [hexp, hneg, pow_zero, mul_one]
    calc 10 ^ a * (10 ^ b * denominator)
        = 10 ^ (n - 1) * 10 ^ (a + b + 1 - n) * denominator := by rw [hpow]; ring
      _ = 10 ^ (n - 1) * denominator * 10 ^ (a + b + 1 - n) := by ring
      _ ≤ value * 10 ^ a * 10 ^ (a + b + 1 - n) := Nat.mul_le_mul_right _ h
      _ = 10 ^ a * (value * 10 ^ (a + b + 1 - n)) := by ring

theorem two_pow_le_mul_ten_pow {k n value : Nat} (h : k ≤ 3 * n) (hvalue : 0 < value) :
    Nat.pow 2 k ≤ value * Nat.pow 10 n := by
  simp only [Nat.pow_eq]
  calc 2 ^ k ≤ 2 ^ (3 * n) := Nat.pow_le_pow_right (by decide) h
    _ = (2 ^ 3) ^ n := pow_mul 2 3 n
    _ ≤ 10 ^ n := Nat.pow_le_pow_left (by decide) n
    _ ≤ value * 10 ^ n := Nat.le_mul_of_pos_left _ hvalue

theorem grid_below_interval {m up scale unit : Nat} {narrow : Prop} [Decidable narrow] (hm : 0 < m)
    (hbound : m < 2 * hiddenBit) (hpos : 0 < up * scale)
    (hunit : Nat.pow 10 16 * unit ≤ 4 * m * up * scale)
    (hgap : (4 * m + 2) * up * scale ≤
      (4 * m - (if m = hiddenBit ∧ narrow then 1 else 2)) * up * scale + unit) : False := by
  have hten : Nat.pow 10 16 = 10000000000000000 := rfl
  have hhidden : hiddenBit = 4503599627370496 := rfl
  rw [hten] at hunit
  split at hgap
  · next hn =>
    obtain ⟨k, hk⟩ : ∃ k, 4 * m = k + 1 := ⟨4 * m - 1, by omega⟩
    rw [hk, Nat.add_sub_cancel] at hgap
    have hthree : 3 * (up * scale) ≤ unit := by
      have : (k + 1 + 2) * up * scale = k * up * scale + 3 * (up * scale) := by ring
      omega
    have hmany : 30000000000000000 * (up * scale) ≤ 4 * m * (up * scale) := by
      rw [mul_assoc (4 * m)] at hunit
      omega
    have := Nat.le_of_mul_le_mul_right hmany hpos
    omega
  · obtain ⟨k, hk⟩ : ∃ k, 4 * m = k + 2 := ⟨4 * m - 2, by omega⟩
    rw [hk, Nat.add_sub_cancel] at hgap
    have hfour : 4 * (up * scale) ≤ unit := by
      have : (k + 2 + 2) * up * scale = k * up * scale + 4 * (up * scale) := by ring
      omega
    have hmany : 40000000000000000 * (up * scale) ≤ 4 * m * (up * scale) := by
      rw [mul_assoc (4 * m)] at hunit
      omega
    have := Nat.le_of_mul_le_mul_right hmany hpos
    omega

/-- Seventeen digits suffice: the unit of that grid is shorter than the interval, for significands
below `2 ^ 53`. -/
theorem seventeen_digits_suffice (tie : Tie) {m : Nat} {q : Int} (hm : 0 < m)
    (hbound : m < 2 * hiddenBit) (hq : leastExponent ≤ q) :
    (Interval.of m q).onGrid? tie ((Interval.of m q).point - 17) ≠ none := by
  intro hnone
  have hgap := onGrid_none hnone
  have hvalue : (Interval.of m q).value = 4 * m * Nat.pow 2 (q - 2).toNat := rfl
  have hden : (Interval.of m q).denominator = Nat.pow 2 (2 - q).toNat := rfl
  have hlow : (Interval.of m q).low =
      (4 * m - (if m = hiddenBit ∧ leastExponent < q then 1 else 2)) * Nat.pow 2 (q - 2).toNat := rfl
  have hhigh : (Interval.of m q).high = (4 * m + 2) * Nat.pow 2 (q - 2).toNat := rfl
  have hup : 0 < Nat.pow 2 (q - 2).toNat := Nat.pow_pos (by decide)
  have hdown : 0 < (Interval.of m q).denominator := hden ▸ Nat.pow_pos (by decide)
  have hone : 0 < (Interval.of m q).value := hvalue ▸ Nat.mul_pos (by omega) hup
  have hsmall : (2 - q).toNat ≤ 3 * places := by unfold leastExponent at hq; unfold places; omega
  have hcount := two_pow_le_mul_ten_pow hsmall hone
  rw [← hden] at hcount
  generalize Interval.of m q = i at *
  have hbounds := (numeral_bounds (Nat.div_pos hcount hdown)).1
  rw [Nat.le_div_iff_mul_le hdown] at hbounds
  have hlen : 0 < (numeral (i.value * Nat.pow 10 places / i.denominator)).length :=
    List.length_pos_iff.mpr (numeral_ne_nil _)
  have hunit := grid_unit (b := 16) hlen hbounds
  have hlast : ((numeral (i.value * Nat.pow 10 places / i.denominator)).length : Int) - places -
      ((16 : Nat) + 1) = i.point - 17 := rfl
  rw [hlast, hvalue] at hunit
  rw [hhigh, hlow] at hgap
  have hscale : 0 < Nat.pow 10 (-(i.point - 17)).toNat := Nat.pow_pos (by decide)
  generalize Nat.pow 2 (q - 2).toNat = up at hup hunit hgap
  generalize Nat.pow 10 (-(i.point - 17)).toNat = scale at hscale hunit hgap
  generalize i.denominator * Nat.pow 10 (i.point - 17).toNat = unit at hunit hgap
  exact grid_below_interval hm hbound (Nat.mul_pos hup hscale) hunit hgap

theorem coarsest_hit {tie : Tie} {i : Interval} {point : Int} (grids used : Nat)
    (h : i.onGrid? tie (point - (used + grids : Nat)) ≠ none) :
    ∃ n e, i.onGrid? tie e = some n ∧ i.coarsest tie point (grids + 1) used = (n, e) := by
  induction grids generalizing used with
  | zero =>
    rw [Nat.add_zero] at h
    obtain ⟨n, hn⟩ := Option.ne_none_iff_exists'.mp h
    exact ⟨n, _, hn, by rw [Interval.coarsest, hn]⟩
  | succ grids ih =>
    cases hn : i.onGrid? tie (point - used) with
    | some n => exact ⟨n, _, hn, by rw [Interval.coarsest, hn]⟩
    | none =>
      have hlast : used + 1 + grids = used + (grids + 1) := by omega
      rw [← hlast] at h
      obtain ⟨n, e, hhit, hsearch⟩ := ih (used + 1) h
      refine ⟨n, e, hhit, ?_⟩
      rw [Interval.coarsest, hn]
      exact hsearch

def IsDigits (ds : List Char) : Prop := ds ≠ [] ∧ ∀ c ∈ ds, c.isDigit = true

def Shortest.Proper (s : Shortest) : Prop := IsDigits s.digits ∧ s.digits.head? ≠ some '0'

theorem significant_digits {n : Nat} (hn : 0 < n) :
    IsDigits (significantDigits n) ∧ (significantDigits n).head? ≠ some '0' := by
  change IsDigits ((numeral n).rdropWhile (· == '0')) ∧
    ((numeral n).rdropWhile (· == '0')).head? ≠ some '0'
  obtain ⟨zeros, hzeros⟩ := List.rdropWhile_prefix (· == '0') (numeral n)
  have hhead := numeral_head hn
  have hne : (numeral n).rdropWhile (· == '0') ≠ [] := by
    intro hnil
    rw [List.rdropWhile_eq_nil_iff] at hnil
    obtain ⟨c, rest, hc⟩ := List.exists_cons_of_ne_nil (numeral_ne_nil n)
    have hzero : c = '0' := by simpa using hnil c (by rw [hc]; exact List.mem_cons_self)
    exact hhead (by rw [hc, hzero]; rfl)
  refine ⟨⟨hne, ?_⟩, ?_⟩
  · intro c hc
    exact numeral_digits n c (by rw [← hzeros]; exact List.mem_append_left _ hc)
  · rwa [← hzeros, List.head?_append_of_ne_nil _ hne] at hhead

theorem shortest_of_hit {tie : Tie} {m : Nat} {q point e : Int} {n : Nat}
    (hpoint : (Interval.of m q).point = point)
    (h : (Interval.of m q).coarsest tie point 17 1 = (n, e)) :
    shortest tie m q = { digits := significantDigits n, point := (numeral n).length + e } := by
  simp only [shortest]
  rw [hpoint, h]

theorem shortest_proper (tie : Tie) {m : Nat} {q : Int} (hm : 0 < m) (hbound : m < 2 * hiddenBit)
    (hq : leastExponent ≤ q) : (shortest tie m q).Proper := by
  have hlast := seventeen_digits_suffice tie hm hbound hq
  obtain ⟨n, e, hhit, hsearch⟩ := coarsest_hit 16 1 hlast
  have hlow : 0 < (Interval.of m q).low := by
    apply Nat.mul_pos
    · split <;> omega
    · exact Nat.pow_pos (by decide)
  have hn := onGrid_pos hlow hhit
  rw [shortest_of_hit rfl hsearch]
  exact significant_digits hn

end DocQuery.Number
