import DocQuery.Proofs.FloatNumbers
import Mathlib

/-! # The float nearest to an integer

The significand of an integer is shifted to 53 bits, and two bits tell of the part that is lost.
They decide the rounding. The rounded multiple of the unit is nearer than every other one, and
floats that are no multiples of it are too small to be nearer. -/

namespace DocQuery.Number

open Float.Model Float.Model.UnpackedFloat

def significand (x : Float) : ℕ :=
  match x.toModel.unpack with
  | .finite _ m _ _ => m
  | _ => 0

/-- The float `x`, which stands for `v`, is the nearest one to `n`. -/
structure Nearest (n : ℤ) (x : Float) (v : ℚ) : Prop where
  amount : amount? x = some v
  nearest : ∀ {y w}, amount? y = some w → |v - n| ≤ |w - n|
  even : ∀ {y w}, amount? y = some w → w ≠ v → |w - n| = |v - n| → Even (significand x)
  zero : n = 0 → x.toModel.unpack = .zero .positive

/-! ### Rounding to an integer -/

structure Rounds (r : ℕ) (v : ℚ) : Prop where
  close : |(r : ℚ) - v| ≤ 1 / 2
  even : |(r : ℚ) - v| = 1 / 2 → Even r

/-- What the two bits tell of the part behind the point. -/
def Behind (half rest : Bool) (f : ℚ) : Prop :=
  match half, rest with
  | false, false => f = 0
  | false, true => 0 < f ∧ f < 1 / 2
  | true, false => f = 1 / 2
  | true, true => 1 / 2 < f ∧ f < 1

theorem Behind.even {half rest : Bool} {f : ℚ} (h : Behind half rest f) :
    Behind false (half || rest) (f / 2) := by
  cases half <;> cases rest <;>
    simp only [Behind, Bool.or_self, Bool.or_true, Bool.or_false] at h ⊢
  · linarith
  all_goals exact ⟨by linarith, by linarith⟩

theorem Behind.odd {half rest : Bool} {f : ℚ} (h : Behind half rest f) :
    Behind true (half || rest) ((1 + f) / 2) := by
  cases half <;> cases rest <;>
    simp only [Behind, Bool.or_self, Bool.or_true, Bool.or_false] at h ⊢
  · linarith
  all_goals exact ⟨by linarith, by linarith⟩

theorem Behind.shiftRightOne {em : ExtendedMantissa} {v : ℚ}
    (h : Behind em.roundBit em.stickyBit (v - em.mantissa)) :
    Behind em.shiftRightOne.roundBit em.shiftRightOne.stickyBit
      (v / 2 - em.shiftRightOne.mantissa) := by
  obtain ⟨m, half, rest⟩ := em
  obtain ⟨d, hd | hd⟩ := Nat.even_or_odd' m
  · have hdiv : m / 2 = d := by omega
    have hmod : (m % 2 != 0) = false := by simp [hd]
    have hpart : v / 2 - (d : ℚ) = (v - m) / 2 := by
      rw [hd]
      push_cast
      ring
    simp only [ExtendedMantissa.shiftRightOne, hdiv, hmod, hpart]
    exact h.even
  · have hdiv : m / 2 = d := by omega
    have hmod : (m % 2 != 0) = true := by simp [hd]
    have hpart : v / 2 - (d : ℚ) = (1 + (v - m)) / 2 := by
      rw [hd]
      push_cast
      ring
    simp only [ExtendedMantissa.shiftRightOne, hdiv, hmod, hpart]
    exact h.odd

theorem behind_shift (m k : ℕ) :
    let em := ExtendedMantissa.ofMantissaAndAccuracy m .exact >>> k
    Behind em.roundBit em.stickyBit (m / 2 ^ k - em.mantissa) := by
  change let em := k.repeat ExtendedMantissa.shiftRightOne ⟨m, false, false⟩
    Behind em.roundBit em.stickyBit (m / 2 ^ k - em.mantissa)
  induction k with
  | zero => simp [Nat.repeat, Behind]
  | succ k ih =>
    rw [pow_succ, ← div_div]
    exact Behind.shiftRightOne ih

theorem Behind.rounds {em : ExtendedMantissa} {v : ℚ}
    (h : Behind em.roundBit em.stickyBit (v - em.mantissa)) : Rounds em.roundedMantissa v := by
  obtain ⟨m, half, rest⟩ := em
  cases half <;> cases rest <;>
    simp only [Behind, ExtendedMantissa.roundedMantissa, ExtendedMantissa.accuracy,
      Accuracy.roundToNearestEven] at h ⊢
  · have hv : (m : ℚ) - v = 0 := by linarith
    exact ⟨by rw [hv]; norm_num, by rw [hv]; norm_num⟩
  · have hv : |(m : ℚ) - v| < 1 / 2 := by
      rw [abs_lt]
      exact ⟨by linarith, by linarith⟩
    exact ⟨hv.le, fun h => absurd h hv.ne⟩
  · have heven : Even (m + m % 2) := by
      rw [Nat.even_iff]
      omega
    refine ⟨?_, fun _ => heven⟩
    rcases Nat.mod_two_eq_zero_or_one m with hm | hm <;>
    · rw [hm, abs_le]
      push_cast
      exact ⟨by linarith, by linarith⟩
  · have hv : |((m + 1 : ℕ) : ℚ) - v| < 1 / 2 := by
      rw [abs_lt]
      push_cast
      exact ⟨by linarith, by linarith⟩
    exact ⟨hv.le, fun h => absurd h hv.ne⟩

theorem Rounds.bounds {r : ℕ} {v : ℚ} (h : Rounds r v) (hlow : (hiddenBit : ℚ) ≤ v)
    (hhigh : v < 2 * hiddenBit) : hiddenBit ≤ r ∧ r ≤ 2 * hiddenBit := by
  have hclose := abs_le.mp h.close
  constructor
  · have : (hiddenBit : ℚ) < r + 1 := by linarith
    have : hiddenBit < r + 1 := by exact_mod_cast this
    omega
  · have : (r : ℚ) < 2 * hiddenBit + 1 := by linarith
    have : r < 2 * hiddenBit + 1 := by exact_mod_cast this
    omega

theorem Rounds.nearest {r : ℕ} {v : ℚ} (h : Rounds r v) (l : ℤ) :
    |(r : ℚ) - v| ≤ |(l : ℚ) - v| ∧ (l ≠ r → |(l : ℚ) - v| = |(r : ℚ) - v| → Even r) := by
  by_cases hl : l = r
  · subst hl
    exact ⟨le_rfl, fun h => absurd rfl h⟩
  · have hone : (1 : ℚ) ≤ |(l : ℚ) - r| := by
      have : 1 ≤ |l - (r : ℤ)| := Int.one_le_abs (sub_ne_zero.mpr hl)
      exact_mod_cast this
    have htriangle := abs_sub_le (l : ℚ) v r
    rw [abs_sub_comm v] at htriangle
    have hclose := h.close
    refine ⟨by linarith, ?_⟩
    intro _ htie
    exact h.even (le_antisymm hclose (by linarith))

theorem Rounds.scaled {r : ℕ} {v u : ℚ} (hu : 0 < u) (h : Rounds r (v / u)) (l : ℤ) :
    |r * u - v| ≤ |l * u - v| ∧ (l ≠ r → |l * u - v| = |r * u - v| → Even r) := by
  have hscale : ∀ a : ℚ, |a * u - v| = |a - v / u| * u := by
    intro a
    rw [← abs_of_pos hu, ← abs_mul, abs_of_pos hu, sub_mul, div_mul_cancel₀ _ hu.ne']
  obtain ⟨hnear, heven⟩ := h.nearest l
  rw [hscale, hscale]
  refine ⟨mul_le_mul_of_nonneg_right hnear hu.le, ?_⟩
  intro hl htie
  exact heven hl (mul_right_cancel₀ hu.ne' htie)

/-! ### Shifting to 53 bits -/

structure Normal (m : ℕ) (e : ℤ) : Prop where
  low : hiddenBit ≤ m
  high : m < 2 * hiddenBit
  least : -1074 ≤ e
  greatest : e ≤ 971

theorem log2_eq {m : ℕ} (hlow : hiddenBit ≤ m) (hhigh : m < 2 * hiddenBit) : m.log2 = 52 :=
  (Nat.log2_eq_iff (by unfold hiddenBit at hlow; omega)).mpr ⟨hlow, hhigh⟩

theorem target_eq {m : ℕ} {e : ℤ} (h : -1074 ≤ (m.log2 : ℤ) + e - 52) :
    Format.binary64.targetExponent (totalExponent m e) = m.log2 + e - 52 := by
  have hleast : Format.binary64.minExponent = -1074 := rfl
  have hbits : (Format.binary64.mantissaBits : ℤ) = 53 := rfl
  rw [Format.targetExponent, totalExponent, hleast, hbits, max_eq_left (by omega)]
  omega

theorem shift_full {m : ℕ} {e : ℤ} (hm : m.log2 = 52) (he : -1074 ≤ e) :
    shiftToTargetExponent Format.binary64 m e .exact = (⟨m, false, false⟩, e) := by
  have hk : (Format.binary64.targetExponent (totalExponent m e) - e).toNat = 0 := by
    rw [target_eq (by omega)]
    omega
  unfold shiftToTargetExponent shiftToExponent
  simp only [hk, Nat.cast_zero, add_zero]
  rfl

theorem shift_carry {e : ℤ} (he : -1074 ≤ e) :
    shiftToTargetExponent Format.binary64 (2 * hiddenBit) e .exact =
      (⟨hiddenBit, false, false⟩, e + 1) := by
  have hlog : (2 * hiddenBit).log2 = 53 := Nat.log2_two_pow (n := 53)
  have hk : (Format.binary64.targetExponent (totalExponent (2 * hiddenBit) e) - e).toNat = 1 := by
    rw [target_eq (by omega)]
    omega
  unfold shiftToTargetExponent shiftToExponent
  simp only [hk]
  rfl

/-- The rounding has at most one bit too many, and then the shift loses nothing. -/
theorem shift_exact {r : ℕ} {e : ℤ} (hlow : hiddenBit ≤ r) (hhigh : r ≤ 2 * hiddenBit)
    (he : -1074 ≤ e) (hle : e ≤ 970) :
    ∃ m q, shiftToTargetExponent Format.binary64 r e .exact = (⟨m, false, false⟩, q) ∧
      Normal m q ∧ (m : ℚ) * 2 ^ q = r * 2 ^ e ∧ (Even r → Even m) := by
  rcases hhigh.lt_or_eq with hlt | rfl
  · exact ⟨r, e, shift_full (log2_eq hlow hlt) he, ⟨hlow, hlt, he, by omega⟩, rfl, id⟩
  · refine ⟨hiddenBit, e + 1, shift_carry he, ⟨le_rfl, by decide, by omega, by omega⟩, ?_, ?_⟩
    · rw [zpow_add_one₀ (by norm_num)]
      push_cast
      ring
    · intro _
      decide

/-- `m * 2 ^ q` is the multiple of `2 ^ u` nearest to `v`. -/
structure Rounded (v : ℚ) (u : ℤ) (m : ℕ) (q : ℤ) : Prop where
  normal : Normal m q
  multiple : ∃ r : ℕ, (m : ℚ) * 2 ^ q = r * 2 ^ u ∧ Rounds r (v / 2 ^ u) ∧ (Even r → Even m)

theorem unit_bounds {n : ℕ} (hn : n ≠ 0) :
    (hiddenBit : ℚ) ≤ n / 2 ^ ((n.log2 : ℤ) - 52) ∧
      (n : ℚ) / 2 ^ ((n.log2 : ℤ) - 52) < 2 * hiddenBit := by
  have hlow : ((2 ^ n.log2 : ℕ) : ℚ) ≤ n := by exact_mod_cast Nat.log2_self_le hn
  have hhigh : (n : ℚ) < ((2 ^ (n.log2 + 1) : ℕ) : ℚ) := by exact_mod_cast Nat.lt_log2_self
  have hunit : (0 : ℚ) < 2 ^ ((n.log2 : ℤ) - 52) := by positivity
  have hpow : (hiddenBit : ℚ) * 2 ^ ((n.log2 : ℤ) - 52) = ((2 ^ n.log2 : ℕ) : ℚ) := by
    have hbit : (hiddenBit : ℚ) = 4503599627370496 := by norm_num [hiddenBit]
    rw [zpow_sub₀ (by norm_num), zpow_natCast, hbit]
    push_cast
    field_simp
  constructor
  · rw [le_div_iff₀ hunit, hpow]
    exact hlow
  · rw [div_lt_iff₀ hunit, mul_assoc, hpow]
    rw [pow_succ] at hhigh
    push_cast at hhigh ⊢
    linarith

theorem roundWithAccuracy_rounded (s : Sign) {n : ℕ} {e : ℤ} (hlog : 52 ≤ n.log2) (he : -1074 ≤ e)
    (hhigh : e + n.log2 ≤ 1000) :
    ∃ m q h, roundWithAccuracy Format.binary64 s n e .exact = .finite s m q h ∧
      Rounded (n * 2 ^ e) (n.log2 + e - 52) m q := by
  have hn : n ≠ 0 := by
    rintro rfl
    simp at hlog
  obtain ⟨k, hk⟩ : ∃ k, n.log2 = 52 + k := ⟨n.log2 - 52, by omega⟩
  have hshift : (Format.binary64.targetExponent (totalExponent n e) - e).toNat = k := by
    rw [target_eq (by omega)]
    omega
  have hfirst : shiftToTargetExponent Format.binary64 n e .exact =
      (ExtendedMantissa.ofMantissaAndAccuracy n .exact >>> k, e + k) := by
    simp only [shiftToTargetExponent, shiftToExponent, hshift]
  have hrounds := (behind_shift n k).rounds
  have hbounds := unit_bounds hn
  have hunit : (n.log2 : ℤ) - 52 = k := by omega
  rw [hunit, zpow_natCast] at hbounds
  obtain ⟨hlow, hle⟩ := hrounds.bounds hbounds.1 hbounds.2
  obtain ⟨m, q, hexact, hnormal, hvalue, heven⟩ :=
    shift_exact (e := e + k) hlow hle (by omega) (by omega)
  have hpos : 0 < m := lt_of_lt_of_le (by decide) hnormal.low
  have hscale : (n.log2 : ℤ) + e - 52 = e + k := by omega
  have hlost : (n : ℚ) * 2 ^ e / 2 ^ (e + (k : ℤ)) = n / 2 ^ k := by
    rw [zpow_add₀ (by norm_num), zpow_natCast]
    field_simp
  refine ⟨m, q, hpos, ?_, hnormal, _, ?_, ?_, heven⟩
  · rw [roundWithAccuracy, hfirst]
    dsimp only
    rw [hexact]
    exact dif_neg hpos.ne'
  · rw [hscale]
    exact hvalue
  · rw [hscale, hlost]
    exact hrounds

theorem log2_mul_two_pow {n : ℕ} (hn : n ≠ 0) (k : ℕ) : (n * 2 ^ k).log2 = n.log2 + k := by
  induction k with
  | zero => simp
  | succ k ih =>
    have hne : n * 2 ^ k ≠ 0 := by positivity
    rw [pow_succ, ← mul_assoc, mul_comm, Nat.log2_two_mul hne, ih, Nat.add_assoc]

theorem round_rounded (s : Sign) {n : ℕ} (hn : n ≠ 0) (hlog : n.log2 ≤ 64) :
    ∃ m q h, UnpackedFloat.round Format.binary64 s n 0 = .finite s m q h ∧
      Rounded n (n.log2 - 52) m q := by
  have hwiden : ∀ k : ℕ, (0 - ((n.log2 : ℤ) - 52)).toNat = k →
      UnpackedFloat.round Format.binary64 s n 0 =
        roundWithAccuracy Format.binary64 s (n * 2 ^ k) (-k) .exact := by
    intro k hk
    rw [UnpackedFloat.round, target_eq (by omega)]
    rw [add_zero, decreaseExponent, hk, Nat.shiftLeft_eq, zero_sub]
  generalize hk : (0 - ((n.log2 : ℤ) - 52)).toNat = k at hwiden
  have hlog' := log2_mul_two_pow hn k
  obtain ⟨m, q, h, hround, hrounded⟩ :=
    roundWithAccuracy_rounded s (n := n * 2 ^ k) (e := -k) (by omega) (by omega) (by omega)
  have hvalue : ((n * 2 ^ k : ℕ) : ℚ) * 2 ^ (-(k : ℤ)) = n := by
    rw [zpow_neg, zpow_natCast]
    push_cast
    field_simp
  have hunit : ((n * 2 ^ k).log2 : ℤ) + -k - 52 = n.log2 - 52 := by omega
  rw [hvalue, hunit] at hrounded
  exact ⟨m, q, h, (hwiden k rfl).trans hround, hrounded⟩

/-! ### Packing -/

theorem unpack_pack (s : Sign) {m : ℕ} {q : ℤ} (h : 0 < m) (hn : Normal m q) :
    UnpackedFloat.unpack Format.binary64 (UnpackedFloat.pack Format.binary64 (.finite s m q h)) =
      .finite s m q h := by
  obtain ⟨hlow, hhigh, hleast, hgreatest⟩ := hn
  have hbias : (Format.binary64.exponentBias : ℤ) = 1023 := rfl
  have hpack : UnpackedFloat.pack Format.binary64 (.finite s m q h) =
      packComponents Format.binary64 s (BitVec.ofNat 11 (q + 1023 + 52).toNat)
        (BitVec.ofNat 52 m) := by
    rw [UnpackedFloat.pack]
    simp only [log2_eq hlow hhigh, hbias]
    rw [if_neg (by simp; omega)]
    rfl
  have hfield : (BitVec.ofNat 11 (q + 1023 + 52).toNat).toNat = (q + 1023 + 52).toNat := by
    rw [BitVec.toNat_ofNat, Nat.mod_eq_of_lt (by omega)]
  have hne : ∀ b : BitVec 11, (q + 1023 + 52).toNat ≠ b.toNat →
      BitVec.ofNat 11 (q + 1023 + 52).toNat ≠ b := by
    intro b hb heq
    rw [← heq, hfield] at hb
    exact hb rfl
  have hones := hne (-1#11) (by change _ ≠ 2047; omega)
  have hzeros := hne 0#11 (by change _ ≠ 0; omega)
  have hmantissa : (1#1 ++ BitVec.ofNat 52 m).toNat = m := by
    rw [implicit_toNat, BitVec.toNat_ofNat]
    unfold hiddenBit at *
    omega
  rw [hpack, UnpackedFloat.unpack]
  simp only [unpackMantissa_packComponents, unpackExponent_packComponents,
    unpackSign_packComponents, Sign.ofBitVec_toBitVec]
  rw [if_neg hones, if_neg hzeros]
  simp only [hmantissa, hfield, hbias, finite.injEq, true_and]
  omega

/-! ### Nearest among all floats -/

theorem amount_shape {y : Float} {w : ℚ} (h : amount? y = some w) :
    ∃ l q : ℤ, w = l * 2 ^ q ∧ |l| < 2 * hiddenBit := by
  have hparts := ofFloat_unpack y
  unfold amount? at h
  cases hy : y.toModel.unpack with
  | notANumber => simp [hy] at h
  | infinity s => simp [hy] at h
  | zero s =>
    simp only [hy, Option.some.injEq] at h
    exact ⟨0, 0, by simp [← h], by decide⟩
  | finite s m e hm =>
    simp only [hy, Option.some.injEq] at h
    rw [hy] at hparts
    have hbound := (ofFloat_bounds hparts).1
    have habs : |s.apply (m : ℤ)| = m := by cases s <;> simp [Sign.apply]
    refine ⟨s.apply m, e, h.symm, ?_⟩
    rw [habs]
    exact_mod_cast hbound

theorem Rounded.nearest {n m : ℕ} {e : ℤ} (hn : n ≠ 0) (h : Rounded n (n.log2 - 52) m e)
    {l q : ℤ} (hl : |l| < 2 * hiddenBit) :
    |(m : ℚ) * 2 ^ e - n| ≤ |(l : ℚ) * 2 ^ q - n| ∧
      ((l : ℚ) * 2 ^ q ≠ m * 2 ^ e → |(l : ℚ) * 2 ^ q - n| = |(m : ℚ) * 2 ^ e - n| → Even m) := by
  obtain ⟨r, hvalue, hrounds, heven⟩ := h.multiple
  have hlow := (unit_bounds hn).1
  generalize (n.log2 : ℤ) - 52 = u at *
  have hunit : (0 : ℚ) < 2 ^ u := by positivity
  rw [le_div_iff₀ hunit] at hlow
  rw [hvalue]
  rcases le_or_gt u q with hq | hq
  · obtain ⟨j, hj⟩ := Int.eq_ofNat_of_zero_le (sub_nonneg.mpr hq)
    have hmultiple : (l : ℚ) * 2 ^ q = ((l * 2 ^ j : ℤ) : ℚ) * 2 ^ u := by
      have hsum : q = j + u := by omega
      rw [hsum, zpow_add₀ (by norm_num), zpow_natCast]
      push_cast
      ring
    obtain ⟨hnear, htie⟩ := hrounds.scaled hunit (l * 2 ^ j)
    rw [hmultiple]
    refine ⟨hnear, ?_⟩
    intro hne heq
    exact heven (htie (fun h => hne (by rw [h]; norm_cast)) heq)
  · have hsmall : (l : ℚ) * 2 ^ q < hiddenBit * 2 ^ u := by
      have hl' : (l : ℚ) < 2 * hiddenBit := by exact_mod_cast lt_of_le_of_lt (le_abs_self l) hl
      calc (l : ℚ) * 2 ^ q < 2 * hiddenBit * 2 ^ q := mul_lt_mul_of_pos_right hl' (by positivity)
        _ = hiddenBit * 2 ^ (q + 1) := by rw [zpow_add_one₀ (by norm_num)]; ring
        _ ≤ hiddenBit * 2 ^ u :=
          mul_le_mul_of_nonneg_left (zpow_le_zpow_right₀ (by norm_num) (by omega)) (by positivity)
    have hnear := (hrounds.scaled hunit hiddenBit).1
    rw [Int.cast_natCast, abs_sub_comm ((hiddenBit : ℚ) * _), abs_of_nonneg (sub_nonneg.mpr hlow)]
      at hnear
    have hfar : |(l : ℚ) * 2 ^ q - n| = n - l * 2 ^ q := by
      rw [abs_sub_comm, abs_of_nonneg (by linarith)]
    rw [hfar]
    refine ⟨by linarith, ?_⟩
    intro _ htie
    linarith

theorem abs_apply (s : Sign) (l : ℤ) : |s.apply l| = |l| := by
  cases s <;> simp [Sign.apply]

theorem apply_apply (s : Sign) (l : ℤ) : s.apply (s.apply l) = l := by
  cases s <;> simp [Sign.apply]

theorem distance_apply (s : Sign) (a b : ℤ) (u : ℚ) :
    |((s.apply a : ℤ) : ℚ) * u - (s.apply b : ℤ)| = |(a : ℚ) * u - b| := by
  cases s with
  | positive => rfl
  | negative =>
    rw [← abs_neg]
    congr 1
    simp only [Sign.apply]
    push_cast
    ring

theorem Rounded.nearest_signed {n m : ℕ} {e : ℤ} (s : Sign) (hn : n ≠ 0)
    (h : Rounded n (n.log2 - 52) m e) {y : Float} {w : ℚ} (hw : amount? y = some w) :
    |((s.apply m : ℤ) : ℚ) * 2 ^ e - (s.apply n : ℤ)| ≤ |w - (s.apply n : ℤ)| ∧
      (w ≠ (s.apply m : ℤ) * 2 ^ e →
        |w - (s.apply n : ℤ)| = |((s.apply m : ℤ) : ℚ) * 2 ^ e - (s.apply n : ℤ)| → Even m) := by
  obtain ⟨l, q, hvalue, hl⟩ := amount_shape hw
  have hturned : w = ((s.apply (s.apply l) : ℤ) : ℚ) * 2 ^ q := by rw [apply_apply, hvalue]
  obtain ⟨hnear, heven⟩ := h.nearest hn (q := q) ((abs_apply s l).trans_lt hl)
  rw [hturned, distance_apply, distance_apply, Int.cast_natCast, Int.cast_natCast]
  refine ⟨hnear, ?_⟩
  intro hne
  refine heven ?_
  intro heq
  apply hne
  cases s with
  | positive => exact heq
  | negative =>
    simp only [Sign.apply] at heq ⊢
    push_cast at heq ⊢
    linarith

theorem ofInt_eq_round {n : ℤ} (hn : n ≠ 0) :
    ∃ (s : Sign) (m : ℕ), m ≠ 0 ∧ n.natAbs = m ∧ n = s.apply m ∧
      UnpackedFloat.ofInt Format.binary64 n = UnpackedFloat.round Format.binary64 s m 0 := by
  refine ⟨if n < 0 then .negative else .positive, n.natAbs, Int.natAbs_ne_zero.mpr hn, rfl, ?_⟩
  rcases lt_or_gt_of_ne hn with h | h
  · have habs : (-n).toNat = n.natAbs := by omega
    rw [if_pos h, UnpackedFloat.ofInt, UnpackedFloat.normalize, Int.compare_eq_lt.mpr h, ← habs]
    exact ⟨by simp only [Sign.apply]; omega, rfl⟩
  · have habs : n.toNat = n.natAbs := by omega
    rw [if_neg (by omega), UnpackedFloat.ofInt, UnpackedFloat.normalize, Int.compare_eq_gt.mpr h,
      ← habs]
    exact ⟨by simp only [Sign.apply]; omega, rfl⟩

/-- An integer of up to 65 bits becomes the nearest float, of two of them the one with the even
significand. Zero becomes the zero without a minus. -/
theorem floatOfInt_nearest {n : ℤ} (hbits : n.natAbs.log2 ≤ 64) :
    ∃ v, Nearest n (floatOfInt n) v := by
  have hunpack : (floatOfInt n).toModel.unpack = UnpackedFloat.unpack Format.binary64
      (UnpackedFloat.pack Format.binary64 (UnpackedFloat.ofInt Format.binary64 n)) := rfl
  by_cases hzero : n = 0
  · subst hzero
    have hplus : (floatOfInt 0).toModel.unpack = .zero .positive := hunpack.trans rfl
    refine ⟨0, by rw [amount?, hplus], ?_, ?_, fun _ => hplus⟩
    · intro y w _
      simp
    · intro y w _ hne htie
      simp at htie
      exact absurd htie hne
  · obtain ⟨s, m, hm, habs, happly, hround⟩ := ofInt_eq_round hzero
    rw [habs] at hbits
    obtain ⟨f, e, hpos, hfinite, hrounded⟩ := round_rounded s hm hbits
    rw [hround, hfinite, unpack_pack s hpos hrounded.normal] at hunpack
    refine ⟨(s.apply f : ℤ) * 2 ^ e, by rw [amount?, hunpack], ?_, ?_, fun h => absurd h hzero⟩
    · intro y w hw
      rw [happly]
      exact (hrounded.nearest_signed s hm hw).1
    · intro y w hw hne htie
      rw [happly] at htie
      rw [significand, hunpack]
      exact (hrounded.nearest_signed s hm hw).2 hne htie

end DocQuery.Number
