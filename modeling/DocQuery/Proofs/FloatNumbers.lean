import DocQuery.Number.Binary
import Mathlib.Algebra.Order.Field.Power
import Mathlib.Data.Rat.Floor
import Mathlib.Tactic.Linarith
import Mathlib.Tactic.NormNum
import Mathlib.Tactic.Positivity

/-! # Floats as numbers

A finite float stands for a rational number. The parts that the bits of a float are cut into are
those of this number, and a float has exactly one integer, the one that `truncate` gives. -/

namespace DocQuery.Number

open Float.Model Float.Model.UnpackedFloat

/-- The number that a finite float stands for. -/
def amount? (x : Float) : Option ℚ :=
  match x.toModel.unpack with
  | .zero _ => some 0
  | .finite sign m e _ => some ((sign.apply m : ℤ) * (2 : ℚ) ^ e)
  | .infinity _ | .notANumber => none

def towardZero (v : ℚ) : ℤ := if 0 ≤ v then ⌊v⌋ else ⌈v⌉

/-- The integer of a float: its number without the fraction, if that has 64 bits, and otherwise the
last integer on that side. Not-a-number has the integer zero. -/
inductive Truncates (x : Float) : Int64 → Prop where
  | fits {v : ℚ} {n : Int64} : amount? x = some v → n.toInt = towardZero v → Truncates x n
  | above {v : ℚ} : amount? x = some v → Int64.maxValue.toInt < towardZero v →
      Truncates x Int64.maxValue
  | below {v : ℚ} : amount? x = some v → towardZero v < Int64.minValue.toInt →
      Truncates x Int64.minValue
  | infinite : x.toModel.unpack = .infinity .positive → Truncates x Int64.maxValue
  | negativeInfinite : x.toModel.unpack = .infinity .negative → Truncates x Int64.minValue
  | notNumber : x.toModel.unpack = .notANumber → Truncates x 0

theorem exponent_toNat (b : BitVec 64) :
    (@unpackExponent Format.binary64 b).toNat = b.toNat / hiddenBit % exponentFields := by
  simp [unpackExponent, BitVec.extractLsb_toNat, Nat.shiftRight_eq_div_pow, hiddenBit,
    exponentFields]

theorem fraction_toNat (b : BitVec 64) :
    (@unpackMantissa Format.binary64 b).toNat = b.toNat % hiddenBit := by
  simp [unpackMantissa, BitVec.extractLsb_toNat, hiddenBit]

theorem implicit_toNat (f : BitVec 52) : (1#1 ++ f).toNat = hiddenBit + f.toNat := by
  rw [BitVec.toNat_append, ← Nat.shiftLeft_add_eq_or_of_lt f.isLt]
  rfl

def minus : Sign → Bool
  | .negative => true
  | .positive => false

theorem minus_sign (b : BitVec 64) :
    minus (Sign.ofBitVec (@unpackSign Format.binary64 b)) = decide (signBit ≤ b.toNat) := by
  have hb : b.toNat < 18446744073709551616 := b.isLt
  have hsign : (@unpackSign Format.binary64 b).toNat = b.toNat / signBit := by
    change (b.toNat >>> 63) % 2 = _
    rw [Nat.shiftRight_eq_div_pow, Nat.mod_eq_of_lt (by omega)]
    rfl
  unfold signBit at *
  by_cases hneg : 0x8000000000000000 ≤ b.toNat
  · have hone : @unpackSign Format.binary64 b ≠ 0#1 := by
      intro h
      rw [h, BitVec.toNat_zero] at hsign
      omega
    rw [decide_eq_true hneg, Sign.ofBitVec, if_neg hone]
    rfl
  · have hzero : @unpackSign Format.binary64 b = 0#1 := by
      apply BitVec.eq_of_toNat_eq
      rw [hsign, BitVec.toNat_zero]
      omega
    rw [decide_eq_false hneg, Sign.ofBitVec, if_pos hzero]
    rfl

def Binary.ofUnpacked : UnpackedFloat → Binary
  | .notANumber => .nan
  | .infinity s => .infinite (minus s)
  | .zero s => .finite (minus s) 0 leastExponent
  | .finite s m e _ => .finite (minus s) m e

theorem ofFloat_unpack (x : Float) : Binary.ofFloat x = .ofUnpacked x.toModel.unpack := by
  change Binary.ofFloat x =
    .ofUnpacked (UnpackedFloat.unpack Format.binary64 x.toModel.toBits.toBitVec)
  have hbits : x.toBits.toNat = x.toModel.toBits.toBitVec.toNat := rfl
  simp only [Binary.ofFloat, hbits]
  generalize x.toModel.toBits.toBitVec = b
  have hones : @unpackExponent Format.binary64 b = -1#_ ↔
      b.toNat / hiddenBit % exponentFields = exponentFields - 1 := by
    rw [← BitVec.toNat_inj, exponent_toNat]
    rfl
  have hzeros : @unpackExponent Format.binary64 b = 0#_ ↔
      b.toNat / hiddenBit % exponentFields = 0 := by
    rw [← BitVec.toNat_inj, exponent_toNat]
    rfl
  have hnone : @unpackMantissa Format.binary64 b = 0#_ ↔ b.toNat % hiddenBit = 0 := by
    rw [← BitVec.toNat_inj, fraction_toNat]
    rfl
  have hbias : (Format.binary64.exponentBias : ℤ) = 1023 := rfl
  rw [← minus_sign]
  delta UnpackedFloat.unpack
  dsimp only
  by_cases hlast : b.toNat / hiddenBit % exponentFields = exponentFields - 1
  · rw [if_pos hlast, if_pos (hones.mpr hlast)]
    by_cases hempty : b.toNat % hiddenBit = 0
    · rw [if_pos hempty, if_pos (hnone.mpr hempty)]
      rfl
    · rw [if_neg hempty, if_neg (mt hnone.mp hempty)]
      rfl
  rw [if_neg hlast, if_neg (mt hones.mp hlast)]
  by_cases hleast : b.toNat / hiddenBit % exponentFields = 0
  · rw [if_pos hleast, if_pos (hzeros.mpr hleast)]
    by_cases hempty : b.toNat % hiddenBit = 0
    · rw [dif_pos (hnone.mpr hempty), hempty]
      rfl
    · rw [dif_neg (mt hnone.mp hempty)]
      dsimp only [Binary.ofUnpacked]
      rw [fraction_toNat, exponent_toNat, hleast]
      rfl
  · rw [if_neg hleast, if_neg (mt hzeros.mp hleast)]
    dsimp only [Binary.ofUnpacked]
    rw [exponent_toNat, hbias, implicit_toNat, fraction_toNat, Binary.finite.injEq]
    refine ⟨rfl, rfl, ?_⟩
    unfold leastExponent
    omega

theorem ofFloat_finite {x : Float} (h : x.isFinite = true) :
    ∃ negative m q, Binary.ofFloat x = .finite negative m q := by
  change x.toModel.unpack.isFinite = true at h
  rw [ofFloat_unpack]
  cases hx : x.toModel.unpack with
  | zero s => exact ⟨_, _, _, rfl⟩
  | finite s m e hm => exact ⟨_, _, _, rfl⟩
  | infinity s =>
    rw [hx] at h
    cases h
  | notANumber =>
    rw [hx] at h
    cases h

theorem ofFloat_bounds {x : Float} {negative : Bool} {m : Nat} {q : Int}
    (h : Binary.ofFloat x = .finite negative m q) : m < 2 * hiddenBit ∧ leastExponent ≤ q := by
  have hfraction : x.toBits.toNat % hiddenBit < hiddenBit := Nat.mod_lt _ (by decide)
  simp only [Binary.ofFloat] at h
  split at h
  · split at h <;> cases h
  · split at h
    · cases h
      exact ⟨by omega, le_refl _⟩
    · next hfield =>
      cases h
      exact ⟨by omega, by omega⟩

theorem wholePart_eq (m : ℕ) (q : ℤ) : (wholePart m q : ℤ) = ⌊(m : ℚ) * 2 ^ q⌋ := by
  have hfraction : (m : ℚ) * 2 ^ q =
      ((m * Nat.pow 2 q.toNat : ℕ) : ℚ) / ((Nat.pow 2 (-q).toNat : ℕ) : ℚ) := by
    have hq : q = (q.toNat : ℤ) - ((-q).toNat : ℤ) := by omega
    simp only [Nat.pow_eq]
    push_cast
    conv_lhs => rw [hq]
    rw [zpow_sub₀ (by norm_num), zpow_natCast, zpow_natCast, mul_div_assoc]
  rw [hfraction, Rat.floor_natCast_div_natCast]
  rfl

theorem towardZero_neg (v : ℚ) : towardZero (-v) = -towardZero v := by
  unfold towardZero
  rcases lt_trichotomy v 0 with hv | rfl | hv
  · rw [if_pos (by linarith), if_neg (by linarith), Int.floor_neg]
  · simp
  · rw [if_neg (by linarith), if_pos hv.le, Int.ceil_neg]

theorem towardZero_apply (s : Sign) (m : ℕ) (q : ℤ) :
    towardZero ((s.apply m : ℤ) * (2 : ℚ) ^ q) =
      if minus s then -(wholePart m q : ℤ) else wholePart m q := by
  have hpos : towardZero ((m : ℚ) * 2 ^ q) = wholePart m q := by
    rw [towardZero, if_pos (by positivity), wholePart_eq]
  cases s with
  | positive => simpa [Sign.apply, minus] using hpos
  | negative => simp [Sign.apply, minus, towardZero_neg, hpos]

theorem clampInt64_above {n : ℤ} (h : Int64.maxValue.toInt < n) : clampInt64 n = Int64.maxValue := by
  have hrange : Int64.minValue.toInt ≤ Int64.maxValue.toInt := by decide
  rw [clampInt64, min_eq_left h.le, max_eq_right hrange, Int64.ofInt_toInt]

theorem clampInt64_below {n : ℤ} (h : n < Int64.minValue.toInt) : clampInt64 n = Int64.minValue := by
  have hrange : Int64.minValue.toInt ≤ Int64.maxValue.toInt := by decide
  rw [clampInt64, min_eq_right (h.le.trans hrange), max_eq_left h.le, Int64.ofInt_toInt]

theorem clampInt64_within {n : ℤ} (hlow : Int64.minValue.toInt ≤ n)
    (hhigh : n ≤ Int64.maxValue.toInt) : clampInt64 n = Int64.ofInt n := by
  rw [clampInt64, min_eq_right hhigh, max_eq_right hlow]

theorem truncate_of_amount {x : Float} {v : ℚ} (h : amount? x = some v) :
    truncate x = clampInt64 (towardZero v) := by
  have hparts := ofFloat_unpack x
  unfold amount? at h
  cases hx : x.toModel.unpack with
  | notANumber => rw [hx] at h; cases h
  | infinity s => rw [hx] at h; cases h
  | zero s =>
    rw [hx] at h
    cases h
    have hamount : (0 : ℚ) = (s.apply (0 : ℕ) : ℤ) * (2 : ℚ) ^ leastExponent := by
      cases s <;> simp [Sign.apply]
    rw [truncate, hparts, hx, hamount, towardZero_apply]
    rfl
  | finite s m e hm =>
    rw [hx] at h
    cases h
    rw [truncate, hparts, hx, towardZero_apply]
    rfl

theorem truncate_infinity {x : Float} {s : Sign} (h : x.toModel.unpack = .infinity s) :
    truncate x = if minus s then Int64.minValue else Int64.maxValue := by
  rw [truncate, ofFloat_unpack, h]
  rfl

theorem truncate_notANumber {x : Float} (h : x.toModel.unpack = .notANumber) : truncate x = 0 := by
  rw [truncate, ofFloat_unpack, h]
  rfl

theorem truncates_of_amount {x : Float} {v : ℚ} (h : amount? x = some v) :
    Truncates x (truncate x) := by
  rw [truncate_of_amount h]
  rcases lt_or_ge (towardZero v) Int64.minValue.toInt with hlow | hlow
  · rw [clampInt64_below hlow]
    exact .below h hlow
  rcases lt_or_ge Int64.maxValue.toInt (towardZero v) with hhigh | hhigh
  · rw [clampInt64_above hhigh]
    exact .above h hhigh
  · rw [clampInt64_within hlow hhigh]
    exact .fits h (Int64.toInt_ofInt_of_le hlow (Int.lt_add_one_of_le hhigh))

theorem truncates_iff {x : Float} {n : Int64} : Truncates x n ↔ truncate x = n := by
  constructor
  · intro h
    cases h with
    | fits h hn =>
      rw [truncate_of_amount h, ← hn, clampInt64_within n.minValue_le_toInt n.toInt_le,
        Int64.ofInt_toInt]
    | above h hhigh => rw [truncate_of_amount h, clampInt64_above hhigh]
    | below h hlow => rw [truncate_of_amount h, clampInt64_below hlow]
    | infinite h => exact truncate_infinity h
    | negativeInfinite h => exact truncate_infinity h
    | notNumber h => exact truncate_notANumber h
  · rintro rfl
    cases hx : x.toModel.unpack with
    | notANumber =>
      rw [truncate_notANumber hx]
      exact .notNumber hx
    | infinity s =>
      rw [truncate_infinity hx]
      cases s with
      | positive => exact .infinite hx
      | negative => exact .negativeInfinite hx
    | zero s =>
      have hamount : amount? x = some 0 := by rw [amount?, hx]
      exact truncates_of_amount hamount
    | finite s m e hm =>
      have hamount : amount? x = some ((s.apply m : ℤ) * (2 : ℚ) ^ e) := by rw [amount?, hx]
      exact truncates_of_amount hamount

end DocQuery.Number
