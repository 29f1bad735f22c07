/-! # Decimal numerals

Natural numbers as runs of ASCII digits: `numeral` writes one without leading zeros and
`digitsValue` reads any run of digits. -/

namespace DocQuery.Number

def digit (n : Nat) : Char := Char.ofNat ('0'.toNat + n)

def digitValue (c : Char) : Nat := c.toNat - '0'.toNat

/-- The decimal numeral, without leading zeros. -/
def numeral (n : Nat) : List Char :=
  if n < 10 then [digit n] else numeral (n / 10) ++ [digit (n % 10)]

def digitsValue (ds : List Char) : Nat := ds.foldl (fun n c => 10 * n + digitValue c) 0

def intNumeral (n : Int) : List Char :=
  if n < 0 then '-' :: numeral n.natAbs else numeral n.natAbs

def natText (n : Nat) : String := String.ofList (numeral n)

theorem numeral_ne_nil (n : Nat) : numeral n ≠ [] := by
  rw [numeral]; split <;> simp

@[simp] theorem digitsValue_nil : digitsValue [] = 0 := rfl

theorem digitsValue_append_singleton (ds : List Char) (c : Char) :
    digitsValue (ds ++ [c]) = 10 * digitsValue ds + digitValue c := by
  simp [digitsValue]

theorem digitValue_digit {n : Nat} (h : n < 10) : digitValue (digit n) = n := by
  match n, h with
  | 0, _ | 1, _ | 2, _ | 3, _ | 4, _ | 5, _ | 6, _ | 7, _ | 8, _ | 9, _ => rfl

theorem digitsValue_numeral (n : Nat) : digitsValue (numeral n) = n := by
  induction n using numeral.induct with
  | case1 n h => rw [numeral, if_pos h]; simp [digitsValue, digitValue_digit h]
  | case2 n h ih =>
    rw [numeral, if_neg h, digitsValue_append_singleton, ih,
      digitValue_digit (Nat.mod_lt _ (by decide))]
    omega

end DocQuery.Number
