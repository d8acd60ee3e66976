import TwosComplement.Fixed.Arithmetic

/-!
# DoubleWidth — integers of twice the width

A double-width integer is an unsigned low limb below a high limb that carries the signedness. It holds full
products and wide dividends: `x.toInt` is `low + 2 ^ w * high`.

* `DoubleWidth.ofValue` widens a value of one width.
* The order compares the high halves under their signedness, then the low halves; `compare_eq_compare_toInt` says that
  it is the order of the integers.
-/

namespace TwosComplement

-- powers are those of the core library, whatever else is imported
attribute [local instance (high)] instPowNat instNatPowNat Int.instNatPow

/-- An integer of `2 * w` bits in two halves. -/
structure DoubleWidth (s : Signedness) (w : Nat) where
  low : Limb w
  high : BitVec w
deriving DecidableEq

namespace DoubleWidth

variable {s : Signedness} {w : Nat}

/-- The high half as a number under the signedness of the whole. -/
def highPart (x : DoubleWidth s w) : Fixed s w := ⟨x.high⟩

/-- The integer that the two halves denote. -/
def toInt (x : DoubleWidth s w) : Int := x.low.toNat + 2 ^ w * x.highPart.toInt

/-- The two halves of the low `2 * w` bits of an integer. -/
def ofInt (n : Int) : DoubleWidth s w := ⟨BitVec.ofInt w n, BitVec.ofInt w (n >>> w)⟩

/-- A value of one width, widened. -/
def ofValue (a : Fixed s w) : DoubleWidth s w := ⟨a.bits, a.signFill.bits⟩

instance : Ord (DoubleWidth s w) :=
  ⟨fun x y => (compare x.highPart y.highPart).then (compare x.low.toNat y.low.toNat)⟩

/-- The natural number that an unsigned double-width integer denotes. -/
def toNat (x : DoubleWidth .unsigned w) : Nat := x.low.toNat + 2 ^ w * x.high.toNat

theorem toInt_eq_toNat (x : DoubleWidth .unsigned w) : x.toInt = x.toNat := by
  simp [toInt, toNat, highPart, Fixed.toInt]

/-! ## The order is the order of the integers -/

theorem compare_eq (x y : DoubleWidth s w) :
    compare x y =
      (compare x.highPart.toInt y.highPart.toInt).then (compare x.low.toNat y.low.toNat) := rfl

theorem toInt_lt_of_highPart_lt {x y : DoubleWidth s w} (h : x.highPart.toInt < y.highPart.toInt) :
    x.toInt < y.toInt := by
  have hx : (x.low.toNat : Int) < 2 ^ w := by exact_mod_cast x.low.isLt
  have step : (2 ^ w : Int) * (x.highPart.toInt + 1) ≤ 2 ^ w * y.highPart.toInt :=
    Int.mul_le_mul_of_nonneg_left h (Int.le_of_lt (Int.pow_pos (by decide)))
  rw [Int.mul_add, Int.mul_one] at step
  unfold toInt
  omega

theorem compare_eq_compare_toInt (x y : DoubleWidth s w) : compare x y = compare x.toInt y.toInt := by
  rw [compare_eq]
  rcases Int.lt_trichotomy x.highPart.toInt y.highPart.toInt with h | h | h
  · rw [Int.compare_eq_lt.2 h, Int.compare_eq_lt.2 (toInt_lt_of_highPart_lt h)]
    rfl
  · rw [Int.compare_eq_eq.2 h]
    unfold toInt
    rw [h]
    rcases Nat.lt_trichotomy x.low.toNat y.low.toNat with l | l | l
    · rw [Nat.compare_eq_lt.2 l, Int.compare_eq_lt.2 (by omega)]
      rfl
    · rw [Nat.compare_eq_eq.2 l, Int.compare_eq_eq.2 (by omega)]
      rfl
    · rw [Nat.compare_eq_gt.2 l, Int.compare_eq_gt.2 (by omega)]
      rfl
  · rw [Int.compare_eq_gt.2 h, Int.compare_eq_gt.2 (toInt_lt_of_highPart_lt h)]
    rfl

end DoubleWidth

end TwosComplement
