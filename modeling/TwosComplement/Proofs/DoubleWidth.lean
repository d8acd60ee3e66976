import TwosComplement.DoubleWidth.Arithmetic
import TwosComplement.Proofs.DeferredChecks

/-!
# Proofs/DoubleWidth — double-width integers are integers of twice the width

A carry out of the low halves is an unsigned bit; it goes into high halves that may be signed, whose overflow has to be
that of the whole. Two overflows of a signed sum with a carry point in opposite directions and cancel, while an unsigned
sum overflows in one of its two steps at most: both rules say whether the exact sum is out of range.

* `Fixed.inRange_unsigned_iff`, `Fixed.inRange_signed_iff`: the ranges by their bounds.
* `Fixed.addCarry_eq_wrap`, `Fixed.subBorrow_eq_wrap`: a sum with a carry is the exact sum, stored.
* `Fixed.addCarry_unsigned`, `Fixed.subBorrow_unsigned`: on unsigned values it is the carry chain of the limbs.
* `DoubleWidth.inRange_iff`: a high half in the range of one width puts the whole into the range of twice the width.
* `DoubleWidth.Stores`, `DoubleWidth.stores_halves`: exact results, stored in two halves.
* `FixedType.double_width_exact`: the contract.
-/

namespace TwosComplement

/-! ## Carries -/

namespace Fixed

variable {s : Signedness} {w : ℕ}

theorem inRange_unsigned_iff {n : ℤ} : InRange .unsigned w n ↔ 0 ≤ n ∧ n ≤ 2 ^ w - 1 := by
  rw [InRange, toInt_least_unsigned, toInt_greatest_unsigned]

theorem inRange_signed_iff (hw : 0 < w) {n : ℤ} : InRange .signed w n ↔ -2 ^ (w - 1) ≤ n ∧ n ≤ 2 ^ (w - 1) - 1 := by
  rw [InRange, toInt_least_signed hw, toInt_greatest_signed]

/-- A type has as many values as its bits have patterns. -/
theorem toInt_greatest_sub_least (s : Signedness) (w : ℕ) :
    (greatest : Fixed s w).toInt - (least : Fixed s w).toInt = 2 ^ w - 1 := by
  cases s with
  | unsigned => rw [toInt_greatest_unsigned, toInt_least_unsigned, sub_zero]
  | signed =>
    rcases Nat.eq_zero_or_pos w with rfl | hw
    · rfl
    · have htwo := two_pow_eq_two_mul hw
      push_cast at htwo
      rw [toInt_greatest_signed, toInt_least_signed hw]
      omega

/-- What is read back is the integer of the residue class that is in range. -/
theorem toInt_ofInt_eq_of_modEq {m n : ℤ} (hm : InRange s w m) (h : m ≡ n [ZMOD 2 ^ w]) :
    (ofInt n : Fixed s w).toInt = m := by
  rw [← ofInt_eq_iff.mpr h]
  exact (toInt_ofInt_eq_iff m).mpr hm

/-- An integer that is above the range by less than the number of patterns wraps around once. -/
theorem toInt_ofInt_of_above {n : ℤ} (h : InRange s w (n - 2 ^ w)) : (ofInt n : Fixed s w).toInt = n - 2 ^ w :=
  toInt_ofInt_eq_of_modEq h (Int.sub_modulus_modEq_iff.mpr rfl)

/-- The same for an integer below the range. -/
theorem toInt_ofInt_of_below {n : ℤ} (h : InRange s w (n + 2 ^ w)) : (ofInt n : Fixed s w).toInt = n + 2 ^ w :=
  toInt_ofInt_eq_of_modEq h (Int.add_modulus_modEq_iff.mpr rfl)

/-- An unsigned result that is out of range after the first of two steps is so after both, unless the second goes back
over the bound. -/
theorem joinOverflow_unsigned {n k : ℤ} (hlow : n < 0 → k ≤ 0) (hhigh : 2 ^ w ≤ n → 0 ≤ k) :
    joinOverflow .unsigned (wrap n : Flagged (Fixed .unsigned w)).flag
      (wrap ((ofInt n : Fixed .unsigned w).toInt + k) : Flagged (Fixed .unsigned w)).flag =
        (wrap (n + k) : Flagged (Fixed .unsigned w)).flag := by
  show (_ || _) = _
  rw [Bool.eq_iff_iff, Bool.or_eq_true, flag_wrap_iff, flag_wrap_iff, flag_wrap_iff, toInt_least_unsigned,
    toInt_greatest_unsigned]
  by_cases hn : 0 ≤ n ∧ n ≤ 2 ^ w - 1
  · rw [(toInt_ofInt_unsigned_iff n).mpr hn]
    omega
  · omega

/-- A signed result that is out of range after the first of two steps has wrapped around; it is back in range after both
just when the second step, taken from the other side, leaves the range as well. -/
theorem joinOverflow_signed (hw : 0 < w) {n k : ℤ} (hn : -2 ^ w ≤ n ∧ n < 2 ^ w)
    (hsum : -2 ^ w ≤ n + k ∧ n + k < 2 ^ w) (hk : -1 ≤ k ∧ k ≤ 1) :
    joinOverflow .signed (wrap n : Flagged (Fixed .signed w)).flag
      (wrap ((ofInt n : Fixed .signed w).toInt + k) : Flagged (Fixed .signed w)).flag =
        (wrap (n + k) : Flagged (Fixed .signed w)).flag := by
  have htwo := two_pow_eq_two_mul hw
  push_cast at htwo
  show (_ ^^ _) = _
  rw [Bool.eq_iff_iff, Bool.xor_iff_ne, ne_eq, Bool.eq_iff_iff, flag_wrap_iff, flag_wrap_iff, flag_wrap_iff,
    toInt_least_signed hw, toInt_greatest_signed]
  -- below the range, then above it, then in it
  rcases lt_or_ge n (-2 ^ (w - 1)) with hbelow | hlow
  · rw [toInt_ofInt_of_below ((inRange_signed_iff hw).mpr (by omega))]
    omega
  rcases lt_or_ge (2 ^ (w - 1) - 1) n with habove | hhigh
  · rw [toInt_ofInt_of_above ((inRange_signed_iff hw).mpr (by omega))]
    omega
  · rw [(toInt_ofInt_signed_iff hw n).mpr ⟨hlow, hhigh⟩]
    omega

theorem addCarry_eq_wrap (hw : 0 < w) (a b : Fixed s w) (carry : Bool) :
    a.addCarry b carry = wrap (a.toInt + b.toInt + carry.toNat) := by
  have ha := a.toInt_bounds
  have hb := b.toInt_bounds
  have hc := Bool.toNat_le carry
  refine Flagged.ext (ofInt_eq_iff.mpr ((toInt_ofInt_modEq _).add_right _)) ?_
  cases s with
  | unsigned =>
    rw [toInt_least_unsigned] at ha hb
    exact joinOverflow_unsigned (by omega) (by omega)
  | signed =>
    have htwo := two_pow_eq_two_mul hw
    push_cast at htwo
    rw [toInt_least_signed hw, toInt_greatest_signed] at ha hb
    exact joinOverflow_signed hw (by omega) (by omega) (by omega)

theorem subBorrow_eq_wrap (hw : 0 < w) (a b : Fixed s w) (borrow : Bool) :
    a.subBorrow b borrow = wrap (a.toInt - b.toInt - borrow.toNat) := by
  have ha := a.toInt_bounds
  have hb := b.toInt_bounds
  have hc := Bool.toNat_le borrow
  refine Flagged.ext (ofInt_eq_iff.mpr ((toInt_ofInt_modEq _).sub_right _)) ?_
  cases s with
  | unsigned =>
    rw [toInt_least_unsigned, toInt_greatest_unsigned] at ha hb
    exact joinOverflow_unsigned (k := -borrow.toNat) (by omega) (by omega)
  | signed =>
    have htwo := two_pow_eq_two_mul hw
    push_cast at htwo
    rw [toInt_least_signed hw, toInt_greatest_signed] at ha hb
    exact joinOverflow_signed (k := -borrow.toNat) hw (by omega) (by omega) (by omega)

/-- The carry out of an unsigned sum counts what does not fit. -/
theorem toInt_add_carry {n : ℤ} (hn : 0 ≤ n ∧ n < 2 * 2 ^ w) : (ofInt n : Fixed .unsigned w).toInt +
    2 ^ w * ((wrap n : Flagged (Fixed .unsigned w)).flag.toNat : ℤ) = n := by
  have hflag := flag_wrap_iff (s := .unsigned) (w := w) n
  rw [toInt_least_unsigned, toInt_greatest_unsigned] at hflag
  rcases lt_or_ge n (2 ^ w) with hfits | habove
  · rw [Bool.eq_false_iff.mpr (mt hflag.mp (by omega)), (toInt_ofInt_unsigned_iff n).mpr (by omega)]
    simp
  · rw [hflag.mpr (by omega), toInt_ofInt_of_above (inRange_unsigned_iff.mpr (by omega))]
    simp

/-- The borrow out of an unsigned difference counts what is missing. -/
theorem toInt_sub_borrow {n : ℤ} (hn : -2 ^ w ≤ n ∧ n < 2 ^ w) : (ofInt n : Fixed .unsigned w).toInt -
    2 ^ w * ((wrap n : Flagged (Fixed .unsigned w)).flag.toNat : ℤ) = n := by
  have hflag := flag_wrap_iff (s := .unsigned) (w := w) n
  rw [toInt_least_unsigned, toInt_greatest_unsigned] at hflag
  rcases lt_or_ge n 0 with hbelow | hfits
  · rw [hflag.mpr (by omega), toInt_ofInt_of_below (inRange_unsigned_iff.mpr (by omega))]
    simp
  · rw [Bool.eq_false_iff.mpr (mt hflag.mp (by omega)), (toInt_ofInt_unsigned_iff n).mpr (by omega)]
    simp

/-! ## The carry chain of the limbs -/

/-- Limb and flag of an overflowing step, as a result of the unsigned type. -/
def ofStep (step : Limb w × Bool) : Flagged (Fixed .unsigned w) := ⟨⟨step.1⟩, step.2⟩

theorem wrap_add_toNat (a : Limb w) (n : ℕ) : wrap (a.toNat + n) = ofStep (a.overflowingAdd n) := by
  have hvalue : BitVec.ofInt w (a.toNat + n) = BitVec.ofNat w (a.toNat + n) := by
    rw [← Nat.cast_add, BitVec.ofInt_natCast]
  refine Flagged.ext (congrArg Fixed.mk hvalue) ?_
  show _ = decide (2 ^ w ≤ a.toNat + n)
  rw [Bool.eq_iff_iff, flag_wrap_iff, decide_eq_true_iff, toInt_least_unsigned, toInt_greatest_unsigned,
    ← Nat.cast_le (α := ℤ)]
  push_cast
  omega

theorem wrap_sub_toNat (a : Limb w) {n : ℕ} (hn : n ≤ 2 ^ w) :
    wrap (a.toNat - n) = ofStep (a.overflowingSub n) := by
  have hlt : (a.toNat : ℤ) < 2 ^ w := by exact_mod_cast a.isLt
  have hvalue : BitVec.ofInt w (a.toNat - n) = BitVec.ofNat w (2 ^ w + a.toNat - n) := by
    refine BitVec.eq_of_toInt_eq ?_
    rw [← BitVec.ofInt_natCast, BitVec.toInt_ofInt, BitVec.toInt_ofInt, Nat.cast_sub (by omega), Nat.cast_add,
      add_sub_assoc, Int.add_bmod_left]
  refine Flagged.ext (congrArg Fixed.mk hvalue) ?_
  show _ = decide (a.toNat < n)
  rw [Bool.eq_iff_iff, flag_wrap_iff, decide_eq_true_iff, toInt_least_unsigned, toInt_greatest_unsigned]
  omega

/-- A sum of unsigned values with a carry is that of their limbs, step by step. -/
theorem addCarry_unsigned (a b : Limb w) (carry : Bool) :
    addCarry ⟨a⟩ ⟨b⟩ carry = ofStep (a.addCarry b carry) := by
  have first : (⟨a⟩ : Fixed .unsigned w).add ⟨b⟩ = ofStep (a.overflowingAdd b.toNat) := wrap_add_toNat a b.toNat
  have second : wrap ((ofStep (a.overflowingAdd b.toNat)).value.toInt + carry.toNat) =
      ofStep ((a.overflowingAdd b.toNat).1.overflowingAdd carry.toNat) := wrap_add_toNat _ carry.toNat
  simp only [addCarry, first, second]
  rfl

theorem subBorrow_unsigned (a b : Limb w) (borrow : Bool) :
    subBorrow ⟨a⟩ ⟨b⟩ borrow = ofStep (a.subBorrow b borrow) := by
  have first : (⟨a⟩ : Fixed .unsigned w).sub ⟨b⟩ = ofStep (a.overflowingSub b.toNat) :=
    wrap_sub_toNat a b.isLt.le
  have second : wrap ((ofStep (a.overflowingSub b.toNat)).value.toInt - borrow.toNat) =
      ofStep ((a.overflowingSub b.toNat).1.overflowingSub borrow.toNat) := wrap_sub_toNat _ (Limb.toNat_bit_le borrow)
  simp only [subBorrow, first, second]
  rfl

/-! ## The range of twice the width -/

theorem toInt_least_double (hw : 0 < w) :
    (least : Fixed s (2 * w)).toInt = 2 ^ w * (least : Fixed s w).toInt := by
  cases s with
  | unsigned => rw [toInt_least_unsigned, toInt_least_unsigned, mul_zero]
  | signed =>
    rw [toInt_least_signed hw, toInt_least_signed (by omega), show 2 * w - 1 = w + (w - 1) by omega, pow_add, mul_neg]

theorem toInt_greatest_double (hw : 0 < w) :
    (greatest : Fixed s (2 * w)).toInt = 2 ^ w * (greatest : Fixed s w).toInt + (2 ^ w - 1) := by
  have hdouble := toInt_greatest_sub_least s (2 * w)
  have hsingle := toInt_greatest_sub_least s w
  have hsquare : (2 : ℤ) ^ (2 * w) = 2 ^ w * 2 ^ w := by rw [two_mul, pow_add]
  rw [toInt_least_double hw, hsquare] at hdouble
  linear_combination hdouble - 2 ^ w * hsingle

end Fixed

namespace DoubleWidth

variable {s : Signedness} {w : ℕ}

theorem halves_ediv (low : Limb w) (high : ℤ) : ((low.toNat : ℤ) + 2 ^ w * high) / 2 ^ w = high := by
  have hlow : (low.toNat : ℤ) < 2 ^ w := by exact_mod_cast low.isLt
  rw [Int.add_mul_ediv_left _ _ (by positivity), Int.ediv_eq_zero_of_lt (by positivity) hlow, zero_add]

/-- The whole is in the range of twice the width just when the high half is in the range of one. -/
theorem inRange_iff (hw : 0 < w) (low : Limb w) (high : ℤ) :
    Fixed.InRange s (2 * w) (low.toNat + 2 ^ w * high) ↔ Fixed.InRange s w high := by
  have hpos : (0 : ℤ) < 2 ^ w := by positivity
  have hlower (bound : ℤ) : 2 ^ w * bound ≤ low.toNat + 2 ^ w * high ↔ bound ≤ high := by
    rw [mul_comm, ← Int.le_ediv_iff_mul_le hpos, halves_ediv]
  have hupper (bound : ℤ) : low.toNat + 2 ^ w * high ≤ 2 ^ w * bound + (2 ^ w - 1) ↔ high ≤ bound := by
    have hnext := hlower (bound + 1)
    rw [mul_add_one] at hnext
    omega
  rw [Fixed.InRange, Fixed.toInt_least_double hw, Fixed.toInt_greatest_double hw, hlower, hupper]
  exact Iff.rfl

theorem inRange_toInt (hw : 0 < w) (x : DoubleWidth s w) : Fixed.InRange s (2 * w) x.toInt :=
  (inRange_iff hw x.low x.highPart.toInt).mpr x.highPart.toInt_bounds

/-! ## Exact results in two halves -/

/-- A double-width result of an integer: congruent to it modulo the number of patterns, and flagged when the integer is
out of range. -/
structure Stores (result : Flagged (DoubleWidth s w)) (n : ℤ) : Prop where
  modEq : result.value.toInt ≡ n [ZMOD 2 ^ (2 * w)]
  flag_iff : result.flag = true ↔ ¬ Fixed.InRange s (2 * w) n

theorem stores_halves (hw : 0 < w) (low : Limb w) (high : ℤ) :
    Stores (s := s) ⟨⟨low, (Fixed.ofInt high : Fixed s w).bits⟩, (Fixed.wrap high : Flagged (Fixed s w)).flag⟩
      (low.toNat + 2 ^ w * high) := by
  constructor
  · rw [two_mul, pow_add]
    exact (Fixed.toInt_ofInt_modEq high).mul_left'.add_left _
  · rw [Fixed.flag_wrap_iff, inRange_iff hw, Fixed.InRange]
    omega

variable (t : FixedType)

theorem lowOperations_eq_machine : t.lowOperations = Operations.machine := by
  cases t with
  | oneBit s => exact Operations.oneBit_eq_machine
  | machine s width => rfl

theorem stores_add (x y : DoubleWidth t.signedness t.width) : Stores (add t x y) (x.toInt + y.toInt) := by
  have hx : (x.low.toNat : ℤ) < 2 ^ t.width := by exact_mod_cast x.low.isLt
  have hy : (y.low.toNat : ℤ) < 2 ^ t.width := by exact_mod_cast y.low.isLt
  have hlow : x.lowPart.addCarry y.lowPart false = Fixed.wrap (x.low.toNat + y.low.toNat) :=
    (Fixed.addCarry_eq_wrap t.width_pos _ _ _).trans (congrArg Fixed.wrap (add_zero _))
  obtain ⟨low, hdef⟩ : ∃ low : Flagged (Fixed .unsigned t.width), low = Fixed.wrap (x.low.toNat + y.low.toNat) :=
    ⟨_, rfl⟩
  have hcarry : low.value.toInt + 2 ^ t.width * low.flag.toNat = x.low.toNat + y.low.toNat := by
    rw [hdef]
    exact Fixed.toInt_add_carry (by omega)
  -- the carry into the high half is what the low half does not hold
  have hsum : low.value.toInt + 2 ^ t.width * (x.highPart.toInt + y.highPart.toInt + low.flag.toNat) =
      x.toInt + y.toInt := by
    unfold toInt
    linear_combination hcarry
  unfold add
  rw [lowOperations_eq_machine, t.operations_eq_machine]
  simp only [Operations.machine, hlow, Fixed.addCarry_eq_wrap t.width_pos, ← hdef]
  rw [← hsum]
  exact stores_halves t.width_pos _ _

theorem stores_sub (x y : DoubleWidth t.signedness t.width) : Stores (sub t x y) (x.toInt - y.toInt) := by
  have hx : (x.low.toNat : ℤ) < 2 ^ t.width := by exact_mod_cast x.low.isLt
  have hy : (y.low.toNat : ℤ) < 2 ^ t.width := by exact_mod_cast y.low.isLt
  have hlow : x.lowPart.subBorrow y.lowPart false = Fixed.wrap (x.low.toNat - y.low.toNat) :=
    (Fixed.subBorrow_eq_wrap t.width_pos _ _ _).trans (congrArg Fixed.wrap (sub_zero _))
  obtain ⟨low, hdef⟩ : ∃ low : Flagged (Fixed .unsigned t.width), low = Fixed.wrap (x.low.toNat - y.low.toNat) :=
    ⟨_, rfl⟩
  have hborrow : low.value.toInt - 2 ^ t.width * low.flag.toNat = x.low.toNat - y.low.toNat := by
    rw [hdef]
    exact Fixed.toInt_sub_borrow (by omega)
  have hdifference : low.value.toInt + 2 ^ t.width * (x.highPart.toInt - y.highPart.toInt - low.flag.toNat) =
      x.toInt - y.toInt := by
    unfold toInt
    linear_combination hborrow
  unfold sub
  rw [lowOperations_eq_machine, t.operations_eq_machine]
  simp only [Operations.machine, hlow, Fixed.subBorrow_eq_wrap t.width_pos, ← hdef]
  rw [← hdifference]
  exact stores_halves t.width_pos _ _

theorem stores_neg (x : DoubleWidth t.signedness t.width) : Stores (neg t x) (-x.toInt) := by
  have hzero : (⟨0, 0⟩ : DoubleWidth t.signedness t.width).toInt = 0 := by
    show ((0 : Limb t.width).toNat : ℤ) + 2 ^ t.width * (0 : Fixed t.signedness t.width).toInt = 0
    rw [Fixed.toInt_zero, mul_zero, add_zero]
    rfl
  have h := stores_sub t ⟨0, 0⟩ x
  rw [hzero, zero_sub] at h
  exact h

/-! ## The contract -/

theorem toInt_signFill {s : Signedness} {w : ℕ} (a : Fixed s w) : a.signFill.toInt = if a.negative then -1 else 0 := by
  cases hneg : a.negative with
  | false =>
    have hfill : a.signFill = 0 := by rw [Fixed.signFill, hneg]; rfl
    rw [hfill]
    exact Fixed.toInt_zero
  | true =>
    have hfill : a.signFill = ⟨BitVec.allOnes w⟩ := by rw [Fixed.signFill, hneg]; rfl
    rw [hfill]
    cases s with
    | unsigned => cases hneg
    | signed =>
      have hmsb : a.bits.msb = true := hneg
      have hw : 0 < w := Nat.pos_of_ne_zero fun h => by subst h; simp [BitVec.msb, BitVec.getMsbD] at hmsb
      exact BitVec.toInt_allOnes.trans (if_pos hw)

/-- A value of one width is widened without loss. -/
theorem toInt_ofValue {s : Signedness} {w : ℕ} (a : Fixed s w) : (ofValue a).toInt = a.toInt := by
  have hhalves : (ofValue a).toInt = a.bits.toNat + 2 ^ w * a.signFill.toInt := rfl
  rw [hhalves, toInt_signFill]
  cases s with
  | unsigned => exact add_zero _
  | signed =>
    show (a.bits.toNat : ℤ) + 2 ^ w * (if (true && a.bits.msb) then -1 else 0) = a.bits.toInt
    rw [BitVec.toInt_eq_msb_cond, Bool.true_and]
    push_cast
    split <;> ring

theorem order_eq_compare_toInt (x y : DoubleWidth t.signedness t.width) : order t x y = compare x.toInt y.toInt := by
  have hlow : compare x.lowPart y.lowPart = compare x.low.toNat y.low.toNat := by
    show compare (x.low.toNat : ℤ) y.low.toNat = _
    rw [← cmp_eq_compare, ← cmp_eq_compare]
    exact Nat.strictMono_cast.cmp_map_eq _ _
  unfold order
  rw [lowOperations_eq_machine, t.operations_eq_machine, ← compare_eq_compare_toInt, compare_eq]
  show (compare x.highPart y.highPart).then (compare x.lowPart y.lowPart) = _
  rw [hlow]
  rfl

end DoubleWidth

/-- **Double-width integers are integers of twice the width.** In every type, of one bit by its tables or of a machine
width, a value of the type is widened without loss. A sum, a difference and a negation are those of the integers, up to a
multiple of the number of patterns, and flagged just when the exact result is out of the range of twice the width. The
order is that of the integers, so that one is less than another just when the exact difference is negative. -/
theorem FixedType.double_width_exact (t : FixedType) :
    (∀ a : Fixed t.signedness t.width, (DoubleWidth.ofValue a).toInt = a.toInt) ∧
    ∀ x y : DoubleWidth t.signedness t.width,
      DoubleWidth.Stores (DoubleWidth.add t x y) (x.toInt + y.toInt) ∧
      DoubleWidth.Stores (DoubleWidth.sub t x y) (x.toInt - y.toInt) ∧
      DoubleWidth.Stores (DoubleWidth.neg t x) (-x.toInt) ∧
      DoubleWidth.order t x y = compare x.toInt y.toInt ∧
      (DoubleWidth.order t x y = .lt ↔ x.toInt - y.toInt < 0) := by
  refine ⟨DoubleWidth.toInt_ofValue, ?_⟩
  intro x y
  refine ⟨DoubleWidth.stores_add t x y, DoubleWidth.stores_sub t x y, DoubleWidth.stores_neg t x,
    DoubleWidth.order_eq_compare_toInt t x y, ?_⟩
  rw [DoubleWidth.order_eq_compare_toInt, compare_lt_iff_lt, sub_neg]

-- the carry takes the high half back into the range that the sum of the high halves leaves
example : DoubleWidth.add (.machine .signed .bits8) ⟨255, 0x80⟩ ⟨1, 0xFF⟩ = .ok ⟨0, 0x80⟩ := by decide

end TwosComplement
