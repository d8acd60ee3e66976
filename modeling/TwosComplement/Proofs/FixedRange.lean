import Mathlib.Algebra.Order.Ring.Int
import Mathlib.Tactic.Positivity
import TwosComplement.Fixed.Arithmetic

/-!
# Proofs/FixedRange — which integers a fixed width holds

* `Fixed.toInt_ofInt_eq_iff`, `Fixed.flag_wrap_iff`: storing an integer is exact between the bounds of the type,
  and flagged beyond them.
* `Sign.apply_natAbs`, `Fixed.toNat_magnitude`: a value is its sign and its absolute value;
  `Fixed.ofSignMagnitude_eq_wrap`: put together again it is stored as the integer.
* `Fixed.flag_tdiv_iff`, `Fixed.toInt_tmod`: of a truncated division only the quotient of the least signed value
  by minus one leaves the range.
-/

namespace TwosComplement

/-! ## Signs -/

namespace Sign

/-- An integer is its sign and its absolute value. -/
theorem apply_natAbs {b : Bool} {n : ℤ} (h : b = true ↔ n < 0) : (ofBit b).apply n.natAbs = n := by
  unfold ofBit
  by_cases hn : n < 0
  · rw [if_pos (h.mpr hn)]
    show -(n.natAbs : ℤ) = n
    omega
  · rw [if_neg (mt h.mp hn)]
    show (n.natAbs : ℤ) = n
    omega

theorem tdiv_apply (p q : Sign) (m n : ℕ) :
    (p.apply m).tdiv (q.apply n) = (if p = q then plus else minus).apply (m / n) := by
  cases p <;> cases q <;> simp [apply, Int.neg_tdiv, Int.tdiv_neg]

theorem tmod_apply (p q : Sign) (m n : ℕ) : (p.apply m).tmod (q.apply n) = p.apply (m % n) := by
  cases p <;> cases q <;> simp [apply, Int.neg_tmod, Int.tmod_neg, Int.tmod_eq_emod_of_nonneg]

end Sign

namespace Fixed

variable {s : Signedness} {w : ℕ}

/-! ## The bounds -/

theorem toInt_least_unsigned : (least : Fixed .unsigned w).toInt = 0 := rfl

theorem toInt_greatest_unsigned : (greatest : Fixed .unsigned w).toInt = 2 ^ w - 1 := by
  show ((BitVec.allOnes w).toNat : ℤ) = 2 ^ w - 1
  rw [BitVec.toNat_allOnes, Nat.cast_sub (Nat.two_pow_pos w)]
  push_cast
  rfl

theorem toInt_least_signed (hw : 0 < w) : (least : Fixed .signed w).toInt = -2 ^ (w - 1) := by
  show (BitVec.intMin w).toInt = -2 ^ (w - 1)
  rw [BitVec.toInt_intMin, Nat.mod_eq_of_lt (Nat.pow_lt_pow_right (by omega) (by omega))]
  push_cast
  rfl

theorem toInt_greatest_signed : (greatest : Fixed .signed w).toInt = 2 ^ (w - 1) - 1 :=
  BitVec.toInt_intMax

theorem two_pow_eq_two_mul (hw : 0 < w) : ((2 ^ w : ℕ) : ℤ) = 2 * 2 ^ (w - 1) := by
  obtain ⟨k, rfl⟩ : ∃ k, w = k + 1 := ⟨w - 1, by omega⟩
  push_cast
  exact pow_succ' 2 k

theorem toInt_ofInt_unsigned_iff (n : ℤ) :
    (ofInt n : Fixed .unsigned w).toInt = n ↔ 0 ≤ n ∧ n ≤ 2 ^ w - 1 := by
  have hp : (0 : ℤ) < (2 ^ w : ℕ) := by positivity
  show ((BitVec.ofInt w n).toNat : ℤ) = n ↔ _
  rw [BitVec.toNat_ofInt, Int.toNat_of_nonneg (Int.emod_nonneg _ hp.ne')]
  constructor
  · intro h
    have h1 := Int.emod_nonneg n hp.ne'
    have h2 := Int.emod_lt_of_pos n hp
    push_cast at h h1 h2
    omega
  · rintro ⟨h1, h2⟩
    exact Int.emod_eq_of_lt h1 (by push_cast; omega)

theorem toInt_ofInt_signed_iff (hw : 0 < w) (n : ℤ) :
    (ofInt n : Fixed .signed w).toInt = n ↔ -2 ^ (w - 1) ≤ n ∧ n ≤ 2 ^ (w - 1) - 1 := by
  have h2 := two_pow_eq_two_mul hw
  show (BitVec.ofInt w n).toInt = n ↔ _
  constructor
  · intro h
    rw [BitVec.toInt_ofInt] at h
    have h3 := Int.le_bmod (x := n) (Nat.two_pow_pos w)
    have h4 := Int.bmod_lt (x := n) (Nat.two_pow_pos w)
    omega
  · rintro ⟨h3, h4⟩
    exact BitVec.toInt_ofInt_eq_self hw h3 (by omega)

/-- An integer fits exactly when it lies between the bounds. -/
theorem toInt_ofInt_eq_iff (n : ℤ) :
    (ofInt n : Fixed s w).toInt = n ↔
      (least : Fixed s w).toInt ≤ n ∧ n ≤ (greatest : Fixed s w).toInt := by
  cases s with
  | unsigned =>
    rw [toInt_least_unsigned, toInt_greatest_unsigned]
    exact toInt_ofInt_unsigned_iff n
  | signed =>
    rcases Nat.eq_zero_or_pos w with rfl | hw
    · have h0 : ∀ a : Fixed .signed 0, a.toInt = 0 := fun a => by
        show a.bits.toInt = 0
        rw [BitVec.eq_nil a.bits]
        rfl
      rw [h0, h0, h0]
      omega
    · rw [toInt_least_signed hw, toInt_greatest_signed]
      exact toInt_ofInt_signed_iff hw n

theorem flag_wrap_iff (n : ℤ) : (wrap n : Flagged (Fixed s w)).flag = true ↔
    n < (least : Fixed s w).toInt ∨ (greatest : Fixed s w).toInt < n := by
  have h := (flag_wrap_eq_false_iff (s := s) (w := w) n).trans (toInt_ofInt_eq_iff n)
  rw [← Bool.not_eq_false, h]
  omega

theorem toInt_bounds (a : Fixed s w) :
    (least : Fixed s w).toInt ≤ a.toInt ∧ a.toInt ≤ (greatest : Fixed s w).toInt :=
  (toInt_ofInt_eq_iff a.toInt).mp (by rw [ofInt_toInt])

/-! ## Sign and absolute value -/

theorem negative_iff (a : Fixed s w) : a.negative = true ↔ a.toInt < 0 := by
  cases s with
  | unsigned => exact iff_of_false (by simp [negative, Signedness.isSigned]) (by simp [toInt])
  | signed =>
    show (true && a.bits.msb) = true ↔ a.bits.toInt < 0
    rw [Bool.true_and, BitVec.msb_eq_toInt, decide_eq_true_iff]

theorem toNat_magnitude (a : Fixed s w) : a.magnitude.toNat = a.toInt.natAbs := by
  cases s with
  | unsigned => rfl
  | signed =>
    show a.bits.abs.toNat = a.bits.toInt.natAbs
    have hlt := a.bits.isLt
    rw [BitVec.toNat_abs, BitVec.toInt_eq_msb_cond]
    split <;> omega

theorem apply_sign (a : Fixed s w) : a.sign.apply a.toInt.natAbs = a.toInt :=
  Sign.apply_natAbs a.negative_iff

theorem toInt_ne_zero (d : Nonzero (Fixed s w)) : d.val.toInt ≠ 0 := fun h =>
  d.ne_zero (toInt_injective (h.trans toInt_zero.symm))

theorem toNat_magnitude_pos (d : Nonzero (Fixed s w)) : 0 < d.val.magnitude.toNat := by
  rw [toNat_magnitude]
  exact Int.natAbs_pos.mpr (toInt_ne_zero d)

theorem wrap_toNat (m : Limb w) :
    (wrap m.toNat : Flagged (Fixed s w)) = ⟨⟨m⟩, decide ((⟨m⟩ : Fixed s w).toInt ≠ m.toNat)⟩ := by
  have hvalue : (ofInt m.toNat : Fixed s w) = ⟨m⟩ := Fixed.ext (by simp [ofInt])
  rw [wrap, hvalue]

theorem wrap_neg_toNat (m : Limb w) :
    (wrap (-m.toNat) : Flagged (Fixed s w)) = ⟨⟨-m⟩, decide ((⟨-m⟩ : Fixed s w).toInt ≠ -m.toNat)⟩ := by
  have hvalue : (ofInt (-m.toNat) : Fixed s w) = ⟨-m⟩ := Fixed.ext (by simp [ofInt, BitVec.ofInt_neg])
  rw [wrap, hvalue]

theorem ofSignMagnitude_plus (m : Limb w) : (ofSignMagnitude .plus m : Flagged (Fixed s w)) = wrap m.toNat := by
  rw [wrap_toNat]
  cases s with
  | unsigned => exact Flagged.ext rfl (decide_eq_false (not_not.mpr rfl)).symm
  | signed =>
    -- a pattern that reads with a minus reads as another number
    refine Flagged.ext rfl ?_
    show (⟨m⟩ : Fixed .signed w).negative = decide (m.toInt ≠ m.toNat)
    rw [Bool.eq_iff_iff, negative_iff, decide_eq_true_iff]
    show m.toInt < 0 ↔ m.toInt ≠ m.toNat
    have hm := m.isLt
    rw [BitVec.toInt_eq_toNat_cond]
    split <;> omega

theorem ofSignMagnitude_minus (m : Limb w) : (ofSignMagnitude .minus m : Flagged (Fixed s w)) = wrap (-m.toNat) := by
  have hm := m.isLt
  have hzero : m = 0 ↔ m.toNat = 0 := by rw [← BitVec.toNat_inj, BitVec.ofNat_eq_ofNat, BitVec.toNat_zero]
  have hneg : (-m).toNat = if m.toNat = 0 then 0 else 2 ^ w - m.toNat := by
    rw [BitVec.toNat_neg]
    split
    case isTrue h => rw [h, Nat.sub_zero, Nat.mod_self]
    case isFalse h => exact Nat.mod_eq_of_lt (by omega)
  rw [wrap_neg_toNat]
  cases s with
  | unsigned =>
    refine Flagged.ext rfl ?_
    show decide (m ≠ 0) = decide (((-m).toNat : ℤ) ≠ -m.toNat)
    rw [decide_eq_decide, ne_eq, hzero, hneg]
    split <;> omega
  | signed =>
    -- zero needs no minus; any other magnitude fits when its negated pattern reads with one
    refine Flagged.ext rfl ?_
    show (decide (m ≠ 0) && !(⟨-m⟩ : Fixed .signed w).negative) = decide ((-m).toInt ≠ -m.toNat)
    rw [Bool.eq_iff_iff, Bool.and_eq_true, Bool.not_eq_true', ← Bool.not_eq_true, negative_iff, decide_eq_true_iff,
      decide_eq_true_iff, ne_eq, hzero]
    show m.toNat ≠ 0 ∧ ¬(-m).toInt < 0 ↔ (-m).toInt ≠ -m.toNat
    rw [BitVec.toInt_eq_toNat_cond, hneg]
    split <;> split <;> omega

/-- The flags look at the pattern only, and tell whether the integer is in range. -/
theorem ofSignMagnitude_eq_wrap (sign : Sign) (m : Limb w) :
    (ofSignMagnitude sign m : Flagged (Fixed s w)) = wrap (sign.apply m.toNat) := by
  cases sign with
  | plus => exact ofSignMagnitude_plus m
  | minus => exact ofSignMagnitude_minus m

/-! ## Truncated division -/

/-- The quotient by its sign and magnitude. -/
theorem tdiv_eq_apply (a b : Fixed s w) : a.toInt.tdiv b.toInt =
    (if a.sign = b.sign then Sign.plus else Sign.minus).apply (a.magnitude.toNat / b.magnitude.toNat) := by
  rw [toNat_magnitude, toNat_magnitude, ← Sign.tdiv_apply, apply_sign, apply_sign]

/-- The remainder by its sign and magnitude. -/
theorem tmod_eq_apply (a b : Fixed s w) :
    a.toInt.tmod b.toInt = a.sign.apply (a.magnitude.toNat % b.magnitude.toNat) := by
  rw [toNat_magnitude, toNat_magnitude, ← Sign.tmod_apply a.sign b.sign, apply_sign, apply_sign]

/-- The remainder lies between zero and the dividend, so it always fits. -/
theorem toInt_tmod (a : Fixed s w) (d : Nonzero (Fixed s w)) :
    (a.tmod d).toInt = a.toInt.tmod d.val.toInt := by
  refine (toInt_ofInt_eq_iff _).mpr ?_
  have h1 := a.toInt_bounds
  have h0 := (0 : Fixed s w).toInt_bounds
  rw [toInt_zero] at h0
  have hle : a.toInt.natAbs % d.val.toInt.natAbs ≤ a.toInt.natAbs := Nat.mod_le _ _
  have habs := Int.natAbs_tmod a.toInt d.val.toInt
  rcases le_total 0 a.toInt with ha | ha
  · have hr := Int.tmod_nonneg d.val.toInt ha
    omega
  · have hr := Int.tmod_nonneg d.val.toInt (neg_nonneg.mpr ha)
    rw [Int.neg_tmod] at hr
    omega

theorem pos_width (d : Nonzero (Fixed s w)) : 0 < w := by
  rcases Nat.eq_zero_or_pos w with rfl | hw
  · exact absurd (Fixed.ext (BitVec.eq_of_zero_length rfl)) d.ne_zero
  · exact hw

/-- The quotient leaves the range only when the least signed value is divided by minus one. -/
theorem flag_tdiv_iff (a : Fixed s w) (d : Nonzero (Fixed s w)) :
    (a.tdiv d).flag = true ↔ s = .signed ∧ a = least ∧ d.val.toInt = -1 := by
  have ha := a.toInt_bounds
  have hd := d.val.toInt_bounds
  have hd0 := toInt_ne_zero d
  have habs : (a.toInt.tdiv d.val.toInt).natAbs = a.toInt.natAbs / d.val.toInt.natAbs := Int.natAbs_tdiv _ _
  have hleast : a = least ↔ a.toInt = (least : Fixed s w).toInt := ⟨congrArg toInt, toInt_injective⟩
  rw [hleast]
  refine (flag_wrap_iff _).trans ?_
  cases s with
  | unsigned =>
    rw [toInt_least_unsigned] at *
    have h1 := Int.tdiv_nonneg ha.1 hd.1
    have h2 := Nat.div_le_self a.toInt.natAbs d.val.toInt.natAbs
    refine iff_of_false ?_ (by simp)
    omega
  | signed =>
    have hw := pos_width d
    rw [toInt_least_signed hw, toInt_greatest_signed] at *
    have hp : (0 : ℤ) < 2 ^ (w - 1) := by positivity
    rw [and_iff_right rfl]
    by_cases h1 : d.val.toInt = -1
    · rw [h1, Int.tdiv_neg, Int.tdiv_one]
      omega
    by_cases h2 : d.val.toInt = 1
    · rw [h2, Int.tdiv_one]
      omega
    · have h3 : a.toInt.natAbs / d.val.toInt.natAbs ≤ a.toInt.natAbs / 2 :=
        Nat.div_le_div_left (by omega) (by omega)
      omega

end Fixed

end TwosComplement
