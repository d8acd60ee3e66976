import TwosComplement.Proofs.FixedRange
import TwosComplement.Proofs.LongDivision
import TwosComplement.Proofs.UnboundedValue
import TwosComplement.Unbounded.Division

/-!
# Proofs/SignedDivision — signed unbounded division truncates

The magnitudes are divided as numerals and the signs restored. This divides the integers by truncation wherever
magnitudes are absolute values, for signed and for finite unsigned operands alike.

* `Unbounded.toNat_magnitude`, `Unbounded.toInt_withSign`: into magnitudes and back.
* `Unbounded.divideMagnitudes_truncates`, `Unbounded.divide_truncates`: finite values of either kind.
* `Unbounded.divide_signed`: every dividend by every divisor; `Unbounded.signed_divide_truncates`.
-/

namespace TwosComplement

/-! ## Magnitudes and signs -/

namespace Unbounded

variable {s : Signedness}

theorem toNat_body (x : Unbounded s) (h : 0 ≤ x.toInt) : x.body.toNat = x.toInt.natAbs := by
  have hfill := x.fill_eq_false_iff.mpr h
  have hvalue : x.toInt = x.body.toNat - if x.fill then 2 ^ (64 * x.body.length) else 0 := rfl
  rw [hfill] at hvalue
  simp only [Bool.false_eq_true, if_false] at hvalue
  omega

theorem toInt_magnitude_of_finite {x : Unbounded s} (h : x.infinite = false) : x.magnitude.toInt = |x.toInt| := by
  cases s with
  | signed => exact toInt_magnitude x
  | unsigned =>
    rw [abs_of_nonneg (x.fill_eq_false_iff.mp h)]
    exact toInt_ofStream x.toWordStream

theorem toNat_magnitude {x : Unbounded s} (h : x.infinite = false) :
    x.magnitude.body.toNat = x.toInt.natAbs := by
  have hvalue := toInt_magnitude_of_finite h
  rw [toNat_body _ (by rw [hvalue]; exact abs_nonneg _), hvalue, Int.natAbs_abs]

theorem toInt_withSign (words : Numeral 64) (negative : Bool) :
    (withSign words negative : Unbounded s).toInt = (Sign.ofBit negative).apply words.toNat := by
  have h : (ofNumeral words : Unbounded s).toInt = words.toNat :=
    (toInt_ofStream _).trans (by simp [WordStream.toInt])
  cases negative
  · exact h
  · exact (toInt_neg _).trans (congrArg Neg.neg h)

theorem toInt_ne_zero (d : Nonzero (Unbounded s)) : d.val.toInt ≠ 0 := fun h =>
  d.ne_zero (toInt_injective (h.trans toInt_zero.symm))

/-! ## Finite values -/

variable {x : Unbounded s} {d : Nonzero (Unbounded s)}

/-- Wherever magnitudes are absolute values, dividing them and restoring the signs is truncated division. -/
theorem divideMagnitudes_truncates (hx : x.infinite = false) (hd : d.val.infinite = false) :
    ∃ q r : Unbounded s, divideMagnitudes x d.val = .ok ⟨q, r⟩ ∧ q.toInt = x.toInt.tdiv d.val.toInt ∧
      r.toInt = x.toInt.tmod d.val.toInt := by
  have hpos : 0 < d.val.magnitude.body.toNat := by
    rw [toNat_magnitude hd]
    exact Int.natAbs_pos.mpr (toInt_ne_zero d)
  obtain ⟨q, r, h, hq, hr⟩ := Numeral.divide_of_pos x.magnitude.body hpos
  rw [toNat_magnitude hx, toNat_magnitude hd] at hq hr
  have hsign : Sign.ofBit (x.fill != d.val.fill) =
      if Sign.ofBit x.fill = Sign.ofBit d.val.fill then Sign.plus else Sign.minus := by
    cases x.fill <;> cases d.val.fill <;> rfl
  have hxvalue := Sign.apply_natAbs x.fill_iff
  have hdvalue := Sign.apply_natAbs d.val.fill_iff
  refine ⟨withSign q (x.fill != d.val.fill), withSign r x.fill, ?_, ?_, ?_⟩
  · unfold divideMagnitudes
    rw [h]
    rfl
  · rw [toInt_withSign, hsign, hq, ← Sign.tdiv_apply, hxvalue, hdvalue]
  · rw [toInt_withSign, hr, ← Sign.tmod_apply _ (Sign.ofBit d.val.fill), hxvalue, hdvalue]

theorem divide_eq_divideMagnitudes (hx : x.infinite = false) (hd : d.val.infinite = false) :
    x.divide d = (divideMagnitudes x d.val).map .ok := by
  cases s with
  | signed => rfl
  | unsigned =>
    have hxfill : x.fill = false := hx
    have hdfill : d.val.fill = false := hd
    unfold divide
    simp only [hxfill, hdfill]
    rfl

/-- Values that are not infinite divide by truncation, whatever the lengths of their magnitudes. -/
theorem divide_truncates (hx : x.infinite = false) (hd : d.val.infinite = false) :
    ∃ q r : Unbounded s, x.divide d = .ok (.ok ⟨q, r⟩) ∧ q.toInt = x.toInt.tdiv d.val.toInt ∧
      r.toInt = x.toInt.tmod d.val.toInt := by
  obtain ⟨q, r, h, hq, hr⟩ := divideMagnitudes_truncates hx hd
  refine ⟨q, r, ?_, hq, hr⟩
  rw [divide_eq_divideMagnitudes hx hd, h]
  rfl

/-- Signed values are never infinite. -/
theorem divide_signed (x : Unbounded .signed) (d : Nonzero (Unbounded .signed)) :
    ∃ q r : Unbounded .signed, x.divide d = .ok (.ok ⟨q, r⟩) ∧ q.toInt = x.toInt.tdiv d.val.toInt ∧
      r.toInt = x.toInt.tmod d.val.toInt :=
  divide_truncates rfl rfl

/-! ## The contract -/

/-- A truncated remainder is zero or on the dividend's side of it. -/
theorem negative_of_toInt_eq_tmod {x r : Unbounded .signed} {n : ℤ} (h : r.toInt = x.toInt.tmod n) :
    r = 0 ∨ r.negative = x.negative := by
  have hsign := Int.sign_tmod x.toInt n
  rw [← h] at hsign
  by_cases hdvd : n ∣ x.toInt
  · left
    rw [if_pos hdvd, Int.sign_eq_zero_iff_zero] at hsign
    exact toInt_injective (hsign.trans toInt_zero.symm)
  · right
    rw [if_neg hdvd] at hsign
    rw [Bool.eq_iff_iff, negative_iff, negative_iff, ← Int.sign_eq_neg_one_iff_neg, hsign, Int.sign_eq_neg_one_iff_neg]

/-- **Signed division truncates.**  Every dividend is divided by every divisor but zero, of whatever lengths, without a
fault and without a flag.  Quotient times divisor and remainder are the dividend, and the remainder is smaller than the
divisor and zero or of the dividend's sign; the two operations that give one result give the same. -/
theorem signed_divide_truncates (x : Unbounded .signed) (d : Nonzero (Unbounded .signed)) :
    ∃ q r : Unbounded .signed, x.divide d = .ok (.ok ⟨q, r⟩) ∧ x.quotient d = .ok (.ok q) ∧
      x.remainder d = .ok (.ok r) ∧ x.toInt = q.toInt * d.val.toInt + r.toInt ∧
      |r.toInt| < |d.val.toInt| ∧ (r = 0 ∨ r.negative = x.negative) := by
  obtain ⟨q, r, hdivide, hq, hr⟩ := divide_signed x d
  refine ⟨q, r, hdivide, ?_, ?_, ?_, ?_, negative_of_toInt_eq_tmod hr⟩
  · unfold quotient
    rw [hdivide]
    rfl
  · unfold remainder
    rw [hdivide]
    rfl
  · rw [hq, hr, Int.tdiv_mul_add_tmod]
  · have hlt := Nat.mod_lt x.toInt.natAbs (Int.natAbs_pos.mpr (toInt_ne_zero d))
    rw [hr, Int.abs_eq_natAbs, Int.abs_eq_natAbs, Int.natAbs_tmod]
    exact_mod_cast hlt

end Unbounded

end TwosComplement
