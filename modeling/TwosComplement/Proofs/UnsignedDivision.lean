import TwosComplement.Proofs.OneWordDivision
import TwosComplement.Proofs.UnboundedOrder
import TwosComplement.Proofs.UnsignedReadings

/-!
# Proofs/UnsignedDivision — unsigned unbounded division is Euclidean wherever it can be

Dividing an unsigned value is asking for a multiple of the divisor that leaves less than the divisor, in the integer
polynomials that the values are read as. By coefficients this comes down to integers, and to three cases by which of the
two operands are infinite.

* `Unbounded.Euclidean`: quotients and remainders in the readings; `Unbounded.euclidean_iff` has the coefficients.
* `Unbounded.euclidean_finite_iff`, `Unbounded.euclidean_by_infinite_iff`, `Unbounded.euclidean_infinite_iff`: which they
  are, if there are any.
* `Unbounded.divide_by_infinite`, `Unbounded.divide_infinite`, `Unbounded.divide_finite`: what the division answers in each
  case.
* `Unbounded.divide_settles`: the division finds them, or there is a reason why there are none.
* `Unbounded.unsigned_divide_euclidean`: the contract.
-/

namespace TwosComplement

namespace Unbounded

/-! ## Quotients and remainders -/

section Readings

open Polynomial

/-- Quotient and remainder by the readings: the remainder is below the divisor, polynomials being ordered by the leading
coefficient of their difference. -/
structure Euclidean (x d q r : Unbounded .unsigned) : Prop where
  reading_eq : reading x = reading q * reading d + reading r
  below : 0 < (reading d - reading r).leadingCoeff

variable {x d q r : Unbounded .unsigned}

theorem euclidean_iff : Euclidean x d q r ↔
    (infinities q.toInt * infinities d.toInt = 0 ∧
      infinities q.toInt * d.toInt + infinities d.toInt * q.toInt + infinities r.toInt = infinities x.toInt ∧
      q.toInt * d.toInt + r.toInt = x.toInt) ∧ compare r d = .lt := by
  have hsum : reading q * reading d + reading r = C (infinities q.toInt * infinities d.toInt) * X ^ 2 +
      C (infinities q.toInt * d.toInt + infinities d.toInt * q.toInt + infinities r.toInt) * X +
      C (q.toInt * d.toInt + r.toInt) := by
    rw [reading_eq, reading_eq, reading_eq]
    simp only [C_add, C_mul]
    ring
  have hx : reading x = C 0 * X ^ 2 + C (infinities x.toInt) * X + C x.toInt := by
    rw [reading_eq, C_0, zero_mul, zero_add]
  rw [compare_lt_iff_leadingCoeff, ← quadratic_inj, ← hsum, ← hx]
  exact ⟨fun h => ⟨h.reading_eq.symm, h.below⟩, fun h => ⟨h.1.symm, h.2⟩⟩

end Readings

variable {x d q r : Unbounded .unsigned}

theorem euclidean_finite_iff (hx : 0 ≤ x.toInt) (hd : 0 < d.toInt) :
    Euclidean x d q r ↔ q.toInt = x.toInt / d.toInt ∧ r.toInt = x.toInt % d.toInt := by
  rw [euclidean_iff, compare_unsigned_lt, infinities_of_nonneg hx, infinities_of_nonneg hd.le]
  constructor
  · rintro ⟨⟨-, -, hsum⟩, hlt⟩
    -- what is below a finite divisor is finite
    have hr : 0 ≤ r.toInt ∧ r.toInt < d.toInt := by omega
    obtain ⟨hq, hr⟩ := (Int.ediv_emod_unique hd).mpr ⟨(add_comm _ _).trans (by rw [mul_comm, hsum]), hr⟩
    exact ⟨hq.symm, hr.symm⟩
  · rintro ⟨hq, hr⟩
    have hq0 : 0 ≤ q.toInt := by
      rw [hq]
      exact Int.ediv_nonneg hx hd.le
    have hr0 : 0 ≤ r.toInt ∧ r.toInt < d.toInt := by
      rw [hr]
      exact ⟨Int.emod_nonneg _ hd.ne', Int.emod_lt_of_pos _ hd⟩
    have hsum : q.toInt * d.toInt + r.toInt = x.toInt := by
      rw [hq, hr, mul_comm, Int.mul_ediv_add_emod]
    rw [infinities_of_nonneg hq0, infinities_of_nonneg hr0.1]
    exact ⟨⟨by simp, by simp, hsum⟩, by omega⟩

/-- By an infinite value the quotient is a bit. -/
theorem Euclidean.quotient_bit (h : Euclidean x d q r) (hd : d.toInt < 0) :
    (q = 0 ∨ q = 1) ∧ q.toInt + infinities r.toInt = infinities x.toInt := by
  rw [euclidean_iff, infinities_of_neg hd] at h
  obtain ⟨⟨hquad, hlin, -⟩, -⟩ := h
  rw [mul_one] at hquad
  rw [hquad, zero_mul, zero_add, one_mul] at hlin
  -- two infinities would multiply to a square, which no dividend has
  have hq : 0 ≤ q.toInt := by
    by_contra hneg
    rw [infinities_of_neg (not_le.mp hneg)] at hquad
    exact one_ne_zero hquad
  -- each of them counts one infinity, and the dividend has one at most
  have hbit : q.toInt = 0 ∨ q.toInt = 1 := by
    rcases infinities_eq_zero_or_one x.toInt with hx | hx <;>
      rcases infinities_eq_zero_or_one r.toInt with hr | hr <;> omega
  exact ⟨hbit.imp toInt_injective fun hone => toInt_injective (hone.trans toInt_one.symm), hlin⟩

theorem euclidean_by_infinite_iff (hd : d.toInt < 0) :
    Euclidean x d q r ↔ if compare x d = .lt then q = 0 ∧ r = x else q = 1 ∧ r = x - d := by
  constructor
  · intro h
    obtain ⟨hbit, hlin⟩ := h.quotient_bit hd
    obtain ⟨⟨-, -, hsum⟩, hlt⟩ := euclidean_iff.mp h
    rcases hbit with rfl | rfl
    · rw [toInt_zero, zero_mul, zero_add] at hsum
      obtain rfl : r = x := toInt_injective hsum
      rw [if_pos hlt]
      exact ⟨rfl, rfl⟩
    · rw [toInt_one, one_mul] at hsum
      rw [toInt_one] at hlin
      have hr : r = x - d := toInt_injective (by rw [toInt_hSub]; omega)
      -- the divisor takes the infinity of the dividend, and what is left is finite
      have hle : compare x d ≠ .lt := by
        rw [Ne, compare_unsigned_lt]
        unfold infinities at hlin
        split_ifs at hlin <;> omega
      rw [if_neg hle]
      exact ⟨rfl, hr⟩
  · rw [euclidean_iff, infinities_of_neg hd]
    by_cases hlt : compare x d = .lt
    · rw [if_pos hlt]
      rintro ⟨rfl, rfl⟩
      simp [infinities, hlt]
    · rw [if_neg hlt]
      rintro ⟨rfl, rfl⟩
      rw [compare_unsigned_lt] at hlt ⊢
      rw [toInt_hSub, toInt_one]
      unfold infinities
      split_ifs <;> omega

/-- Of an infinite value by a finite one there are none, unless the divisor is one. -/
theorem euclidean_infinite_iff (hx : x.toInt < 0) (hd : 0 < d.toInt) :
    Euclidean x d q r ↔ d = 1 ∧ q = x ∧ r = 0 := by
  rw [euclidean_iff, compare_unsigned_lt, infinities_of_neg hx, infinities_of_nonneg hd.le]
  constructor
  · rintro ⟨⟨-, hlin, hsum⟩, hlt⟩
    have hr : infinities r.toInt = 0 := infinities_of_nonneg (by omega)
    rw [hr, zero_mul, add_zero, add_zero] at hlin
    have hd1 : d.toInt = 1 := by
      rcases infinities_eq_zero_or_one q.toInt with hq | hq
      · rw [hq, zero_mul] at hlin
        exact absurd hlin zero_ne_one
      · rwa [hq, one_mul] at hlin
    have hr0 : r.toInt = 0 := by omega
    rw [hd1, mul_one, hr0, add_zero] at hsum
    exact ⟨toInt_injective (hd1.trans toInt_one.symm), toInt_injective hsum, toInt_injective hr0⟩
  · rintro ⟨rfl, rfl, rfl⟩
    rw [infinities_of_neg hx]
    simp [infinities]

theorem not_euclidean {d : Nonzero (Unbounded .unsigned)} (h : x.fill = true ∧ d.val.fill = false ∧ d.val ≠ 1) (q r) :
    ¬Euclidean x d.val q r := by
  obtain ⟨hx, hd, hone⟩ := h
  have hd := lt_of_le_of_ne (d.val.fill_eq_false_iff.mp hd) (toInt_ne_zero d).symm
  exact fun h => hone ((euclidean_infinite_iff (x.fill_iff.mp hx) hd).mp h).1

/-! ## The division -/

section Division

variable {x : Unbounded .unsigned} {d : Nonzero (Unbounded .unsigned)}

theorem divide_by_infinite (hd : d.val.toInt < 0) :
    x.divide d = .ok (.ok (if compare x d.val = .lt then ⟨0, x⟩ else ⟨1, x - d.val⟩)) := by
  have hdfill := d.val.fill_iff.mpr hd
  cases hxfill : x.fill with
  | false =>
    have hlt := (compare_unsigned_lt x d.val).mpr (.inl ⟨x.fill_eq_false_iff.mp hxfill, hd⟩)
    unfold divide
    simp only [hxfill, hdfill]
    rw [if_pos hlt]
    rfl
  | true =>
    have hx := x.fill_iff.mp hxfill
    -- below zero the division compares the negations, which are in the opposite order
    have hneg : (compare x.neg.value d.val.neg.value).isLE = true ↔ ¬compare x d.val = .lt := by
      rw [Ordering.isLE_iff_ne_gt, Std.OrientedCmp.gt_iff_lt, compare_unsigned_lt, compare_unsigned_lt, toInt_neg,
        toInt_neg]
      omega
    unfold divide
    simp only [hxfill, hdfill]
    by_cases hlt : compare x d.val = .lt
    · rw [if_pos hlt]
      exact if_neg (mt hneg.mp (not_not.mpr hlt))
    · rw [if_neg hlt]
      exact if_pos (hneg.mpr hlt)

theorem divide_infinite (hx : x.toInt < 0) (hd : 0 < d.val.toInt) :
    x.divide d = .ok (if d.val = 1 then .ok ⟨x, 0⟩ else .inexact ⟨x, 0⟩) := by
  rw [divide_of_infinite (x.fill_iff.mpr hx) (d.val.fill_eq_false_iff.mpr hd.le)]
  by_cases hone : d.val = 1
  · have hbit : d.val.isBit = true := by
      rw [hone]
      decide
    rw [hbit, if_pos hone]
    rfl
  · have hbit : d.val.isBit = false := by
      rw [← Bool.not_eq_true, isBit_iff, ← toInt_one, toInt_inj]
      exact not_or.mpr ⟨toInt_ne_zero d, hone⟩
    rw [hbit, if_neg hone]
    rfl

theorem divide_finite (hx : 0 ≤ x.toInt) (hd : 0 < d.val.toInt) : ∃ q r, x.divide d = .ok (.ok ⟨q, r⟩) ∧
    q.toInt = x.toInt / d.val.toInt ∧ r.toInt = x.toInt % d.val.toInt := by
  have hxfinite := infinite_of_fill (x.fill_eq_false_iff.mpr hx)
  have hdfinite := infinite_of_fill (d.val.fill_eq_false_iff.mpr hd.le)
  obtain ⟨q, r, hdivide, hq, hr⟩ := divide_truncates hxfinite hdfinite
  rw [Int.tdiv_eq_ediv_of_nonneg hx] at hq
  rw [Int.tmod_eq_emod_of_nonneg hx] at hr
  exact ⟨q, r, hdivide, hq, hr⟩

/-- The division answers without a flag with the one quotient and the one remainder that there are, and with a flag only
where there are none. -/
theorem divide_settles (x : Unbounded .unsigned) (d : Nonzero (Unbounded .unsigned)) :
    (∃ q r, x.divide d = .ok (.ok ⟨q, r⟩) ∧ ∀ q' r', Euclidean x d.val q' r' ↔ q' = q ∧ r' = r) ∨
    (x.divide d = .ok (.inexact ⟨x, 0⟩) ∧ x.fill = true ∧ d.val.fill = false ∧ d.val ≠ 1) := by
  -- by an infinite divisor; then an infinite dividend; then two numbers
  rcases lt_or_gt_of_ne (toInt_ne_zero d) with hd | hd
  · left
    rw [divide_by_infinite hd]
    simp only [euclidean_by_infinite_iff hd]
    by_cases hlt : compare x d.val = .lt
    · exact ⟨0, x, by rw [if_pos hlt], fun q' r' => by rw [if_pos hlt]⟩
    · exact ⟨1, x - d.val, by rw [if_neg hlt], fun q' r' => by rw [if_neg hlt]⟩
  rcases lt_or_ge x.toInt 0 with hx | hx
  · rw [divide_infinite hx hd]
    by_cases hone : d.val = 1
    · rw [if_pos hone]
      exact .inl ⟨x, 0, rfl, fun q' r' => (euclidean_infinite_iff hx hd).trans (and_iff_right hone)⟩
    · rw [if_neg hone]
      exact .inr ⟨rfl, x.fill_iff.mpr hx, d.val.fill_eq_false_iff.mpr hd.le, hone⟩
  · obtain ⟨q, r, hdivide, hq, hr⟩ := divide_finite hx hd
    refine .inl ⟨q, r, hdivide, fun q' r' => ?_⟩
    rw [euclidean_finite_iff hx hd, ← hq, ← hr, toInt_inj, toInt_inj]

end Division

/-! ## The contract -/

/-- **Unsigned unbounded division finds the quotient and remainder wherever there are any.** In the readings, in which
an infinite value is an indeterminate plus a negative number: what is returned without a flag is quotient and remainder,
there are no others, and there being none is what the flag says, of an infinite value and a finite divisor other than
one. Some result is always returned. -/
theorem unsigned_divide_euclidean (x : Unbounded .unsigned) (d : Nonzero (Unbounded .unsigned)) :
    (∀ q r, Euclidean x d.val q r ↔ x.divide d = .ok (.ok ⟨q, r⟩)) ∧
    {p : Unbounded .unsigned × Unbounded .unsigned | Euclidean x d.val p.1 p.2}.Subsingleton ∧
    ((∀ q r, ¬Euclidean x d.val q r) ↔ x.divide d = .ok (.inexact ⟨x, 0⟩)) ∧
    ((∀ q r, ¬Euclidean x d.val q r) ↔ x.fill = true ∧ d.val.fill = false ∧ d.val ≠ 1) ∧
    ∃ result, x.divide d = .ok result := by
  rcases divide_settles x d with ⟨q, r, hdivide, hqr⟩ | ⟨hdivide, hx, hd, hone⟩
  · have hsome : ¬∀ q r, ¬Euclidean x d.val q r := fun hnone => hnone q r ((hqr q r).mpr ⟨rfl, rfl⟩)
    have hfills : ¬(x.fill = true ∧ d.val.fill = false ∧ d.val ≠ 1) := fun h => hsome (not_euclidean h)
    rw [hdivide]
    refine ⟨fun q' r' => ?_, ?_, iff_of_false hsome (by simp [Flagged.ok, Flagged.inexact]), iff_of_false hsome hfills,
      _, rfl⟩
    · rw [hqr]
      simp [Flagged.ok, eq_comm]
    · rintro ⟨q₁, r₁⟩ h₁ ⟨q₂, r₂⟩ h₂
      obtain ⟨rfl, rfl⟩ := (hqr q₁ r₁).mp h₁
      obtain ⟨rfl, rfl⟩ := (hqr q₂ r₂).mp h₂
      rfl
  · have hnone := not_euclidean ⟨hx, hd, hone⟩
    rw [hdivide]
    exact ⟨fun q r => iff_of_false (hnone q r) (by simp [Flagged.ok, Flagged.inexact]),
      fun p hp => absurd hp (hnone p.1 p.2), iff_of_true hnone rfl, iff_of_true hnone ⟨hx, hd, hone⟩, _, rfl⟩

-- the greatest value by one a little below it, and by five
example : (-1 : Unbounded .unsigned).divide ⟨-ofWord 10, by decide⟩ = .ok (.ok ⟨1, ofWord 9⟩) := by rfl

example : (-1 : Unbounded .unsigned).divide (wordDivisor ⟨5, by decide⟩) = .ok (.inexact ⟨-1, 0⟩) := by rfl

end Unbounded

end TwosComplement
