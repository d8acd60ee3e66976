import TwosComplement.Proofs.StreamArithmetic
import TwosComplement.Proofs.StreamShift
import TwosComplement.Unbounded.Arithmetic

/-!
# Proofs/UnboundedValue — operations and order of unbounded integers by value

* `Unbounded.toInt_add`, `Unbounded.toInt_sub`, `Unbounded.toInt_mul`, `Unbounded.toInt_neg`: values under any flag.
* `Unbounded.toInt_hShiftLeft`, `Unbounded.toInt_hShiftRight`, `Unbounded.toInt_complement`: shifts and the complement.
* `Unbounded.isBit_iff`, `Unbounded.negative_iff`, `Unbounded.toInt_magnitude`: the views by value.
* `Unbounded.length_body_le_iff`: how many words a value takes.
* `Unbounded.compare_eq`: the order, infinite values above finite ones.
-/

namespace TwosComplement

namespace Unbounded

variable {s : Signedness}

/-! ## Values -/

@[simp] theorem toInt_zero : (0 : Unbounded s).toInt = 0 := rfl

@[simp] theorem toInt_one : (1 : Unbounded s).toInt = 1 := by
  show (ofStream ⟨[1], false⟩ : Unbounded s).toInt = 1
  rw [toInt_ofStream]
  rfl

@[simp] theorem toInt_add (x y : Unbounded s) : (x.add y).value.toInt = x.toInt + y.toInt :=
  (toInt_ofStream _).trans (WordStream.toInt_add _ _)

@[simp] theorem toInt_sub (x y : Unbounded s) : (x.sub y).value.toInt = x.toInt - y.toInt :=
  (toInt_ofStream _).trans (WordStream.toInt_sub _ _)

@[simp] theorem toInt_mul (x y : Unbounded s) : (x.mul y).value.toInt = x.toInt * y.toInt :=
  (toInt_ofStream _).trans (WordStream.toInt_mul _ _)

@[simp] theorem toInt_neg (x : Unbounded s) : x.neg.value.toInt = -x.toInt := by
  unfold neg
  rw [toInt_sub, toInt_zero, zero_sub]

theorem toInt_inj {x y : Unbounded s} : x.toInt = y.toInt ↔ x = y :=
  ⟨toInt_injective, fun h => by rw [h]⟩

/-! ## Operators -/

@[simp] theorem toInt_hAdd (x y : Unbounded s) : (x + y).toInt = x.toInt + y.toInt := toInt_add x y

@[simp] theorem toInt_hSub (x y : Unbounded s) : (x - y).toInt = x.toInt - y.toInt := toInt_sub x y

@[simp] theorem toInt_hMul (x y : Unbounded s) : (x * y).toInt = x.toInt * y.toInt := toInt_mul x y

@[simp] theorem toInt_neg_op (x : Unbounded s) : (-x).toInt = -x.toInt := toInt_neg x

@[simp] theorem toInt_hShiftLeft (x : Unbounded s) (d : ℕ) : (x <<< d).toInt = x.toInt * 2 ^ d :=
  (toInt_ofStream _).trans (WordStream.toInt_shiftLeft _ d)

@[simp] theorem toInt_hShiftRight (x : Unbounded s) (d : ℕ) : (x >>> d).toInt = x.toInt / 2 ^ d :=
  (toInt_ofStream _).trans (WordStream.toInt_shiftRight _ d)

@[simp] theorem toInt_complement (x : Unbounded s) : (~~~x).toInt = -x.toInt - 1 :=
  (toInt_ofStream _).trans (WordStream.toInt_complement _)

/-! ## Views -/

theorem isBit_iff (x : Unbounded s) : x.isBit = true ↔ x.toInt = 0 ∨ x.toInt = 1 := by
  have h0 : x.toInt = 0 ↔ x.fill = false ∧ x.body = [] := by
    rw [← toInt_zero (s := s), toInt_inj]
    refine ⟨fun h => ?_, fun h => ext h.2 h.1⟩
    rw [h]
    exact ⟨rfl, rfl⟩
  have h1 : x.toInt = 1 ↔ x.fill = false ∧ x.body = [1] := by
    rw [← toInt_one (s := s), toInt_inj]
    refine ⟨fun h => ?_, fun h => ext h.2 h.1⟩
    rw [h]
    exact ⟨rfl, rfl⟩
  rw [h0, h1]
  simp [isBit, and_or_left]

theorem negative_iff (x : Unbounded .signed) : x.negative = true ↔ x.toInt < 0 := x.fill_iff

theorem toInt_magnitude (x : Unbounded .signed) : x.magnitude.toInt = |x.toInt| := by
  unfold magnitude
  rw [toInt_ofStream]
  by_cases h : x.toInt < 0
  · rw [if_pos (x.negative_iff.mpr h), toInt_neg, abs_of_neg h]
  · rw [if_neg (mt x.negative_iff.mp h), abs_of_nonneg (not_lt.mp h)]

/-! ## Length -/

/-- How many words a value takes: those that it needs to tell it from the values of the other sign. -/
theorem length_body_le_iff {x : Unbounded s} {k : ℕ} :
    x.body.length ≤ k ↔ -2 ^ (64 * k) ≤ x.toInt ∧ x.toInt < 2 ^ (64 * k) := by
  refine ⟨WordStream.toInt_bounds_of_le, fun h => ?_⟩
  have hlen := x.trimmed.length_le (WordStream.toInt_wordsOf h)
  simpa [WordStream.wordsOf] using hlen

theorem length_body_of_eq_neg_two_pow {x : Unbounded s} {k : ℕ} (h : x.toInt = -2 ^ (64 * k)) :
    x.body.length = k := by
  have hp : (0 : ℤ) < 2 ^ (64 * k) := by positivity
  refine Nat.le_antisymm (length_body_le_iff.mpr (by omega)) (Nat.le_of_not_lt fun hlt => ?_)
  have hbounds := (length_body_le_iff (x := x)).mp le_rfl
  have hpow : (2 : ℤ) ^ (64 * x.body.length) < 2 ^ (64 * k) := pow_lt_pow_right₀ (by norm_num) (by omega)
  omega

theorem length_body_of_eq_two_pow {x : Unbounded s} {k : ℕ} (h : x.toInt = 2 ^ (64 * k)) :
    x.body.length = k + 1 := by
  have hp : (0 : ℤ) < 2 ^ (64 * k) := by positivity
  have hroom := WordStream.four_mul_base_lt k
  refine Nat.le_antisymm (length_body_le_iff.mpr (by omega)) (Nat.lt_of_not_le fun hle => ?_)
  have hbounds := length_body_le_iff.mp hle
  omega

/-! ## Order -/

theorem toNat_pad (x : Unbounded s) {k : ℕ} (h : x.body.length ≤ k) :
    ((x.pad k).toNat : ℤ) = x.toInt + if x.fill then 2 ^ (64 * k) else 0 := by
  rw [WordStream.pad_eq_wordsOf h, WordStream.toNat_wordsOf,
    WordStream.emod_eq_of_sign (WordStream.toInt_bounds_of_le h)]
  simp only [x.fill_iff]

/-- The order: by the fill when the fills differ, otherwise by the value. -/
theorem compare_eq (x y : Unbounded s) :
    compare x y = if x.fill = y.fill then compare x.toInt y.toInt
      else if x.fill = s.isSigned then .lt else .gt := by
  show (if x.fill != y.fill then (if s.isSigned == x.fill then Ordering.lt else Ordering.gt)
    else Numeral.compare (x.pad (max x.body.length y.body.length)) (y.pad (max x.body.length y.body.length))) = _
  by_cases h : x.fill = y.fill
  · have hx := x.toNat_pad (k := max x.body.length y.body.length) (by omega)
    have hy := y.toNat_pad (k := max x.body.length y.body.length) (by omega)
    rw [h] at hx
    rw [if_pos h, if_neg (by simp [h]), Numeral.compare_eq_compare_toNat
      ((WordStream.length_pad (by omega)).trans (WordStream.length_pad (by omega)).symm)]
    rcases lt_trichotomy x.toInt y.toInt with h1 | h1 | h1
    · rw [compare_lt_iff_lt.mpr h1, compare_lt_iff_lt.mpr (by omega)]
    · rw [compare_eq_iff_eq.mpr h1, compare_eq_iff_eq.mpr (by omega)]
    · rw [compare_gt_iff_gt.mpr h1, compare_gt_iff_gt.mpr (by omega)]
  · rw [if_neg h, if_pos (by simpa using h)]
    simp only [beq_iff_eq, eq_comm (a := s.isSigned)]

theorem compare_signed (x y : Unbounded .signed) : compare x y = compare x.toInt y.toInt := by
  rw [compare_eq]
  by_cases h : x.fill = y.fill
  · rw [if_pos h]
  · have hsign : ¬ (x.toInt < 0 ↔ y.toInt < 0) := by
      rw [← x.fill_iff, ← y.fill_iff, ← Bool.eq_iff_iff]
      exact h
    rw [if_neg h, Signedness.isSigned]
    by_cases hx : x.toInt < 0
    · rw [if_pos (x.fill_iff.mpr hx), compare_lt_iff_lt.mpr (by omega)]
    · rw [if_neg (mt x.fill_iff.mp hx), compare_gt_iff_gt.mpr (by omega)]

end Unbounded

end TwosComplement
