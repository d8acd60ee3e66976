import Mathlib.Algebra.Polynomial.Degree.SmallDegree
import Mathlib.Tactic.LinearCombination
import TwosComplement.Proofs.UnboundedValue

/-!
# Proofs/UnsignedReadings — what the flags of unsigned unbounded arithmetic mean

An unsigned value with a clear fill is a natural number. One with a set fill is read as an infinity plus a negative
integer, and the infinity as an indeterminate above every number. The readings are some of the integer polynomials;
arithmetic is flagged when the exact polynomial is not among them.

* `Unbounded.reading`: the polynomial that an unsigned value denotes.
* `Unbounded.exists_reading_iff`: one stream at most has a given reading, that of the constant coefficient.
* `Unbounded.unsigned_reads_exactly`: values and flags of sum, difference, product and negation, and the order.
-/

namespace TwosComplement

namespace Unbounded

open Polynomial

/-! ## Readings -/

/-- The polynomial that an unsigned value denotes: the indeterminate is the infinity of a set fill. -/
noncomputable def reading (x : Unbounded .unsigned) : ℤ[X] := (if x.fill then X else 0) + C x.toInt

/-- How many infinities a value with this two's complement has. -/
def infinities (n : ℤ) : ℤ := if n < 0 then 1 else 0

theorem infinities_of_neg {n : ℤ} (h : n < 0) : infinities n = 1 := if_pos h

theorem infinities_of_nonneg {n : ℤ} (h : 0 ≤ n) : infinities n = 0 := if_neg (not_lt.mpr h)

theorem infinities_eq_zero_or_one (n : ℤ) : infinities n = 0 ∨ infinities n = 1 := by
  rcases lt_or_ge n 0 with h | h
  · exact .inr (infinities_of_neg h)
  · exact .inl (infinities_of_nonneg h)

theorem reading_eq (x : Unbounded .unsigned) : reading x = C (infinities x.toInt) * X + C x.toInt := by
  unfold reading infinities
  by_cases h : x.toInt < 0
  · rw [if_pos (x.fill_iff.mpr h), if_pos h, C_1, one_mul]
  · rw [if_neg (mt x.fill_iff.mp h), if_neg h, C_0, zero_mul]

theorem coeff_zero_reading (x : Unbounded .unsigned) : (reading x).coeff 0 = x.toInt := by
  rw [reading_eq]
  simp

/-- A polynomial is read off a value just when it is read off the value of its constant coefficient. -/
theorem exists_reading_iff {x : Unbounded .unsigned} {p : ℤ[X]} (h : x.toInt = p.coeff 0) :
    (∃ z, reading z = p) ↔ reading x = p := by
  refine ⟨fun ⟨z, hz⟩ => ?_, fun hx => ⟨x, hx⟩⟩
  have hzx : z = x := toInt_injective (by rw [h, ← hz, coeff_zero_reading])
  rwa [hzx] at hz

theorem coeff_quadratic (a b c : ℤ) (i : ℕ) : (C a * X ^ 2 + C b * X + C c : ℤ[X]).coeff i =
    a * (if i = 2 then 1 else 0) + b * (if 1 = i then 1 else 0) + if i = 0 then c else 0 := by
  rw [coeff_add, coeff_add, coeff_C_mul, coeff_C_mul, coeff_X_pow, coeff_X, coeff_C]

theorem quadratic_inj {a b c a' b' c' : ℤ} :
    (C a * X ^ 2 + C b * X + C c : ℤ[X]) = C a' * X ^ 2 + C b' * X + C c' ↔ a = a' ∧ b = b' ∧ c = c' := by
  constructor
  · intro h
    have hc := fun i => congrArg (fun p => coeff p i) h
    simp only [coeff_quadratic] at hc
    exact ⟨by simpa using hc 2, by simpa using hc 1, by simpa using hc 0⟩
  · rintro ⟨rfl, rfl, rfl⟩
    rfl

/-- When a value has a quadratic polynomial as its reading. -/
theorem reading_eq_iff {x : Unbounded .unsigned} {a b : ℤ} :
    reading x = C a * X ^ 2 + C b * X + C x.toInt ↔ a = 0 ∧ b = infinities x.toInt := by
  have h : reading x = C 0 * X ^ 2 + C (infinities x.toInt) * X + C x.toInt := by
    rw [reading_eq, C_0, zero_mul, zero_add]
  rw [h, quadratic_inj]
  simp only [and_true, eq_comm]

/-! ## Flags -/

/-- A flagged result for an exact value: the integer part is right under any flag, and the flag is clear just when
the exact value can be read off some unsigned value, the result being that one. -/
structure ReadsExactly (result : Flagged (Unbounded .unsigned)) (n : ℤ) (p : ℤ[X]) : Prop where
  toInt : result.value.toInt = n
  flag_iff : result.flag = false ↔ ∃ z, reading z = p
  reading : result.flag = false → Unbounded.reading result.value = p

theorem readsExactly {result : Flagged (Unbounded .unsigned)} {n a b : ℤ} {p : ℤ[X]} (hn : result.value.toInt = n)
    (hp : p = C a * X ^ 2 + C b * X + C n) (hflag : result.flag = false ↔ a = 0 ∧ b = infinities n) :
    ReadsExactly result n p := by
  have h0 : result.value.toInt = p.coeff 0 := by
    rw [hp, hn]
    simp
  have h1 : result.flag = false ↔ Unbounded.reading result.value = p := by
    rw [hflag, hp, ← hn, reading_eq_iff]
  exact ⟨hn, h1.trans (exists_reading_iff h0).symm, h1.mp⟩

theorem add_flag (x y : Unbounded .unsigned) : (x.add y).flag = true ↔
    x.toInt < 0 ∧ y.toInt < 0 ∨ (x.toInt < 0 ∨ y.toInt < 0) ∧ 0 ≤ x.toInt + y.toInt := by
  show (x.fill && y.fill || (x.fill || y.fill) && !(x.add y).value.fill) = true ↔ _
  simp only [Bool.or_eq_true, Bool.and_eq_true, Bool.not_eq_true', WordStream.fill_iff, WordStream.fill_eq_false_iff,
    toInt_add]

theorem sub_flag (x y : Unbounded .unsigned) : (x.sub y).flag = true ↔
    0 ≤ x.toInt ∧ y.toInt < 0 ∨ (x.toInt < 0 ↔ y.toInt < 0) ∧ x.toInt - y.toInt < 0 := by
  have h : (x.fill == y.fill) = true ↔ (x.toInt < 0 ↔ y.toInt < 0) := by
    rw [beq_iff_eq, Bool.eq_iff_iff, x.fill_iff, y.fill_iff]
  show (!x.fill && y.fill || x.fill == y.fill && (x.sub y).value.fill) = true ↔ _
  simp only [Bool.or_eq_true, Bool.and_eq_true, Bool.not_eq_true', h, WordStream.fill_iff,
    WordStream.fill_eq_false_iff, toInt_sub]

theorem mul_flag (x y : Unbounded .unsigned) : (x.mul y).flag = true ↔
    x.toInt < 0 ∧ ¬(y.toInt = 0 ∨ y.toInt = 1) ∨ y.toInt < 0 ∧ ¬(x.toInt = 0 ∨ x.toInt = 1) := by
  show (x.fill && !y.isBit || y.fill && !x.isBit) = true ↔ _
  simp only [Bool.or_eq_true, Bool.and_eq_true, Bool.not_eq_true', ← Bool.not_eq_true, WordStream.fill_iff,
    isBit_iff]

/-! ## Exact readings -/

theorem readsExactly_add (x y : Unbounded .unsigned) :
    ReadsExactly (x.add y) (x.toInt + y.toInt) (reading x + reading y) := by
  refine readsExactly (a := 0) (b := infinities x.toInt + infinities y.toInt) (toInt_add x y) ?_ ?_
  · rw [reading_eq, reading_eq]
    simp only [C_add, C_0]
    ring
  · rw [← Bool.not_eq_true, add_flag]
    unfold infinities
    split_ifs <;> omega

theorem readsExactly_sub (x y : Unbounded .unsigned) :
    ReadsExactly (x.sub y) (x.toInt - y.toInt) (reading x - reading y) := by
  refine readsExactly (a := 0) (b := infinities x.toInt - infinities y.toInt) (toInt_sub x y) ?_ ?_
  · rw [reading_eq, reading_eq]
    simp only [C_sub, C_0]
    ring
  · rw [← Bool.not_eq_true, sub_flag]
    unfold infinities
    split_ifs <;> omega

theorem readsExactly_neg (x : Unbounded .unsigned) : ReadsExactly x.neg (-x.toInt) (-reading x) := by
  have h := readsExactly_sub 0 x
  have h0 : reading 0 = 0 := by simp [reading_eq, infinities]
  rwa [toInt_zero, zero_sub, h0, zero_sub] at h

theorem readsExactly_mul (x y : Unbounded .unsigned) :
    ReadsExactly (x.mul y) (x.toInt * y.toInt) (reading x * reading y) := by
  refine readsExactly (a := infinities x.toInt * infinities y.toInt)
    (b := infinities x.toInt * y.toInt + infinities y.toInt * x.toInt) (toInt_mul x y) ?_ ?_
  · rw [reading_eq, reading_eq]
    simp only [C_add, C_mul]
    ring
  · rw [← Bool.not_eq_true, mul_flag]
    unfold infinities
    -- by which of the factors have an infinity
    rcases lt_or_ge x.toInt 0 with hx | hx <;> rcases lt_or_ge y.toInt 0 with hy | hy
    · rw [if_pos hx, if_pos hy]
      omega
    · rw [if_pos hx, if_neg (not_lt.mpr hy)]
      have h0 : y.toInt = 0 → x.toInt * y.toInt = 0 := fun h => by rw [h, mul_zero]
      have h1 : 0 < y.toInt → x.toInt * y.toInt < 0 := mul_neg_of_neg_of_pos hx
      split_ifs <;> omega
    · rw [if_neg (not_lt.mpr hx), if_pos hy]
      have h0 : x.toInt = 0 → x.toInt * y.toInt = 0 := fun h => by rw [h, zero_mul]
      have h1 : 0 < x.toInt → x.toInt * y.toInt < 0 := fun h => mul_neg_of_pos_of_neg h hy
      split_ifs <;> omega
    · rw [if_neg (not_lt.mpr hx), if_neg (not_lt.mpr hy), if_neg (not_lt.mpr (mul_nonneg hx hy))]
      omega

/-! ## Order -/

theorem compare_unsigned_lt (x y : Unbounded .unsigned) : compare x y = .lt ↔
    0 ≤ x.toInt ∧ y.toInt < 0 ∨ (x.toInt < 0 ↔ y.toInt < 0) ∧ x.toInt < y.toInt := by
  have hfill : x.fill = y.fill ↔ (x.toInt < 0 ↔ y.toInt < 0) := by
    rw [Bool.eq_iff_iff, x.fill_iff, y.fill_iff]
  rw [compare_eq, Signedness.isSigned]
  by_cases h : x.fill = y.fill
  · have h1 := hfill.mp h
    rw [if_pos h, compare_lt_iff_lt]
    omega
  · have h1 := mt hfill.mpr h
    rw [if_neg h]
    by_cases h0 : x.fill = false
    · have h2 := x.fill_eq_false_iff.mp h0
      rw [if_pos h0]
      simp only [true_iff]
      omega
    · have h2 := mt x.fill_eq_false_iff.mpr h0
      rw [if_neg h0]
      simp only [reduceCtorEq, false_iff]
      omega

theorem compare_unsigned_eq (x y : Unbounded .unsigned) : compare x y = .eq ↔ x.toInt = y.toInt := by
  rw [compare_eq]
  by_cases h : x.fill = y.fill
  · rw [if_pos h, compare_eq_iff_eq]
  · have hne : x.toInt ≠ y.toInt := mt WordStream.fill_eq_of_toInt_eq h
    rw [if_neg h]
    split <;> simp [hne]

/-- The order is that of the readings by leading coefficient. -/
theorem compare_lt_iff_leadingCoeff (x y : Unbounded .unsigned) :
    compare x y = .lt ↔ 0 < (reading y - reading x).leadingCoeff := by
  have hdiff : reading y - reading x = C (infinities y.toInt - infinities x.toInt) * X + C (y.toInt - x.toInt) := by
    rw [reading_eq, reading_eq]
    simp only [C_sub]
    ring
  rw [compare_unsigned_lt, hdiff]
  -- the infinities decide unless there are as many on both sides
  by_cases h : infinities y.toInt - infinities x.toInt = 0
  · rw [h, C_0, zero_mul, zero_add, leadingCoeff_C]
    unfold infinities at h
    split_ifs at h <;> omega
  · rw [leadingCoeff_linear h]
    unfold infinities at h ⊢
    split_ifs at h ⊢ <;> omega

/-! ## The contract -/

/-- **Unsigned unbounded arithmetic flags exactly what it cannot represent.** Whatever the flag, the integer part of
a result is right; the flag is clear just when the exact polynomial is the reading of some value, and then of the
result. A difference is flagged when it goes below zero, a sum when it falls below its first operand, and the order
is that of the polynomials. -/
theorem unsigned_reads_exactly (x y : Unbounded .unsigned) :
    ReadsExactly (x.add y) (x.toInt + y.toInt) (reading x + reading y) ∧
    ReadsExactly (x.sub y) (x.toInt - y.toInt) (reading x - reading y) ∧
    ReadsExactly (x.mul y) (x.toInt * y.toInt) (reading x * reading y) ∧
    ReadsExactly x.neg (-x.toInt) (-reading x) ∧
    ((x.sub y).flag = true ↔ compare x y = .lt) ∧
    ((x.add y).flag = true ↔ compare (x.add y).value x = .lt) ∧
    (compare x y = .lt ↔ 0 < (reading y - reading x).leadingCoeff) ∧
    (compare x y = .eq ↔ reading x = reading y) := by
  refine ⟨readsExactly_add x y, readsExactly_sub x y, readsExactly_mul x y, readsExactly_neg x, ?_, ?_,
    compare_lt_iff_leadingCoeff x y, ?_⟩
  · rw [sub_flag, compare_unsigned_lt]
    omega
  · rw [add_flag, compare_unsigned_lt, toInt_add]
    omega
  · rw [compare_unsigned_eq]
    refine ⟨fun h => by rw [toInt_injective h], fun h => ?_⟩
    rw [← coeff_zero_reading, h, coeff_zero_reading]

end Unbounded

end TwosComplement
