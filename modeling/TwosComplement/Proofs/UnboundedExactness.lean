import TwosComplement.Proofs.StreamBits
import TwosComplement.Proofs.UnboundedValue

/-!
# Proofs/UnboundedExactness — sums, products and magnitudes of unbounded integers are exact

A sum has one word more than the longer operand, a product one word more than both together. The top bit of that guard
word is the sign of the exact result, and becomes the fill.

* `Unbounded.msb_guard_mul`: the guard word of a product.
* `Unbounded.fill_magnitude`, `Unbounded.magnitude_unsigned`: magnitudes are never negative and never infinite unless
  they already were.
* `Unbounded.product_exact`, `Unbounded.sum_exact`: the contracts.
-/

namespace TwosComplement

namespace Unbounded

variable {s : Signedness}

/-! ## Products -/

/-- The top bit of the guard word is the sign of the product. -/
theorem msb_guard_mul (x y : WordStream) :
    ((x.mul y).body.getLastD 0).msb = true ↔ x.toInt * y.toInt < 0 := by
  obtain ⟨words, hmul, -, -⟩ := WordStream.exists_mul_eq_ofGuarded x y
  have hfill := (x.mul y).fill_iff
  rw [WordStream.toInt_mul] at hfill
  rw [hmul] at hfill ⊢
  exact hfill

theorem flag_mul_signed (x y : Unbounded .signed) : (x.mul y).flag = false := rfl

/-- **Products are exact.**  For operands of either kind, of any lengths and fills, the product has the product of the
values.  The bodies multiply without a loss, limb by limb with a carry of a whole limb; the corrections for set fills
work on as many words as both bodies have and one guard word, whose top bit is the sign.  Signed products are never
flagged. -/
theorem product_exact :
    (∀ (s : Signedness) (x y : Unbounded s), (x.mul y).value.toInt = x.toInt * y.toInt ∧
      (x.toWordStream.mul y.toWordStream).body.length = x.body.length + y.body.length + 1 ∧
      (((x.toWordStream.mul y.toWordStream).body.getLastD 0).msb = true ↔ x.toInt * y.toInt < 0) ∧
      (Numeral.mul x.body y.body).length = x.body.length + y.body.length ∧
      (Numeral.mul x.body y.body).toNat = x.body.toNat * y.body.toNat) ∧
    (∀ a b addend carry : Word,
      (Limb.mulAdd a b addend carry).toNat = a.toNat * b.toNat + addend.toNat + carry.toNat) ∧
    ∀ x y : Unbounded .signed, (x.mul y).flag = false := by
  refine ⟨fun s x y => ?_, Limb.toNat_mulAdd, flag_mul_signed⟩
  exact ⟨toInt_mul x y, WordStream.length_body_mul _ _, msb_guard_mul _ _, Numeral.length_mul _ _,
    Numeral.toNat_mul _ _⟩

/-! ## Sums and magnitudes -/

theorem fill_magnitude (x : Unbounded .signed) : x.magnitude.fill = false := by
  rw [WordStream.fill_eq_false_iff, toInt_magnitude]
  exact abs_nonneg _

theorem magnitude_unsigned (x : Unbounded .unsigned) : x.magnitude = x := ofStream_toWordStream x

/-- A power of the base, negated, has a magnitude of one word more. -/
theorem length_magnitude_of_eq_neg_two_pow {x : Unbounded .signed} {k : ℕ} (h : x.toInt = -2 ^ (64 * k)) :
    x.magnitude.body.length = k + 1 := by
  refine length_body_of_eq_two_pow ?_
  rw [toInt_magnitude, h, abs_neg, abs_of_pos (by positivity)]

/-- **Sums, differences, negations and magnitudes are exact.**  For signed operands of any lengths none is ever flagged,
and each has the value that it should.  A magnitude is a finite unsigned number, also where the operand is a power of
the base, negated, and the magnitude takes one word more; and it is the operand itself where that is unsigned. -/
theorem sum_exact :
    (∀ x y : Unbounded .signed, (x.add y).flag = false ∧ (x.add y).value.toInt = x.toInt + y.toInt ∧
      (x.sub y).flag = false ∧ (x.sub y).value.toInt = x.toInt - y.toInt) ∧
    (∀ x : Unbounded .signed, x.neg.flag = false ∧ x.neg.value.toInt = -x.toInt ∧
      x.magnitude.fill = false ∧ x.magnitude.toInt = |x.toInt| ∧
      ∀ k : ℕ, x.toInt = -2 ^ (64 * k) → x.body.length = k ∧ x.magnitude.body.length = k + 1) ∧
    ∀ x : Unbounded .unsigned, x.magnitude = x := by
  refine ⟨fun x y => ⟨rfl, toInt_add x y, rfl, toInt_sub x y⟩, fun x => ?_, magnitude_unsigned⟩
  refine ⟨rfl, toInt_neg x, fill_magnitude x, toInt_magnitude x, fun k hk => ?_⟩
  exact ⟨length_body_of_eq_neg_two_pow hk, length_magnitude_of_eq_neg_two_pow hk⟩

end Unbounded

end TwosComplement
