import Mathlib.Data.Rat.Floor
import TwosComplement.Proofs.StreamBits
import TwosComplement.Proofs.UnboundedValue

/-!
# Proofs/UnboundedBits — shifts and bitwise operations on infinitely many bits

The bits of an unbounded integer go on for ever. Shifts move all of them, and bitwise operations act on each of them,
whether it is in a body or in the fill that follows. The value of the result is told by the values of the operands.

* `Unbounded.bit_hShiftRight`, `Unbounded.shiftRight_past_body`: what a shift down shows in place of the bits it drops.
* `Unbounded.hShiftRight_hShiftLeft`: a shift up loses nothing.
* `Unbounded.complement_eq`: the complement is the negation less one.
* `Unbounded.shifts_exact`, `Unbounded.bitwise_exact`: the contracts.
-/

namespace TwosComplement

namespace Unbounded

variable {s : Signedness}

/-! ## Shifts -/

theorem bit_hShiftRight (x : Unbounded s) (d n : ℕ) : (x >>> d).bit n = x.bit (d + n) := by
  rw [WordStream.bit_eq_decide, WordStream.bit_eq_decide, toInt_hShiftRight, Int.ediv_ediv_of_nonneg (by positivity),
    ← pow_add]

theorem shiftRight_past_body (x : WordStream) (d : ℕ) :
    x.shiftRight (64 * x.body.length + d) = ⟨[], x.fill⟩ := by
  have hdrop : x.body.drop ((64 * x.body.length + d) / 64) = [] := List.drop_eq_nil_of_le (by omega)
  unfold WordStream.shiftRight
  rw [hdrop]
  rfl

/-- What a shift up moves, a shift down moves back. -/
theorem hShiftRight_hShiftLeft (x : Unbounded s) (d : ℕ) : x <<< d >>> d = x := by
  refine toInt_injective ?_
  rw [toInt_hShiftRight, toInt_hShiftLeft]
  exact Int.mul_ediv_cancel _ (by positivity)

theorem zero_hShiftLeft (d : ℕ) : (0 : Unbounded s) <<< d = 0 := by
  refine toInt_injective ?_
  rw [toInt_hShiftLeft, toInt_zero, zero_mul]

/-- **Shifts multiply and divide by powers of two.** For either kind, any length and any fill, a shift up by any distance
is the exact product; zero stays zero, for which no word is made, and any other value takes the whole words that it is
moved by, its body and one word more. A shift down by any distance is the quotient rounded down: its bits are those
further up, and from the end of the body on there is only the fill. A shift up and the same shift down give the value
back. -/
theorem shifts_exact (x : Unbounded s) (d : ℕ) :
    (x <<< d).toInt = x.toInt * 2 ^ d ∧
    (0 : Unbounded s) <<< d = 0 ∧
    (x.toWordStream.shiftLeft d).body.length = (if x = 0 then 0 else d / 64 + x.body.length + 1) ∧
    (x >>> d).toInt = ⌊(x.toInt : ℚ) / 2 ^ d⌋ ∧
    (∀ n, (x >>> d).bit n = x.bit (d + n)) ∧
    x.toWordStream.shiftRight (64 * x.body.length + d) = ⟨[], x.fill⟩ ∧
    x <<< d >>> d = x := by
  refine ⟨toInt_hShiftLeft x d, zero_hShiftLeft d, ?_, ?_, bit_hShiftRight x d,
    shiftRight_past_body x.toWordStream d, hShiftRight_hShiftLeft x d⟩
  · have hzero : x.toWordStream = ⟨[], false⟩ ↔ x = 0 :=
      ⟨fun h => toWordStream_injective (y := 0) h, fun h => congrArg toWordStream h⟩
    rw [WordStream.length_body_shiftLeft]
    simp only [hzero]
  · have hfloor := Rat.floor_intCast_div_natCast x.toInt (2 ^ d)
    push_cast at hfloor
    rw [toInt_hShiftRight, hfloor]

/-! ## Bitwise operations -/

theorem complement_eq (x : Unbounded s) : ~~~x = -x - 1 := by
  refine toInt_injective ?_
  rw [toInt_complement, toInt_hSub, toInt_neg_op, toInt_one]

/-- **Bitwise operations act on every bit.** For operands of one kind, of any lengths and fills, each bit of the result
is that of the operands' bits in its place, also past both bodies; and the complement, which flips every bit, is the
negation less one. -/
theorem bitwise_exact (x y : Unbounded s) :
    (∀ n, (x &&& y).bit n = (x.bit n && y.bit n) ∧ (x ||| y).bit n = (x.bit n || y.bit n) ∧
      (x ^^^ y).bit n = (x.bit n ^^ y.bit n) ∧ (~~~x).bit n = !x.bit n) ∧
    (~~~x).toInt = -x.toInt - 1 ∧ ~~~x = -x - 1 := by
  refine ⟨fun n => ⟨?_, ?_, ?_, ?_⟩, toInt_complement x, complement_eq x⟩
  · exact (bit_ofStream _ n).trans (WordStream.bit_and _ _ n)
  · exact (bit_ofStream _ n).trans (WordStream.bit_or _ _ n)
  · exact (bit_ofStream _ n).trans (WordStream.bit_xor _ _ n)
  · exact (bit_ofStream _ n).trans (WordStream.bit_complement _ n)

end Unbounded

end TwosComplement
