import Mathlib.Data.ENat.Basic
import TwosComplement.Proofs.ExactConversion
import TwosComplement.Proofs.Masking

/-!
# Proofs/LowBits — the bits that a type keeps of a stream

A type reads as many low bits of a stream as it has, and shows above them the fill of the value that it read. What a
type reads is therefore a matter of those bits alone.

* `IntType.width`: the number of bits, which may be infinite.
* `Fixed.bit_toStream`, `IntType.bit_toStream_ofStream`: the bits of a value, and of what is read from a stream.
* `IntType.ofStream_eq_of_bits`: streams with the same low bits are read alike.
* `IntType.ofStream_toStream`: a value is read back from its own stream.
-/

namespace TwosComplement

/-! ## Fixed widths -/

namespace Fixed

variable {s : Signedness} {w : ℕ}

/-- The bits of a stream are those of its integer, in as many bits as one looks at. -/
theorem bit_eq_getLsbD_ofInt (x : WordStream) (n : ℕ) : x.bit n = (BitVec.ofInt (n + 1) x.toInt).getLsbD n := by
  have h := getLsbD_ofStream (s := .signed) (w := n + 1) x n
  rw [ofStream_eq_ofInt, decide_eq_true n.lt_succ_self, Bool.true_and] at h
  exact h.symm

theorem bit_toStream (a : Fixed s w) (n : ℕ) :
    (toStream a).bit n = if n < w then a.bits.getLsbD n else a.negative := by
  rw [bit_eq_getLsbD_ofInt, toInt_toStream]
  cases s with
  | unsigned =>
    show (BitVec.ofInt (n + 1) a.bits.toNat).getLsbD n = _
    rw [BitVec.ofInt_natCast, BitVec.getLsbD_ofNat, decide_eq_true n.lt_succ_self, Bool.true_and,
      BitVec.testBit_toNat]
    by_cases h : n < w
    · rw [if_pos h]
    · rw [if_neg h]
      exact BitVec.getLsbD_of_ge _ _ (Nat.le_of_not_lt h)
  | signed =>
    -- the integer of a signed pattern, stored in more bits, is its sign extension
    show (a.bits.signExtend (n + 1)).getLsbD n = _
    rw [BitVec.getLsbD_signExtend, decide_eq_true n.lt_succ_self, Bool.true_and]
    rfl

end Fixed

/-! ## All types -/

namespace IntType

/-- The number of bits of a type; unbounded integers have infinitely many. -/
def width : IntType → ℕ∞
  | fixed _ w => w
  | unbounded _ => ⊤

variable {t : IntType}

/-- A type keeps the bits below its width, and extends them by the fill of what it has read. -/
theorem bit_toStream_ofStream (t : IntType) (x : WordStream) (n : ℕ) : (toStream (t.ofStream x)).bit n =
    if (n : ℕ∞) < t.width then x.bit n else (toStream (t.ofStream x)).fill := by
  cases t with
  | fixed s w =>
    have hbit : (Fixed.toStream (Fixed.ofStream x : Fixed s w)).bit n =
        if n < w then x.bit n else (Fixed.ofStream x : Fixed s w).negative := by
      rw [Fixed.bit_toStream]
      by_cases h : n < w
      · rw [if_pos h, if_pos h, Fixed.getLsbD_ofStream, decide_eq_true h, Bool.true_and]
      · rw [if_neg h, if_neg h]
    simp only [width, Nat.cast_lt]
    exact hbit
  | unbounded s =>
    -- an unbounded type keeps all bits, and trimming changes none
    have hn : (n : ℕ∞) < (unbounded s).width := ENat.natCast_lt_top n
    rw [if_pos hn]
    exact x.bit_trim n

theorem ofStream_eq_of_bits {x y : WordStream} (h : ∀ n : ℕ, (n : ℕ∞) < t.width → x.bit n = y.bit n) :
    t.ofStream x = t.ofStream y := by
  cases t with
  | fixed s w =>
    refine Fixed.ext (BitVec.eq_of_getLsbD_eq fun i hi => ?_)
    have hi' : (i : ℕ∞) < (fixed s w).width := Nat.cast_lt.mpr hi
    show (Fixed.ofStream x : Fixed s w).bits.getLsbD i = (Fixed.ofStream y : Fixed s w).bits.getLsbD i
    rw [Fixed.getLsbD_ofStream, Fixed.getLsbD_ofStream, h i hi']
  | unbounded s =>
    have hbits : ∀ n, x.bit n = y.bit n := fun n => h n (ENat.natCast_lt_top n)
    refine Unbounded.toInt_injective ?_
    show (Unbounded.ofStream x : Unbounded s).toInt = (Unbounded.ofStream y : Unbounded s).toInt
    rw [Unbounded.toInt_ofStream, Unbounded.toInt_ofStream, WordStream.toInt_eq_iff_bits.mpr hbits]

theorem ofStream_toStream (a : t.Value) : t.ofStream (toStream a) = a := ofStream_eq rfl

theorem ofStream_eq_of_bits_toStream {x : WordStream} {a : t.Value}
    (h : ∀ n : ℕ, (n : ℕ∞) < t.width → x.bit n = (toStream a).bit n) : t.ofStream x = a :=
  (ofStream_eq_of_bits h).trans (ofStream_toStream a)

/-- Reading through a type that keeps all the bits that are kept in the end changes nothing. -/
theorem ofStream_toStream_ofStream {s t : IntType} (h : s.width ≤ t.width) (x : WordStream) :
    s.ofStream (toStream (t.ofStream x)) = s.ofStream x := by
  refine ofStream_eq_of_bits ?_
  intro n hn
  rw [bit_toStream_ofStream, if_pos (lt_of_lt_of_le hn h)]

end IntType

end TwosComplement
