import TwosComplement.Flagged
import TwosComplement.Unbounded.Basic

/-!
# Unbounded/Arithmetic — flagged arithmetic, bitwise operations and shifts

Signed results always exist and are never flagged. An unsigned result is flagged when it drops below zero or
when no unsigned value is that many infinities and a finite part: the sum of two infinite values, or an
infinite value times anything but zero and one. The value under a flag still has the right bits.
-/

namespace TwosComplement

namespace Unbounded

variable {s : Signedness}

/-! ## Ring operations -/

/-- `x + y`. -/
def add (x y : Unbounded s) : Flagged (Unbounded s) :=
  let sum := ofStream (x.toWordStream.add y.toWordStream)
  ⟨sum, !s.isSigned && (x.fill && y.fill || (x.fill || y.fill) && !sum.fill)⟩

/-- `x - y`. -/
def sub (x y : Unbounded s) : Flagged (Unbounded s) :=
  let difference := ofStream (x.toWordStream.sub y.toWordStream)
  ⟨difference, !s.isSigned && (!x.fill && y.fill || x.fill == y.fill && difference.fill)⟩

/-- `-x`. -/
def neg (x : Unbounded s) : Flagged (Unbounded s) := sub 0 x

/-- `x * y`. -/
def mul (x y : Unbounded s) : Flagged (Unbounded s) :=
  ⟨ofStream (x.toWordStream.mul y.toWordStream),
    !s.isSigned && (x.fill && !y.isBit || y.fill && !x.isBit)⟩

/-- The absolute value; infinite values are their own. -/
def magnitude (x : Unbounded s) : Unbounded .unsigned :=
  ofStream (if x.negative then x.neg.value.toWordStream else x.toWordStream)

/-! ## Operators, which drop the flag -/

instance : Add (Unbounded s) := ⟨fun x y => (x.add y).value⟩

instance : Sub (Unbounded s) := ⟨fun x y => (x.sub y).value⟩

instance : Mul (Unbounded s) := ⟨fun x y => (x.mul y).value⟩

instance : Neg (Unbounded s) := ⟨fun x => x.neg.value⟩

instance : AndOp (Unbounded s) := ⟨fun x y => ofStream (WordStream.and x.toWordStream y.toWordStream)⟩

instance : OrOp (Unbounded s) := ⟨fun x y => ofStream (WordStream.or x.toWordStream y.toWordStream)⟩

instance : XorOp (Unbounded s) := ⟨fun x y => ofStream (WordStream.xor x.toWordStream y.toWordStream)⟩

instance : Complement (Unbounded s) := ⟨fun x => ofStream x.toWordStream.complement⟩

instance : HShiftLeft (Unbounded s) Nat (Unbounded s) :=
  ⟨fun x k => ofStream (x.toWordStream.shiftLeft k)⟩

instance : HShiftRight (Unbounded s) Nat (Unbounded s) :=
  ⟨fun x k => ofStream (x.toWordStream.shiftRight k)⟩

end Unbounded

end TwosComplement
