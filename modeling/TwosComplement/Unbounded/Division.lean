import TwosComplement.Numeral.LongDivision
import TwosComplement.Unbounded.Arithmetic

/-!
# Unbounded/Division — truncating division of unbounded integers

Signed values divide their magnitudes: the quotient is negative when exactly one operand is, and the remainder
takes the sign of the dividend. An infinite unsigned value lies beyond every finite number, so that it fits
into a finite one zero times and into another infinite one at most once; by a finite divisor other than one an
infinite dividend cannot be divided, and the result is flagged.

* `Unbounded.divideBy` divides by one word through its reciprocal and agrees with `Unbounded.divide`.
-/

namespace TwosComplement

namespace Unbounded

variable {s : Signedness}

/-- The integer with the given magnitude, negated on demand. -/
def withSign (words : Numeral 64) (negative : Bool) : Unbounded s :=
  let magnitude := ofNumeral words
  if negative then magnitude.neg.value else magnitude

/-- Divides the magnitudes and restores the signs. -/
def divideMagnitudes (x d : Unbounded s) : Except Fault (QuotRem (Unbounded s) (Unbounded s)) := do
  let division ← Numeral.divide x.magnitude.body d.magnitude.body
  return ⟨withSign division.quotient (x.fill != d.fill), withSign division.remainder x.fill⟩

/-- Quotient and remainder of truncated division. -/
def divide (x : Unbounded s) (divisor : Nonzero (Unbounded s)) :
    Except Fault (Flagged (QuotRem (Unbounded s) (Unbounded s))) :=
  let d := divisor.val
  if s.isSigned then (divideMagnitudes x d).map .ok
  else match x.fill, d.fill with
    | false, false => (divideMagnitudes x d).map .ok
    | false, true => .ok (.ok ⟨0, x⟩)
    | true, true =>
      -- each lies below infinity by its negation, so the smaller negation is that of the larger value
      if (compare x.neg.value d.neg.value).isLE then .ok (.ok ⟨1, x - d⟩) else .ok (.ok ⟨0, x⟩)
    | true, false => .ok ⟨⟨x, 0⟩, !d.isBit⟩

/-- The truncated quotient. -/
def quotient (x : Unbounded s) (d : Nonzero (Unbounded s)) : Except Fault (Flagged (Unbounded s)) :=
  (x.divide d).map (·.map QuotRem.quotient)

/-- The remainder, which takes the sign of the dividend. -/
def remainder (x : Unbounded s) (d : Nonzero (Unbounded s)) : Except Fault (Flagged (Unbounded s)) :=
  (x.divide d).map (·.map QuotRem.remainder)

/-- Divides by the word of a reciprocal. -/
def divideBy (x : Unbounded s) (r : LimbReciprocal 64) :
    Except Fault (Flagged (QuotRem (Unbounded s) (Unbounded s))) :=
  if x.infinite then .ok ⟨⟨x, 0⟩, decide (r.divisor ≠ 1)⟩
  else do
    let division ← r.divideAll x.magnitude.body
    return .ok ⟨withSign division.quotient x.fill, withSign [division.remainder] x.fill⟩

end Unbounded

end TwosComplement
