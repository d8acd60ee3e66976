import TwosComplement.Limb.Product

/-!
# Reciprocal — dividing many values by one divisor of the same width

Division by a fixed divisor becomes a multiplication by a precomputed scaled reciprocal and a shift. For a
divisor of magnitude `d` between `2 ^ shift` and `2 ^ (shift + 1)`, so that `shift` is the place of its top bit, the
multiplier is the reciprocal rounded up:

* a power of two has multiplier zero, and the division is the shift alone;
* if `2 ^ (w + shift) / d`, rounded up, is exact enough for every numerator, that is the multiplier;
* otherwise one more bit is needed, which does not fit a limb: `extraBit` says that `2 ^ w` is to be added
  to the multiplier, and the numerator is halved on the way so that nothing overflows.
-/

namespace TwosComplement

/-- A divisor with the scaled reciprocal of its magnitude. -/
structure Reciprocal (s : Signedness) (w : Nat) where
  divisor : Fixed s w
  multiplier : Limb w
  shift : Nat
  extraBit : Bool
deriving DecidableEq

namespace Reciprocal

variable {s : Signedness} {w : Nat}

/-- The reciprocal of a divisor. -/
def ofDivisor (divisor : Nonzero (Fixed s w)) : Except Fault (Reciprocal s w) :=
  let magnitude := divisor.val.magnitude
  let shift := w - 1 - magnitude.leadingRun false
  let power : Limb w := 1#w <<< shift
  if magnitude = power then .ok ⟨divisor.val, 0, shift, false⟩
  else do
    let scaled ← Limb.divideWide ⟨0, power⟩ magnitude
    let error := magnitude - scaled.remainder
    if error < power then return ⟨divisor.val, scaled.quotient + 1, shift, false⟩
    let (doubled, carry) := Limb.addCarry scaled.remainder scaled.remainder false
    let rounding : Limb w := if carry || magnitude ≤ doubled then 1 else 0
    return ⟨divisor.val, scaled.quotient + scaled.quotient + rounding + 1, shift, true⟩

/-- The quotient of a numerator by the magnitude of the divisor. -/
def divideMagnitude (r : Reciprocal s w) (numerator : Limb w) : Limb w :=
  if r.multiplier = 0 then numerator >>> r.shift
  else
    let high := (Limb.fullProduct numerator r.multiplier).high
    if r.extraBit then (((numerator - high) >>> 1) + high) >>> r.shift else high >>> r.shift

/-- Divides by the divisor, truncating; the least signed value by minus one is a fault. -/
def divide (r : Reciprocal s w) (dividend : Fixed s w) :
    Except Fault (QuotRem (Fixed s w) (Fixed s w)) :=
  let numerator := dividend.magnitude
  let quotient := r.divideMagnitude numerator
  let remainder := numerator - (Limb.fullProduct quotient r.divisor.magnitude).low
  let sign := if dividend.sign = r.divisor.sign then Sign.plus else Sign.minus
  let signed : Flagged (Fixed s w) := Fixed.ofSignMagnitude sign quotient
  if signed.flag then .error .divisionOverflow
  else .ok ⟨signed.value, (Fixed.ofSignMagnitude dividend.sign remainder).value⟩

/-- The truncated quotient. -/
def quotient (r : Reciprocal s w) (dividend : Fixed s w) : Except Fault (Fixed s w) :=
  (r.divide dividend).map QuotRem.quotient

/-- The remainder, which takes the sign of the dividend. -/
def remainder (r : Reciprocal s w) (dividend : Fixed s w) : Except Fault (Fixed s w) :=
  (r.divide dividend).map QuotRem.remainder

end Reciprocal

end TwosComplement
