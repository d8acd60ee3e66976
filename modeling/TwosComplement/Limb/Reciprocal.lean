import TwosComplement.Limb.Product
import TwosComplement.Nonzero

/-!
# Limb/Reciprocal — dividing two limbs by one, many times

The divisor is shifted up until its top bit is set. Then its reciprocal, the number
`(2 ^ (2 * w) - 1) / normalized - 2 ^ w`, fits a limb, and a quotient is found by one multiplication, one
multiplication back, and at most two corrections by one. This is the inner step of long division.

* `LimbReciprocal.divideNormalized` is that step; the estimated quotient may wrap and is corrected.
* `LimbReciprocal.divideAll` divides a number of any length, from its top limb down.
-/

namespace TwosComplement

/-- A limb divisor with the reciprocal of its normalized form. -/
structure LimbReciprocal (w : Nat) where
  divisor : Limb w
  shift : Nat
  reciprocal : Limb w
deriving DecidableEq

namespace LimbReciprocal

variable {w : Nat}

/-- The divisor with its top bit shifted to the top of the limb. -/
def normalized (r : LimbReciprocal w) : Limb w := r.divisor <<< r.shift

/-- The reciprocal of a divisor. -/
def ofDivisor (divisor : Nonzero (Limb w)) : Except Fault (LimbReciprocal w) := do
  let shift := Limb.leadingRun divisor.val false
  let normalized := divisor.val <<< shift
  let scaled ← Limb.divideWide ⟨BitVec.allOnes w, ~~~normalized⟩ normalized
  return ⟨divisor.val, shift, scaled.quotient⟩

/-- Divides a two-limb number below `2 ^ w * normalized` by the normalized divisor. -/
def divideNormalized (r : LimbReciprocal w) (high low : Limb w) : QuotRem (Limb w) (Limb w) :=
  let estimate := Limb.fullProduct r.reciprocal high
  let (fraction, carry) := Limb.addCarry estimate.low low false
  let quotient := (Limb.addCarry estimate.high high carry).1 + 1
  let remainder := low - (Limb.fullProduct quotient r.normalized).low
  let lowered : QuotRem (Limb w) (Limb w) :=
    if fraction < remainder then ⟨quotient - 1, remainder + r.normalized⟩ else ⟨quotient, remainder⟩
  if r.normalized ≤ lowered.remainder then ⟨lowered.quotient + 1, lowered.remainder - r.normalized⟩
  else lowered

/-- Divides a two-limb number by the divisor. The high limb has to be below it: a debug assertion refuses any other,
which is the fault here, and builds without debug assertions return wrapped limbs instead. -/
def divide (r : LimbReciprocal w) (dividend : DoubleWidth .unsigned w) :
    Except Fault (QuotRem (Limb w) (Limb w)) :=
  if dividend.high < r.divisor then
    if r.shift = 0 then .ok (r.divideNormalized dividend.high dividend.low)
    else
      let high := (dividend.high <<< r.shift) ||| (dividend.low >>> (w - r.shift))
      let division := r.divideNormalized high (dividend.low <<< r.shift)
      .ok ⟨division.quotient, division.remainder >>> r.shift⟩
  else .error .limbQuotientOverflow

/-- Divides a number of any length, limbs in ascending order, into a quotient of the same length. -/
def divideAll (r : LimbReciprocal w) : List (Limb w) → Except Fault (QuotRem (List (Limb w)) (Limb w))
  | [] => .ok ⟨[], 0⟩
  | limb :: above => do
    let upper ← r.divideAll above
    let division ← r.divide ⟨limb, upper.remainder⟩
    return ⟨division.quotient :: upper.quotient, division.remainder⟩

end LimbReciprocal

end TwosComplement
