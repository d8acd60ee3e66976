import TwosComplement.Limb.Reciprocal
import TwosComplement.Numeral.Basic

/-!
# Numeral/LongDivision — division of numerals of any length

A one-limb divisor goes through its reciprocal in one pass. A longer divisor is shifted up until its top bit
is set, and the dividend with it; then each quotient limb is found from a window, the dividend limbs that the
shifted divisor covers and the one above them, in ascending order:

* `LongDivisor.estimate` divides the two top limbs of the window by the top limb of the divisor;
* `LongDivisor.adjust` lowers the estimate while it is too large for the top two limbs of the divisor;
* `LongDivisor.subtract` subtracts that multiple of the divisor, and adds it back once if it was one too many.

A limb that is read past the end of a numeral is a fault, like a divisor of zero.
-/

namespace TwosComplement

-- powers are those of the core library, whatever else is imported
attribute [local instance (high)] instPowNat instNatPowNat Int.instNatPow

/-- The limb at a place; past the last one there is none. -/
def Numeral.limbAt {w : Nat} (xs : Numeral w) (i : Nat) : Except Fault (Limb w) :=
  match xs[i]? with
  | some x => .ok x
  | none => .error .outOfRange

theorem Numeral.limbAt_append {w : Nat} (lower upper : Numeral w) (i : Nat) :
    limbAt (lower ++ upper) (lower.length + i) = limbAt upper i := by
  unfold limbAt
  rw [List.getElem?_append_right (Nat.le_add_right _ _), Nat.add_sub_cancel_left]

/-- A divisor of two limbs or more, shifted up until its top bit is set, with its top limb, the one below it, and the
reciprocal of the top one. -/
structure LongDivisor (w : Nat) where
  limbs : Numeral w
  shift : Nat
  top : Limb w
  next : Limb w
  reciprocal : LimbReciprocal w

/-- A trial quotient limb and what it leaves of the window's two top limbs, minus the divisor's top limb that
many times; `overflow` is set when that rest no longer fits a limb. -/
structure TrialLimb (w : Nat) where
  limb : Limb w
  rest : Limb w
  overflow : Bool

namespace LongDivisor

variable {w : Nat}

/-- The shifted form of a trimmed divisor. -/
def ofNumeral (divisor : Numeral w) : Except Fault (LongDivisor w) := do
  let shift := Limb.leadingRun (← divisor.limbAt (divisor.length - 1)) false
  let limbs := Numeral.shiftLeft shift 0 divisor
  let top ← limbs.limbAt (divisor.length - 1)
  let next ← limbs.limbAt (divisor.length - 2)
  return ⟨limbs, shift, top, next, ← LimbReciprocal.ofDivisor (← Nonzero.ofValue top)⟩

/-- The trial limb from the window's two top limbs; when the first equals the divisor's top limb, the largest
limb. -/
def estimate (d : LongDivisor w) (window : Numeral w) : Except Fault (TrialLimb w) := do
  let first ← window.limbAt d.limbs.length
  let second ← window.limbAt (d.limbs.length - 1)
  if first = d.top then
    let (rest, overflow) := Limb.addCarry second d.top false
    return ⟨BitVec.allOnes w, rest, overflow⟩
  else
    let division ← d.reciprocal.divide ⟨second, first⟩
    return ⟨division.quotient, division.remainder, false⟩

/-- True when the trial limb times the divisor's second limb exceeds what the rest and the window's third limb
leave for it. -/
def tooLarge (d : LongDivisor w) (third : Limb w) (trial : TrialLimb w) : Bool :=
  !trial.overflow &&
    compare (Limb.fullProduct trial.limb d.next) (⟨third, trial.rest⟩ : DoubleWidth .unsigned w) == .gt

/-- The trial limb lowered by one. -/
def lower (d : LongDivisor w) (trial : TrialLimb w) : TrialLimb w :=
  let (rest, overflow) := Limb.addCarry trial.rest d.top false
  ⟨trial.limb - 1, rest, overflow⟩

theorem tooLarge_iff {d : LongDivisor w} {third : Limb w} {trial : TrialLimb w} :
    d.tooLarge third trial = true ↔ trial.overflow = false ∧
      third.toNat + 2 ^ w * trial.rest.toNat < trial.limb.toNat * d.next.toNat := by
  simp only [tooLarge, Bool.and_eq_true, beq_iff_eq, Bool.not_eq_true']
  rw [DoubleWidth.compare_eq_compare_toInt, Int.compare_eq_gt, DoubleWidth.toInt_eq_toNat,
    DoubleWidth.toInt_eq_toNat, Limb.toNat_fullProduct, Int.ofNat_lt]
  exact Iff.rfl

theorem toNat_limb_pos_of_tooLarge {d : LongDivisor w} {third : Limb w} {trial : TrialLimb w}
    (h : d.tooLarge third trial = true) : 0 < trial.limb.toNat := by
  have exceeds := (tooLarge_iff.1 h).2
  apply Nat.pos_of_ne_zero
  intro zero
  rw [zero, Nat.zero_mul] at exceeds
  exact Nat.not_lt_zero _ exceeds

theorem toNat_limb_lower {d : LongDivisor w} {trial : TrialLimb w} (h : 0 < trial.limb.toNat) :
    (d.lower trial).limb.toNat = trial.limb.toNat - 1 := Limb.toNat_sub_one h

/-- Lowers the trial limb while it is too large. -/
def adjust (d : LongDivisor w) (third : Limb w) (trial : TrialLimb w) : TrialLimb w :=
  if h : d.tooLarge third trial = true then
    have positive := toNat_limb_pos_of_tooLarge h
    have _smaller : (d.lower trial).limb.toNat < trial.limb.toNat := by
      rw [toNat_limb_lower positive]
      omega
    d.adjust third (d.lower trial)
  else trial
termination_by trial.limb.toNat

/-- The window less a multiple of the divisor, with the limb that is its number; one multiple too many is added back. -/
def subtract (d : LongDivisor w) (limb : Limb w) (window : Numeral w) : Limb w × Numeral w :=
  let (rest, borrow) := Numeral.subBorrow window (Numeral.mulRow limb d.limbs) false
  if borrow then (limb - 1, (Numeral.addCarry rest (d.limbs ++ [0]) false).1) else (limb, rest)

/-- One quotient limb, and the window less that multiple of the divisor. -/
def step (d : LongDivisor w) (window : Numeral w) : Except Fault (Limb w × Numeral w) := do
  let trial ← d.estimate window
  let third ← window.limbAt (d.limbs.length - 2)
  return d.subtract (d.adjust third trial).limb window

/-- The quotient limbs of the low limbs of the dividend, given the high limbs, which are as many as the
divisor's and below it. -/
def divide (d : LongDivisor w) (high : Numeral w) :
    Numeral w → Except Fault (QuotRem (Numeral w) (Numeral w))
  | [] => .ok ⟨[], high⟩
  | limb :: above => do
    let upper ← d.divide high above
    let (digit, window) ← d.step (limb :: upper.remainder)
    return ⟨digit :: upper.quotient, window.take d.limbs.length⟩

end LongDivisor

namespace Numeral

variable {w : Nat}

/-- Divides by a trimmed divisor of at least two limbs that is no longer than the trimmed dividend. -/
def divideLong (dividend divisor : Numeral w) : Except Fault (QuotRem (Numeral w) (Numeral w)) := do
  let d ← LongDivisor.ofNumeral divisor
  let shifted := shiftLeft d.shift 0 (dividend ++ [0])
  let places := dividend.length + 1 - divisor.length
  let division ← d.divide (shifted.drop places) (shifted.take places)
  return ⟨division.quotient, shiftRight d.shift 0 division.remainder⟩

/-- Divides by one limb. -/
def divideByLimb (dividend : Numeral w) (divisor : Limb w) :
    Except Fault (QuotRem (Numeral w) (Numeral w)) := do
  let reciprocal ← LimbReciprocal.ofDivisor (← Nonzero.ofValue divisor)
  let division ← reciprocal.divideAll dividend
  return ⟨division.quotient, [division.remainder]⟩

/-- Divides numerals of any length, truncating. The quotient has one limb for each step of the division, and
the remainder as many limbs as the trimmed divisor, or it is the trimmed dividend when that is shorter. -/
def divide (dividend divisor : Numeral w) : Except Fault (QuotRem (Numeral w) (Numeral w)) :=
  let dividend := dividend.trim
  let divisor := divisor.trim
  if divisor = [] then .error .divisionByZero
  else if dividend.length < divisor.length then .ok ⟨[], dividend⟩
  else match divisor with
    | [limb] => divideByLimb dividend limb
    | _ => divideLong dividend divisor

end Numeral

end TwosComplement
