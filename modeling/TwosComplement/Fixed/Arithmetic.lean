import TwosComplement.Nonzero
import TwosComplement.QuotRem
import TwosComplement.Fixed.Basic

/-!
# Fixed/Arithmetic — flagged, saturating and bitwise operations of one width

Each operation of this module is the exact integer operation followed by `Fixed.wrap`. Division truncates
toward zero, so only the least signed value divided by minus one leaves the range, and the remainder takes
the sign of the dividend. The saturating forms choose a bound from the flag and the signs of the operands.
-/

namespace TwosComplement

namespace Fixed

variable {s : Signedness} {w : Nat}

/-! ## Ring operations -/

/-- `a + b`, wrapped. -/
def add (a b : Fixed s w) : Flagged (Fixed s w) := wrap (a.toInt + b.toInt)

/-- `a - b`, wrapped. -/
def sub (a b : Fixed s w) : Flagged (Fixed s w) := wrap (a.toInt - b.toInt)

/-- `a * b`, wrapped. -/
def mul (a b : Fixed s w) : Flagged (Fixed s w) := wrap (a.toInt * b.toInt)

/-- `-a`, wrapped. -/
def neg (a : Fixed s w) : Flagged (Fixed s w) := wrap (-a.toInt)

/-- The sum without its flag. -/
instance : Add (Fixed s w) := ⟨fun a b => (a.add b).value⟩

/-! ## Carries

A carry is added to the wrapped sum in a second step. Two signed overflows point in opposite directions and
cancel; of two unsigned ones at most one happens, so either counts. -/

/-- Joins the flags of a sum and of the step that adds its carry. -/
def joinOverflow : Signedness → Bool → Bool → Bool
  | .unsigned, first, second => first || second
  | .signed, first, second => first ^^ second

/-- `a + b + carry`, wrapped. -/
def addCarry (a b : Fixed s w) (carry : Bool) : Flagged (Fixed s w) :=
  let first := a.add b
  let second : Flagged (Fixed s w) := wrap (first.value.toInt + carry.toNat)
  ⟨second.value, joinOverflow s first.flag second.flag⟩

/-- `a - b - borrow`, wrapped. -/
def subBorrow (a b : Fixed s w) (borrow : Bool) : Flagged (Fixed s w) :=
  let first := a.sub b
  let second : Flagged (Fixed s w) := wrap (first.value.toInt - borrow.toNat)
  ⟨second.value, joinOverflow s first.flag second.flag⟩

/-! ## Division -/

/-- The truncated quotient, wrapped. -/
def tdiv (a : Fixed s w) (d : Nonzero (Fixed s w)) : Flagged (Fixed s w) :=
  wrap (a.toInt.tdiv d.val.toInt)

/-- The remainder of truncated division, which never leaves the range. -/
def tmod (a : Fixed s w) (d : Nonzero (Fixed s w)) : Fixed s w := ofInt (a.toInt.tmod d.val.toInt)

/-- Quotient and remainder; the flag is the quotient's. -/
def tdivMod (a : Fixed s w) (d : Nonzero (Fixed s w)) :
    Flagged (QuotRem (Fixed s w) (Fixed s w)) :=
  (a.tdiv d).map fun q => ⟨q, a.tmod d⟩

/-! ## Shifts -/

/-- Shifts up by the distance modulo the width; distances from the width on are flagged. -/
def shiftLeft (a : Fixed s w) (distance : Nat) : Flagged (Fixed s w) :=
  ⟨⟨a.bits <<< (distance % w)⟩, decide (w ≤ distance)⟩

/-- Shifts down by the distance modulo the width, filling with the sign; distances from the width on are
flagged. -/
def shiftRight (a : Fixed s w) (distance : Nat) : Flagged (Fixed s w) :=
  let shifted := match s with
    | .unsigned => a.bits >>> (distance % w)
    | .signed => a.bits.sshiftRight (distance % w)
  ⟨⟨shifted⟩, decide (w ≤ distance)⟩

/-! ## Bitwise operations -/

instance : AndOp (Fixed s w) := ⟨fun a b => ⟨a.bits &&& b.bits⟩⟩

instance : OrOp (Fixed s w) := ⟨fun a b => ⟨a.bits ||| b.bits⟩⟩

instance : XorOp (Fixed s w) := ⟨fun a b => ⟨a.bits ^^^ b.bits⟩⟩

instance : Complement (Fixed s w) := ⟨fun a => ⟨~~~a.bits⟩⟩

/-! ## Saturation -/

/-- The value of an exact result; of an inexact one the bound on the given side. -/
def saturate (result : Flagged (Fixed s w)) (downward : Bool) : Fixed s w :=
  if result.flag then (if downward then least else greatest) else result.value

/-- `a + b`, stopping at the bounds; adding a negative value overflows downward. -/
def addSat (a b : Fixed s w) : Fixed s w := saturate (a.add b) b.negative

/-- `a - b`, stopping at the bounds; taking away a negative value overflows upward. -/
def subSat (a b : Fixed s w) : Fixed s w := saturate (a.sub b) (!b.negative)

/-- `a * b`, stopping at the bounds; operands of different signs overflow downward. -/
def mulSat (a b : Fixed s w) : Fixed s w := saturate (a.mul b) (a.negative != b.negative)

/-- `-a`, stopping at the bounds; negating a negative value overflows upward. -/
def negSat (a : Fixed s w) : Fixed s w := saturate a.neg (!a.negative)

end Fixed

end TwosComplement
