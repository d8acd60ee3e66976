import TwosComplement.Flagged
import TwosComplement.Sign
import TwosComplement.Limb.Basic

/-!
# Fixed — integers of a fixed width

A `Fixed s w` is a pattern of `w` bits, read as a number below `2 ^ w` when `s` is unsigned and in two's
complement when it is signed. Operations compute the exact integer first and then store it: `Fixed.wrap`
keeps the low `w` bits of any integer and is flagged when they do not read back as that integer.

* `toInt_injective`: the integer determines the pattern.
* `ofInt_toInt`, `wrap_toInt`: storing a value of the type is exact.
-/

namespace TwosComplement

/-- A pattern of `w` bits whose signedness says how it reads as an integer. -/
structure Fixed (s : Signedness) (w : Nat) where
  bits : BitVec w
deriving DecidableEq

namespace Fixed

variable {s : Signedness} {w : Nat}

/-! ## Reading and storing integers -/

/-- The integer that the pattern denotes. -/
def toInt (a : Fixed s w) : Int :=
  match s with
  | .unsigned => a.bits.toNat
  | .signed => a.bits.toInt

/-- The pattern of the low `w` bits of an integer. -/
def ofInt (n : Int) : Fixed s w := ⟨BitVec.ofInt w n⟩

/-- An integer cut to the width, flagged when it does not fit. -/
def wrap (n : Int) : Flagged (Fixed s w) := ⟨ofInt n, decide ((ofInt n : Fixed s w).toInt ≠ n)⟩

instance : OfNat (Fixed s w) 0 := ⟨⟨0⟩⟩

instance : Inhabited (Fixed s w) := ⟨0⟩

/-- The least value of the type. -/
def least : Fixed s w :=
  match s with
  | .unsigned => ⟨0⟩
  | .signed => ⟨BitVec.intMin w⟩

/-- The greatest value of the type. -/
def greatest : Fixed s w :=
  match s with
  | .unsigned => ⟨BitVec.allOnes w⟩
  | .signed => ⟨BitVec.intMax w⟩

/-- Values are ordered as the integers they denote. -/
instance : Ord (Fixed s w) := ⟨fun a b => compare a.toInt b.toInt⟩

/-! ## Sign -/

/-- True when the type is signed and the top bit is set, that is for negative values. -/
def negative (a : Fixed s w) : Bool := s.isSigned && a.bits.msb

/-- The limb above the value when it is widened: all ones for negative values, zero otherwise. -/
def signFill (a : Fixed s w) : Fixed s w := ⟨Limb.filled w a.negative⟩

/-- The sign of the value. -/
def sign (a : Fixed s w) : Sign := Sign.ofBit a.negative

/-- The absolute value, which always fits the unsigned type of the same width. -/
def magnitude (a : Fixed s w) : Limb w := if a.negative then -a.bits else a.bits

/-- The value with the given sign and magnitude, flagged when it does not fit: an unsigned value when it should be
negative, a signed one when it reads with the other sign. -/
def ofSignMagnitude (sign : Sign) (magnitude : Limb w) : Flagged (Fixed s w) :=
  match s, sign with
  | .unsigned, .plus => .ok ⟨magnitude⟩
  | .unsigned, .minus => ⟨⟨-magnitude⟩, decide (magnitude ≠ 0)⟩
  | .signed, .plus =>
    let value : Fixed .signed w := ⟨magnitude⟩
    ⟨value, value.negative⟩
  | .signed, .minus =>
    let value : Fixed .signed w := ⟨-magnitude⟩
    ⟨value, decide (magnitude ≠ 0) && !value.negative⟩

/-! ## Text -/

/-- The value as a diagnostic shows it: in decimal, the one-bit types by name and bit. -/
def debugText (a : Fixed s w) : String :=
  if w = 1 then
    (if s.isSigned then "I1(" else "U1(") ++ (if a.bits.msb then "true" else "false") ++ ")"
  else toString a.toInt

/-! ## Small laws -/

@[ext] theorem ext {a b : Fixed s w} (h : a.bits = b.bits) : a = b := by
  cases a; cases b; simp_all

theorem toInt_injective {a b : Fixed s w} (h : a.toInt = b.toInt) : a = b := by
  apply ext
  cases s with
  | unsigned => exact BitVec.eq_of_toNat_eq (Int.ofNat.inj h)
  | signed => exact BitVec.eq_of_toInt_eq h

theorem ofInt_toInt (a : Fixed s w) : (ofInt a.toInt : Fixed s w) = a := by
  apply ext
  cases s <;> simp [ofInt, toInt]

theorem wrap_toInt (a : Fixed s w) : (wrap a.toInt : Flagged (Fixed s w)) = .ok a := by
  simp [wrap, ofInt_toInt, Flagged.ok]

theorem value_wrap (n : Int) : (wrap n : Flagged (Fixed s w)).value = ofInt n := rfl

theorem flag_wrap_eq_false_iff (n : Int) :
    (wrap n : Flagged (Fixed s w)).flag = false ↔ (ofInt n : Fixed s w).toInt = n := by
  simp [wrap]

@[simp] theorem toInt_zero : (0 : Fixed s w).toInt = 0 := by
  cases s
  · rfl
  · exact BitVec.toInt_zero

end Fixed

end TwosComplement
