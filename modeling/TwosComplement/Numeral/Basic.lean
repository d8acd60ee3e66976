import TwosComplement.Limb.Product

/-!
# Numeral — natural numbers as lists of limbs

A numeral lists limbs in ascending order of place; it may end in zero limbs. Carry and borrow chains, shifts
and products keep every limb, so that their results have a length fixed by the operands' lengths.
-/

namespace TwosComplement

-- powers are those of the core library, whatever else is imported
attribute [local instance (high)] instPowNat instNatPowNat Int.instNatPow

/-- A natural number in base `2 ^ w`, least limb first. -/
abbrev Numeral (w : Nat) := List (Limb w)

namespace Numeral

variable {w : Nat}

/-- The number that the limbs denote. -/
def toNat : Numeral w → Nat
  | [] => 0
  | x :: xs => x.toNat + 2 ^ w * toNat xs

/-- Drops the limbs equal to `x` at the top. -/
def dropTop (x : Limb w) : Numeral w → Numeral w
  | [] => []
  | y :: ys =>
    match dropTop x ys with
    | [] => if y = x then [] else [y]
    | zs => y :: zs

/-- Drops the zero limbs at the top. -/
def trim (xs : Numeral w) : Numeral w := dropTop 0 xs

/-! ## Chains -/

/-- Adds numerals of one length limb by limb, with a carry in and a carry out. -/
def addCarry : Numeral w → Numeral w → Bool → Numeral w × Bool
  | x :: xs, y :: ys, carry =>
    let head := Limb.addCarry x y carry
    let tail := addCarry xs ys head.2
    (head.1 :: tail.1, tail.2)
  | _, _, carry => ([], carry)

/-- Subtracts numerals of one length limb by limb, with a borrow in and a borrow out. -/
def subBorrow : Numeral w → Numeral w → Bool → Numeral w × Bool
  | x :: xs, y :: ys, borrow =>
    let head := Limb.subBorrow x y borrow
    let tail := subBorrow xs ys head.2
    (head.1 :: tail.1, tail.2)
  | _, _, borrow => ([], borrow)

/-- `a * ys + acc + carry`, where `acc` is as long as `ys`; one limb longer than they are. -/
def mulAddRow (a : Limb w) : Numeral w → Numeral w → Limb w → Numeral w
  | y :: ys, t :: ts, carry =>
    let product := Limb.mulAdd a y t carry
    product.low :: mulAddRow a ys ts product.high
  | _, _, carry => [carry]

/-- `a * ys`, one limb longer than `ys`. -/
def mulRow (a : Limb w) (ys : Numeral w) : Numeral w := mulAddRow a ys (ys.map fun _ => 0) 0

/-- `xs * ys + acc`, where `acc` is as long as `ys`: the lowest limb of each row is final, the others start
the next row. -/
def mulAdd (ys : Numeral w) : Numeral w → Numeral w → Numeral w
  | [], acc => acc
  | x :: xs, acc =>
    match mulAddRow x ys acc 0 with
    | [] => []
    | z :: zs => z :: mulAdd ys xs zs

/-- `xs * ys`, as long as both together. -/
def mul (xs ys : Numeral w) : Numeral w := mulAdd ys xs (ys.map fun _ => 0)

/-! ## Shifts and order -/

/-- Shifts up by less than a limb, `below` supplying the bits that come in; as long as the operand, with the
limb whose top bits were shifted out at the top. A shift by nothing would move the limb below by all its bits, so the
limb is taken as it is. -/
def shiftLeft (shift : Nat) (below : Limb w) : Numeral w → Numeral w
  | [] => []
  | x :: xs => (if shift = 0 then x else x <<< shift ||| below >>> (w - shift)) :: shiftLeft shift x xs

/-- Shifts down by less than a limb, `above` supplying the bits that come in; as long as the operand. -/
def shiftRight (shift : Nat) (above : Limb w) : Numeral w → Numeral w
  | [] => []
  | x :: xs => (if shift = 0 then x else x >>> shift ||| xs.headD above <<< (w - shift)) :: shiftRight shift above xs

/-- Compares numerals of one length, the top limbs first. -/
def compare : Numeral w → Numeral w → Ordering
  | x :: xs, y :: ys => (compare xs ys).then (Ord.compare x.toNat y.toNat)
  | _, _ => .eq

end Numeral

end TwosComplement
