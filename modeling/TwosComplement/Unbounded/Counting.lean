import TwosComplement.Count
import TwosComplement.Unbounded.Basic

/-!
# Unbounded/Counting — runs and populations of infinitely many bits

A run or a population of the fill bit is infinite, less the bits of the body that are missing from it; a run or a
population of the other bit is finite.
-/

namespace TwosComplement

/-- The number of bits of a numeral equal to `bit`. -/
def Numeral.bitCount {w : Nat} (bit : Bool) : Numeral w → Nat
  | [] => 0
  | x :: xs => Limb.bitCount x bit + bitCount bit xs

/-- The length of the run of `bit` that goes on from `run` bits below, through the words of a body and into the fill. -/
def WordStream.runFrom (fill bit : Bool) (run : Nat) : Numeral 64 → Count
  | [] => if fill == bit then .infinity else .ofNat run
  | x :: xs =>
    let longer := run + Limb.trailingRun x bit
    if Limb.trailingRun x bit = 64 then runFrom fill bit longer xs else .ofNat longer

namespace Unbounded

variable {s : Signedness}

/-- The length of the run of `bit` at the bottom. -/
def trailingRun (x : Unbounded s) (bit : Bool) : Count := WordStream.runFrom x.fill bit 0 x.body

/-- The number of bits of the body below the run of `bit` at its top. -/
def belowRun (x : Unbounded s) (bit : Bool) : Nat :=
  match x.body.getLast? with
  | none => 0
  | some top => x.body.length * 64 - Limb.leadingRun top bit

/-- The length of the run of `bit` at the top: the fill, and what continues it in the body's last word. -/
def leadingRun (x : Unbounded s) (bit : Bool) : Count :=
  if x.fill != bit then .zero
  else (Count.infinity.down (BitVec.ofNat 64 (x.belowRun bit))).value

/-- The number of bits equal to `bit`. -/
def bitCount (x : Unbounded s) (bit : Bool) : Count :=
  if x.fill == bit then (Count.infinity.down (BitVec.ofNat 64 (Numeral.bitCount (!bit) x.body))).value
  else .ofNat (Numeral.bitCount bit x.body)

end Unbounded

end TwosComplement
