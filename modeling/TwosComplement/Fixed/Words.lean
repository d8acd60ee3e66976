import TwosComplement.Count
import TwosComplement.Fixed.Basic
import TwosComplement.WordStream.Basic

/-!
# Fixed/Words — fixed-width integers as word streams, and their bits

The stream of a fixed-width integer has just enough words for the width, and its sign for ever after. Back
from a stream only the bits below the width are kept.
-/

namespace TwosComplement

namespace Fixed

variable {s : Signedness} {w : Nat}

/-- The number of words that hold `w` bits. -/
def wordCount (w : Nat) : Nat := (w + 63) / 64

/-- The value as a stream of words. -/
def toStream (a : Fixed s w) : WordStream :=
  ⟨(List.range (wordCount w)).map fun i : Nat => BitVec.ofInt 64 (a.toInt >>> (64 * i)), a.negative⟩

/-- The low `w` bits of a stream. -/
def ofStream (x : WordStream) : Fixed s w :=
  ⟨BitVec.ofNat w (Numeral.toNat ((List.range (wordCount w)).map x.word))⟩

/-- The length of the run of `bit` at the bottom. -/
def trailingRun (a : Fixed s w) (bit : Bool) : Count := .ofNat (Limb.trailingRun a.bits bit)

/-- The length of the run of `bit` at the top. -/
def leadingRun (a : Fixed s w) (bit : Bool) : Count := .ofNat (Limb.leadingRun a.bits bit)

/-- The number of bits equal to `bit`. -/
def bitCount (a : Fixed s w) (bit : Bool) : Count := .ofNat (Limb.bitCount a.bits bit)

end Fixed

end TwosComplement
