import TwosComplement.Fixed.Words
import TwosComplement.Unbounded.Counting

/-!
# IntType — all representations under one roof

An integer type is of a fixed width or unbounded, and signed or unsigned. Whatever holds for all of them is
said through the word stream of a value: `IntType.toStream` and back, `IntType.ofStream`, which keeps as many
low bits as the type has.
-/

namespace TwosComplement

/-- A representation of integers. -/
inductive IntType where
  | fixed (s : Signedness) (w : Nat)
  | unbounded (s : Signedness)
deriving DecidableEq

/-- The least and the greatest value of a type that has both. -/
structure Bounds (α : Type) where
  least : α
  greatest : α

namespace IntType

/-- The values of a type. -/
@[reducible] def Value : IntType → Type
  | fixed s w => Fixed s w
  | unbounded s => Unbounded s

instance : (t : IntType) → DecidableEq t.Value
  | fixed _ _ => inferInstanceAs (DecidableEq (Fixed _ _))
  | unbounded _ => inferInstanceAs (DecidableEq (Unbounded _))

instance : (t : IntType) → OfNat t.Value 0
  | fixed s w => inferInstanceAs (OfNat (Fixed s w) 0)
  | unbounded s => inferInstanceAs (OfNat (Unbounded s) 0)

instance : (t : IntType) → Ord t.Value
  | fixed s w => inferInstanceAs (Ord (Fixed s w))
  | unbounded s => inferInstanceAs (Ord (Unbounded s))

/-! ## Properties of the type -/

/-- The signedness of a type. -/
def signedness : IntType → Signedness
  | fixed s _ => s
  | unbounded s => s

/-- The number of bits of a type. -/
def size : IntType → Count
  | fixed _ w => .ofNat w
  | unbounded _ => .infinity

/-- The bounds of a type; only the signed unbounded integers have none. -/
def bounds? : (t : IntType) → Option (Bounds t.Value)
  | fixed _ _ => some ⟨Fixed.least, Fixed.greatest⟩
  | unbounded .unsigned => some ⟨(0 : Unbounded .unsigned), Unbounded.greatest⟩
  | unbounded .signed => none

/-! ## Values as streams -/

/-- The words of a value, extended for ever. -/
def toStream : {t : IntType} → t.Value → WordStream
  | fixed _ _, a => Fixed.toStream a
  | unbounded _, x => x.toWordStream

/-- The value of as many low bits of a stream as the type has. -/
def ofStream : (t : IntType) → WordStream → t.Value
  | fixed _ _, x => Fixed.ofStream x
  | unbounded _, x => Unbounded.ofStream x

/-- True for signed values below zero. -/
def negative {t : IntType} (a : t.Value) : Bool := t.signedness.isSigned && (toStream a).fill

/-- True for unsigned values beyond every finite number. -/
def infinite {t : IntType} (a : t.Value) : Bool := !t.signedness.isSigned && (toStream a).fill

/-! ## Bits -/

/-- The length of the run of `bit` at the bottom. -/
def trailingRun : {t : IntType} → t.Value → Bool → Count
  | fixed _ _, a => Fixed.trailingRun a
  | unbounded _, x => Unbounded.trailingRun x

/-- The length of the run of `bit` at the top. -/
def leadingRun : {t : IntType} → t.Value → Bool → Count
  | fixed _ _, a => Fixed.leadingRun a
  | unbounded _, x => Unbounded.leadingRun x

/-- The number of bits equal to `bit`. -/
def bitCount : {t : IntType} → t.Value → Bool → Count
  | fixed _ _, a => Fixed.bitCount a
  | unbounded _, x => Unbounded.bitCount x

end IntType

end TwosComplement
