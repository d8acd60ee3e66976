/-!
# Sign — signedness of a representation, sign of a value

`Signedness` is a property of a type: does the top bit, or the infinite run of top bits, count negatively?
`Sign` is a property of a value. Signs can be told apart but are not ordered.
-/

namespace TwosComplement

/-- Whether the run of top bits of a representation reads as a sign. -/
inductive Signedness where
  | unsigned
  | signed
deriving DecidableEq

/-- True for signed representations. -/
def Signedness.isSigned : Signedness → Bool
  | unsigned => false
  | signed => true

/-- The sign of a value; zero counts as positive. -/
inductive Sign where
  | plus
  | minus
deriving DecidableEq

namespace Sign

/-- The sign of a sign bit: a set bit is a minus. -/
def ofBit (bit : Bool) : Sign := if bit then minus else plus

/-- The sign bit. -/
def bit : Sign → Bool
  | plus => false
  | minus => true

/-- The opposite sign. -/
def opposite : Sign → Sign
  | plus => minus
  | minus => plus

instance : Inhabited Sign := ⟨plus⟩

/-- The sign as it is written in front of a magnitude. -/
def text : Sign → String
  | plus => "+"
  | minus => "-"

/-- The integer with the given sign and absolute value. -/
def apply : Sign → Nat → Int
  | plus, n => n
  | minus, n => -n

@[simp] theorem bit_ofBit (b : Bool) : (ofBit b).bit = b := by cases b <;> rfl

@[simp] theorem ofBit_bit (s : Sign) : ofBit s.bit = s := by cases s <;> rfl

@[simp] theorem opposite_opposite (s : Sign) : s.opposite.opposite = s := by cases s <;> rfl

theorem apply_opposite (s : Sign) (n : Nat) : s.opposite.apply n = -s.apply n := by
  cases s <;> simp [opposite, apply]

end Sign

end TwosComplement
