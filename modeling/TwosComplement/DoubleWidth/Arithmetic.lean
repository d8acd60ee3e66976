import TwosComplement.Fixed.Operations

/-!
# DoubleWidth/Arithmetic — sums and differences of twice the width

The low halves are added as values of the unsigned type of the same width. Their carry goes into the sum of the high
halves, whose overflow is the overflow of the whole. Each type adds with the carry in its own way, those of one bit by
their tables, and so it orders its values.
-/

namespace TwosComplement

/-- The operations of the unsigned type of the same width, which holds the low halves. -/
def FixedType.lowOperations : (t : FixedType) → Operations .unsigned t.width
  | oneBit _ => Operations.oneBit
  | machine _ _ => Operations.machine

namespace DoubleWidth

variable (t : FixedType)

/-- The low half as a value of the unsigned type. -/
def lowPart {s : Signedness} {w : Nat} (x : DoubleWidth s w) : Fixed .unsigned w := ⟨x.low⟩

/-- `x + y`, wrapped. -/
def add (x y : DoubleWidth t.signedness t.width) : Flagged (DoubleWidth t.signedness t.width) :=
  let low := t.lowOperations.addCarry x.lowPart y.lowPart false
  let high := t.operations.addCarry x.highPart y.highPart low.flag
  ⟨⟨low.value.bits, high.value.bits⟩, high.flag⟩

/-- `x - y`, wrapped. -/
def sub (x y : DoubleWidth t.signedness t.width) : Flagged (DoubleWidth t.signedness t.width) :=
  let low := t.lowOperations.subBorrow x.lowPart y.lowPart false
  let high := t.operations.subBorrow x.highPart y.highPart low.flag
  ⟨⟨low.value.bits, high.value.bits⟩, high.flag⟩

/-- `-x`, wrapped. -/
def neg (x : DoubleWidth t.signedness t.width) : Flagged (DoubleWidth t.signedness t.width) :=
  sub t ⟨0, 0⟩ x

/-- The order of the high halves, then that of the low halves. -/
def order (x y : DoubleWidth t.signedness t.width) : Ordering :=
  (t.operations.order x.highPart y.highPart).then (t.lowOperations.order x.lowPart y.lowPart)

end DoubleWidth

end TwosComplement
