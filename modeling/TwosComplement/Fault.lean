/-!
# Fault — the ways an operation can refuse its operands

Inexact results are flagged, never refused. A `Fault` is what is left: operands for which there is no
answer, or which break the precondition of an algorithm.

* `exists_of_bind_eq_ok`: what answers after a step that can refuse took its operand from that step.
-/

namespace TwosComplement

/-- Why an operation has no answer. -/
inductive Fault where
  /-- A value that has to be nonzero is zero. -/
  | zeroValue
  /-- The least signed value divided by minus one. -/
  | divisionOverflow
  /-- A numeral divided by a numeral without a nonzero limb. -/
  | divisionByZero
  /-- The high limb of a dividend reaches the divisor, so the quotient needs a second limb. -/
  | narrowingOverflow
  /-- The same for a division through the reciprocal of a limb. -/
  | limbQuotientOverflow
  /-- A numeral read past its last limb. -/
  | outOfRange
deriving DecidableEq

/-- The message of a fault. -/
def Fault.message : Fault → String
  | zeroValue => "Nonzero::new called with a zero value"
  | divisionOverflow => "attempt to divide with overflow"
  | divisionByZero => "attempt to divide by zero"
  | narrowingOverflow => "narrowing division quotient does not fit one limb"
  | limbQuotientOverflow => "Divider21::divide quotient does not fit one limb"
  | outOfRange => "index out of bounds"

/-- A composition answers just when both parts do. -/
theorem exists_of_bind_eq_ok {ε α β : Type} {x : Except ε α} {f : α → Except ε β} {b : β} (h : x >>= f = .ok b) :
    ∃ a, x = .ok a ∧ f a = .ok b := by
  cases x with
  | error e => cases h
  | ok a => exact ⟨a, rfl, h⟩

end TwosComplement
