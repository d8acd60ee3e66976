import TwosComplement.Fault

/-!
# Nonzero — values that may divide

* `Nonzero.ofValue?` and `Nonzero.ofValue` check a value once; the proof then travels with it.
-/

namespace TwosComplement

/-- A value with a proof that it is not zero. -/
structure Nonzero (α : Type) [OfNat α 0] where
  val : α
  ne_zero : val ≠ 0

namespace Nonzero

variable {α : Type} [OfNat α 0] [DecidableEq α]

instance : DecidableEq (Nonzero α) := fun a b =>
  decidable_of_iff (a.val = b.val) ⟨fun h => by cases a; cases b; simp_all, fun h => h ▸ rfl⟩

/-- The value as a nonzero one, unless it is zero. -/
def ofValue? (a : α) : Option (Nonzero α) := if h : a ≠ 0 then some ⟨a, h⟩ else none

/-- The value as a nonzero one; zero is a fault. -/
def ofValue (a : α) : Except Fault (Nonzero α) := if h : a ≠ 0 then .ok ⟨a, h⟩ else .error .zeroValue

theorem ofValue_of_ne_zero {a : α} (h : a ≠ 0) : ofValue a = .ok ⟨a, h⟩ := by simp [ofValue, h]

@[simp] theorem ofValue_zero : ofValue (0 : α) = .error .zeroValue := by simp [ofValue]

@[simp] theorem ofValue_val (a : Nonzero α) : ofValue a.val = .ok a := ofValue_of_ne_zero a.ne_zero

end Nonzero

end TwosComplement
