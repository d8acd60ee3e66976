import TwosComplement.Proofs.UnboundedValue

/-!
# Proofs/UnboundedOrder — the order of unbounded integers is that of their values

One comparison serves both kinds: it looks at the fills, and at the words from the top down where the fills agree, also
those of negative values. It is the order of the integers for signed values; of unsigned values the infinite ones come
last.

* `Unbounded.compare_unsigned`: by the fill, then by the value; `Unbounded.compare_signed` is by the value alone.
* `Unbounded.compare_eq_compareLex`: both at once, which makes the order total and lawful.
* `Unbounded.order_numeric`: the contract.
-/

namespace TwosComplement

namespace Unbounded

variable {s : Signedness}

/-- Infinite values lie above finite ones; in each group the value decides. -/
theorem compare_unsigned (x y : Unbounded .unsigned) :
    compare x y = (compare x.fill y.fill).then (compare x.toInt y.toInt) := by
  rw [compare_eq]
  cases x.fill <;> cases y.fill <;> rfl

/-! ## Total orders -/

theorem compare_eq_compareLex (x y : Unbounded s) :
    compare x y = compareLex (compareOn (·.infinite)) (compareOn (·.toInt)) x y := by
  cases s with
  | signed => exact compare_signed x y
  | unsigned => exact compare_unsigned x y

instance : Std.TransOrd (Unbounded s) := by
  have h : (compare : Unbounded s → Unbounded s → Ordering) =
      compareLex (compareOn (·.infinite)) (compareOn (·.toInt)) := funext₂ compare_eq_compareLex
  rw [Std.TransOrd, h]
  infer_instance

theorem compare_eq_eq_iff (x y : Unbounded s) : compare x y = .eq ↔ x = y := by
  constructor
  · intro h
    rw [compare_eq_compareLex, compareLex, Ordering.then_eq_eq] at h
    exact toInt_injective (compare_eq_iff_eq.mp h.2)
  · rintro rfl
    exact Std.ReflCmp.compare_self

instance : Std.LawfulEqOrd (Unbounded s) where
  eq_of_compare {x y} h := (compare_eq_eq_iff x y).mp h

/-- The sign of the difference tells the order. -/
theorem compare_lt_iff_negative_sub (x y : Unbounded .signed) :
    compare x y = .lt ↔ (x.sub y).value.negative = true := by
  rw [compare_signed, compare_lt_iff_lt, negative_iff, toInt_sub, sub_neg]

/-- **The order is that of the values.** Signed integers of any lengths are compared as their values are: one is less just
when the difference is negative, and they are equal just when they are the same. Of unsigned integers every infinite one
lies above every finite one, and in each of the two groups the value decides. Both orders are total, and their equality
is that of the representation. -/
theorem order_numeric :
    (∀ x y : Unbounded .signed, compare x y = compare x.toInt y.toInt ∧
      (compare x y = .lt ↔ (x.sub y).value.negative = true)) ∧
    (∀ x y : Unbounded .unsigned, compare x y = (compare x.fill y.fill).then (compare x.toInt y.toInt)) ∧
    ∀ s : Signedness, Std.TransOrd (Unbounded s) ∧ Std.LawfulEqOrd (Unbounded s) ∧
      ∀ x y : Unbounded s, compare x y = .eq ↔ x = y :=
  ⟨fun x y => ⟨compare_signed x y, compare_lt_iff_negative_sub x y⟩, compare_unsigned,
    fun _ => ⟨inferInstance, inferInstance, compare_eq_eq_iff⟩⟩

-- with all bits set: just below zero, or above every other value
example : compare (-1 : Unbounded .signed) 1 = .lt ∧ compare (-1 : Unbounded .unsigned) 1 = .gt := by decide

end Unbounded

end TwosComplement
