import TwosComplement.Proofs.ClampingConversion
import TwosComplement.Proofs.UnboundedRefinement

/-!
# Proofs/WordConversions — what conversions keep, each type writing words its own way

Conversions between types see nothing but words and appendices. As those of every type are the words of its streams,
whatever holds of the conversions by streams holds of the conversions by words, of the shifts of the machine widths and
the tables of one bit.

* `Representation.bitRing`, `Representation.convertMasking_hom`: masking respects sums, products and bitwise operations,
  whichever type it goes to.
* `Representation.masking_respects`, `Representation.exact_answers`: masking and exact conversion.
* `FixedType.passage`, `FixedType.narrows_by_words`: fixed-width arithmetic between two conversions.
-/

namespace TwosComplement

namespace Representation

open IntType (meaning)

variable {k l : Signedness}

/-! ## Masking -/

/-- The operations of a type whose low bits depend on nothing but low bits. -/
def bitRing : (r : Representation) → BitRing r.Value
  | fixed t => t.operations.bitRing
  | unbounded l => Unbounded.bitRing l

theorem convertMasking_fixed (t : FixedType) :
    (fixed t).view.convertMasking (unbounded k).view = Unbounded.mask :=
  funext (convertMasking_eq (fixed t) (unbounded k))

theorem convertMasking_unbounded : (unbounded l).view.convertMasking (unbounded k).view = Unbounded.recast :=
  funext (convertMasking_eq (unbounded l) (unbounded k))

theorem convertMasking_hom (k : Signedness) (r : Representation) :
    (Unbounded.bitRing k).Hom r.bitRing (r.view.convertMasking (unbounded k).view) := by
  cases r with
  | fixed t =>
    rw [convertMasking_fixed]
    show (Unbounded.bitRing k).Hom t.operations.bitRing Unbounded.mask
    rw [t.operations_eq_machine]
    exact Unbounded.mask_hom k t.signedness t.width
  | unbounded l =>
    rw [convertMasking_unbounded]
    exact Unbounded.recast_hom k l

/-- **Masking by words is a homomorphism.**  From the unbounded integers of either kind to any type, it respects sums,
differences, products, negation and the bitwise operations, flags left out; to a type of a fixed width shifts by less
than that width, and to the unbounded integers shifts by any distance either way. -/
theorem masking_respects (k : Signedness) :
    (∀ r : Representation, (Unbounded.bitRing k).Hom r.bitRing (r.view.convertMasking (unbounded k).view)) ∧
    (∀ (t : FixedType) (x : Unbounded k), ∀ d < t.width,
      t.operations.shiftLeft ((fixed t).view.convertMasking (unbounded k).view x) d =
        .ok ((fixed t).view.convertMasking (unbounded k).view (x <<< d))) ∧
    ∀ (l : Signedness) (x : Unbounded k) (d : ℕ),
      (unbounded l).view.convertMasking (unbounded k).view (x <<< d) =
        ((unbounded l).view.convertMasking (unbounded k).view x : Unbounded l) <<< d ∧
      (unbounded l).view.convertMasking (unbounded k).view (x >>> d) =
        ((unbounded l).view.convertMasking (unbounded k).view x : Unbounded l) >>> d := by
  refine ⟨convertMasking_hom k, ?_, ?_⟩
  · intro t x d hd
    rw [convertMasking_fixed, t.operations_eq_machine]
    exact Unbounded.mask_shiftLeft x hd
  · intro l x d
    rw [convertMasking_unbounded]
    exact ⟨Unbounded.recast_shiftLeft x d, Unbounded.recast_shiftRight x d⟩

/-! ## Exact conversion -/

/-- **Exact conversion by words flags exactly what its target cannot represent.**  Between any two types it is clear
just when some value of the target means what the source does, it answers without a flag with that value, and the way
back from there is clear and gives the source again. -/
theorem exact_answers (source target : Representation) (a : source.Value) :
    ((target.view.convertExact source.view a).flag = false ↔ ∃ b : target.Value, meaning b = meaning a) ∧
    ∀ b : target.Value, (target.view.convertExact source.view a = .ok b ↔ meaning b = meaning a) ∧
      (target.view.convertExact source.view a = .ok b ↔ source.view.convertExact target.view b = .ok a) := by
  rw [convertExact_eq]
  refine ⟨IntType.flag_convertExact_eq_false_iff a, ?_⟩
  intro b
  rw [convertExact_eq, IntType.convertExact_eq_ok_iff, IntType.convertExact_eq_ok_iff]
  exact ⟨Iff.rfl, eq_comm⟩

end Representation

/-! ## Arithmetic between two conversions -/

namespace FixedType

/-- The values of a fixed width between their own bounds. -/
theorem bounds?_view (t : FixedType) : (Representation.fixed t).view.bounds? = some ⟨Fixed.least, Fixed.greatest⟩ := by
  rw [(Representation.fixed t).view_eq]
  rfl

/-- The conversions by the words of the type and those of the signed unbounded integers. -/
def passage (t : FixedType) : Passage t.signedness t.width where
  wide := (Representation.unbounded .signed).view.convertMasking (Representation.fixed t).view
  narrow := (Representation.fixed t).view.convertExact (Representation.unbounded .signed).view
  narrowSat := (Representation.fixed t).view.convertClamping ⟨Fixed.least, Fixed.greatest⟩
    (Representation.unbounded .signed).view
  toInt_wide a := by
    rw [Representation.convertMasking_eq]
    exact Fixed.toInt_wide a
  narrow_eq_wrap x := by
    rw [Representation.convertExact_eq]
    exact Fixed.narrow_eq_wrap x
  narrowSat_eq_clamp x := by
    rw [Representation.convertClamping_eq]
    exact Fixed.narrowSat_eq_clamp x

/-- **Fixed-width arithmetic is unbounded arithmetic between two conversions by words.**  Each operation of a type has
the value and the flag of the unbounded one on operands that are widened by their words, converted back exactly; the
saturating ones are converted back to the bounds of the type. -/
theorem narrows_by_words (t : FixedType) : (Representation.fixed t).view.bounds? = some ⟨Fixed.least, Fixed.greatest⟩ ∧
    t.operations.Narrows t.passage ∧ (Saturating.byDefault t.operations.toOperations).Narrows t.passage :=
  ⟨t.bounds?_view, t.operations_narrows t.passage, t.byDefault_narrows t.passage⟩

end FixedType

end TwosComplement
