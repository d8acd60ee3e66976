import TwosComplement.Proofs.WordViews

/-!
# Proofs/MaskingConversion — conversions that keep low bits compose

A masking conversion keeps the low bits that its target has. A second one keeps some of those, and finds them where the
first one left them, however the first target extends what it holds.

* `Representation.convertMasking_eq`: the conversion by words reads the stream of its source.
* `Representation.masking_composes`: through a type that is wide enough, and back from it.
-/

namespace TwosComplement

namespace Representation

theorem convertMasking_eq (target source : Representation) (a : source.Value) :
    target.view.convertMasking source.view a = @IntType.convertMasking target.intType source.intType a := by
  rw [target.view_eq, source.view_eq]
  exact IntType.ofStream_eq_of_bits fun n _ => WordStream.bit_map_word _ le_rfl n

variable {s t : Representation}

/-- **Masking conversions compose, and lose nothing that the last target holds.**  Whatever type a value is of, and
however the types read their top bits, a conversion to a type through one of at least its width is the conversion
itself; and a value that is converted to a type of at least its own width comes back from there. -/
theorem masking_composes (h : s.intType.width ≤ t.intType.width) :
    (∀ (r : Representation) (x : r.Value), s.view.convertMasking t.view (t.view.convertMasking r.view x) =
      s.view.convertMasking r.view x) ∧
    ∀ x : s.Value, s.view.convertMasking t.view (t.view.convertMasking s.view x) = x := by
  have hthrough (r : Representation) (x : r.Value) :
      s.view.convertMasking t.view (t.view.convertMasking r.view x) = s.view.convertMasking r.view x := by
    rw [convertMasking_eq, convertMasking_eq, convertMasking_eq]
    exact IntType.ofStream_toStream_ofStream h (IntType.toStream x)
  refine ⟨hthrough, ?_⟩
  intro x
  rw [hthrough, convertMasking_eq]
  exact IntType.ofStream_toStream x

/-- Minus three goes through the unsigned bytes to a single bit as it goes there at once, and it comes back from the
unbounded unsigned integers, where it is infinite. -/
theorem masking_composes_minus_three :
    let bit := Representation.fixed (.oneBit .signed)
    let byte := Representation.fixed (.machine .unsigned .bits8)
    let short := Representation.fixed (.machine .signed .bits16)
    let wide := Representation.unbounded .unsigned
    bit.view.convertMasking byte.view (byte.view.convertMasking short.view (.ofInt (-3))) =
        bit.view.convertMasking short.view (.ofInt (-3)) ∧
      short.view.convertMasking wide.view (wide.view.convertMasking short.view (.ofInt (-3))) = .ofInt (-3) := by
  have hbit : (Representation.fixed (.oneBit .signed)).intType.width ≤
      (Representation.fixed (.machine .unsigned .bits8)).intType.width := Nat.cast_le.mpr (by decide)
  have hshort : (Representation.fixed (.machine .signed .bits16)).intType.width ≤
      (Representation.unbounded .unsigned).intType.width := le_top
  exact ⟨(masking_composes hbit).1 (.fixed (.machine .signed .bits16)) (.ofInt (-3)),
    (masking_composes hshort).2 (.ofInt (-3))⟩

end Representation

end TwosComplement
