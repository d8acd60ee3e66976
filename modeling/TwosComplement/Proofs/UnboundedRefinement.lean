import TwosComplement.Proofs.FixedConversion
import TwosComplement.Proofs.SignedDivision

/-!
# Proofs/UnboundedRefinement — fixed-width arithmetic is unbounded arithmetic, converted

* `Passage`: conversions there and back that keep the integers; `Passage.streams` those by streams.
* `Saturating.Narrows`: every operation widens, computes without bounds, and narrows, the saturating ones to the
  nearest bound.
* `Saturating.machine_narrows`, `Saturating.byDefault_machine`: for every width, whichever way they saturate.
-/

namespace TwosComplement

variable {s : Signedness} {w : ℕ}

/-! ## There and back -/

/-- Conversions of a fixed width to the signed unbounded integers and back, which keep the integers that they can. -/
structure Passage (s : Signedness) (w : ℕ) where
  wide : Fixed s w → Unbounded .signed
  /-- Back, flagged when the width does not hold the integer. -/
  narrow : Unbounded .signed → Flagged (Fixed s w)
  /-- Back, to the bound when the width does not hold the integer. -/
  narrowSat : Unbounded .signed → Fixed s w
  toInt_wide : ∀ a, (wide a).toInt = a.toInt
  narrow_eq_wrap : ∀ x, narrow x = Fixed.wrap x.toInt
  narrowSat_eq_clamp : ∀ x, narrowSat x = Saturating.clamp x.toInt

namespace Passage

/-- The conversions by streams. -/
def streams : Passage s w where
  wide := Fixed.wide
  narrow := Fixed.narrow
  narrowSat := Fixed.narrowSat
  toInt_wide := Fixed.toInt_wide
  narrow_eq_wrap := Fixed.narrow_eq_wrap
  narrowSat_eq_clamp := Fixed.narrowSat_eq_clamp

variable (p : Passage s w)

theorem wide_ne_zero (d : Nonzero (Fixed s w)) : p.wide d.val ≠ 0 := fun h => by
  have h1 := p.toInt_wide d.val
  rw [h, Unbounded.toInt_zero] at h1
  exact Fixed.toInt_ne_zero d h1.symm

/-- A divisor, widened. -/
def wideDivisor (d : Nonzero (Fixed s w)) : Nonzero (Unbounded .signed) := ⟨p.wide d.val, p.wide_ne_zero d⟩

/-- Widened values divide by truncation. -/
theorem divide_wide (a : Fixed s w) (d : Nonzero (Fixed s w)) : ∃ q r : Unbounded .signed,
    (p.wide a).divide (p.wideDivisor d) = .ok (.ok ⟨q, r⟩) ∧ q.toInt = a.toInt.tdiv d.val.toInt ∧
      r.toInt = a.toInt.tmod d.val.toInt := by
  have hd : (p.wideDivisor d).val.toInt = d.val.toInt := p.toInt_wide d.val
  rw [← hd, ← p.toInt_wide a]
  exact Unbounded.divide_signed _ _

theorem wrap_eq_narrow {x : Unbounded .signed} {n : ℤ} (h : x.toInt = n) : Fixed.wrap n = p.narrow x := by
  rw [p.narrow_eq_wrap, h]

theorem clamp_eq_narrowSat {x : Unbounded .signed} {n : ℤ} (h : x.toInt = n) :
    Saturating.clamp n = p.narrowSat x := by
  rw [p.narrowSat_eq_clamp, h]

end Passage

namespace Saturating

/-- The operations of a type are those of the signed unbounded integers between two conversions, with the flag of
the second one. -/
structure Narrows (ops : Saturating s w) (p : Passage s w) : Prop where
  add : ∀ a b, ops.add a b = p.narrow (p.wide a + p.wide b)
  sub : ∀ a b, ops.sub a b = p.narrow (p.wide a - p.wide b)
  mul : ∀ a b, ops.mul a b = p.narrow (p.wide a * p.wide b)
  neg : ∀ a, ops.neg a = p.narrow (-p.wide a)
  tdiv : ∀ a d, ∃ q, (p.wide a).quotient (p.wideDivisor d) = .ok (.ok q) ∧ ops.tdiv a d = p.narrow q
  tmod : ∀ a d, ∃ r, (p.wide a).remainder (p.wideDivisor d) = .ok (.ok r) ∧ .ok (ops.tmod a d) = p.narrow r
  addSat : ∀ a b, ops.addSat a b = p.narrowSat (p.wide a + p.wide b)
  subSat : ∀ a b, ops.subSat a b = p.narrowSat (p.wide a - p.wide b)
  mulSat : ∀ a b, ops.mulSat a b = p.narrowSat (p.wide a * p.wide b)
  negSat : ∀ a, ops.negSat a = p.narrowSat (-p.wide a)

theorem machine_narrows (p : Passage s w) : machine.Narrows p where
  add a b := p.wrap_eq_narrow (by simp [p.toInt_wide])
  sub a b := p.wrap_eq_narrow (by simp [p.toInt_wide])
  mul a b := p.wrap_eq_narrow (by simp [p.toInt_wide])
  neg a := p.wrap_eq_narrow (by simp [p.toInt_wide])
  tdiv a d := by
    obtain ⟨q, r, h, hq, -⟩ := p.divide_wide a d
    refine ⟨q, ?_, p.wrap_eq_narrow hq⟩
    unfold Unbounded.quotient
    rw [h]
    rfl
  tmod a d := by
    obtain ⟨q, r, h, -, hr⟩ := p.divide_wide a d
    refine ⟨r, ?_, ?_⟩
    · unfold Unbounded.remainder
      rw [h]
      rfl
    · -- a remainder is in range, so that narrowing it raises no flag
      rw [← p.wrap_eq_narrow hr, ← Fixed.toInt_tmod, Fixed.wrap_toInt]
      rfl
  addSat a b := p.clamp_eq_narrowSat (by simp [p.toInt_wide])
  subSat a b := p.clamp_eq_narrowSat (by simp [p.toInt_wide])
  mulSat a b := p.clamp_eq_narrowSat (by simp [p.toInt_wide])
  negSat a := (Fixed.saturate_neg a).trans (p.clamp_eq_narrowSat (by simp [p.toInt_wide]))

/-- The bounds chosen by signs are the nearest ones. -/
theorem byDefault_machine : (byDefault Operations.machine : Saturating s w) = machine := by
  unfold byDefault machine
  congr 1
  · exact funext₂ Fixed.saturate_add
  · exact funext₂ Fixed.saturate_sub
  · exact funext₂ Fixed.saturate_mul

end Saturating

namespace FixedType

theorem byDefault_narrows (t : FixedType) (p : Passage t.signedness t.width) :
    (Saturating.byDefault t.operations.toOperations).Narrows p := by
  have hmachine := Saturating.machine_narrows p
  rw [← Saturating.byDefault_machine] at hmachine
  cases t with
  | oneBit s =>
    show (Saturating.byDefault Operations.oneBit).Narrows p
    rw [Operations.oneBit_eq_machine]
    exact hmachine
  | machine s width => exact hmachine

theorem operations_narrows (t : FixedType) (p : Passage t.signedness t.width) : t.operations.Narrows p := by
  cases t with
  | oneBit s => exact byDefault_narrows (.oneBit s) p
  | machine s width => exact Saturating.machine_narrows p

/-! ## The contract -/

/-- **Fixed-width arithmetic is the exact conversion of unbounded arithmetic.**  In every type, of one bit by its
tables or of a machine width, each operation has the value and the flag of the unbounded operation on the widened
operands, converted back.  Division never fails, and remainders never carry a flag.  The saturating forms are the
clamping conversion, both those of the type's own and the default ones. -/
theorem narrows_unbounded (t : FixedType) :
    t.operations.Narrows .streams ∧ (Saturating.byDefault t.operations.toOperations).Narrows .streams :=
  ⟨t.operations_narrows .streams, t.byDefault_narrows .streams⟩

end FixedType

end TwosComplement
