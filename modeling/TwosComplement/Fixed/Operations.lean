import TwosComplement.Fixed.Wide

/-!
# Fixed/Operations — the operations of a type as a whole, and the tables of the one-bit types

Types of several bits share the operations of `Fixed`. The types of one bit have tables of their own, which look
at the bits only: a set bit is one when unsigned and minus one when signed. The tables of the two differ in the
flag of a product and of a quotient, since minus one times or by itself is one.

* `Operations.oneBit_eq_machine`: the tables are the general operations at width one.
* `Saturating`: the saturating forms, by default from the flagged ones.
* `FixedType`: the types, each with the way in which it computes; `FixedType.operations_eq_machine`.
-/

namespace TwosComplement

/-- What a fixed-width type computes. -/
structure Operations (s : Signedness) (w : Nat) where
  order : Fixed s w → Fixed s w → Ordering
  add : Fixed s w → Fixed s w → Flagged (Fixed s w)
  sub : Fixed s w → Fixed s w → Flagged (Fixed s w)
  mul : Fixed s w → Fixed s w → Flagged (Fixed s w)
  neg : Fixed s w → Flagged (Fixed s w)
  addCarry : Fixed s w → Fixed s w → Bool → Flagged (Fixed s w)
  subBorrow : Fixed s w → Fixed s w → Bool → Flagged (Fixed s w)
  tdiv : Fixed s w → Nonzero (Fixed s w) → Flagged (Fixed s w)
  tmod : Fixed s w → Nonzero (Fixed s w) → Fixed s w
  tdivMod : Fixed s w → Nonzero (Fixed s w) → Flagged (QuotRem (Fixed s w) (Fixed s w))
  shiftLeft : Fixed s w → Nat → Flagged (Fixed s w)
  shiftRight : Fixed s w → Nat → Flagged (Fixed s w)
  mulWide : Fixed s w → Fixed s w → DoubleWidth s w
  tdivWide : DoubleWidth s w → Nonzero (Fixed s w) → Except Fault (Flagged (QuotRem (Fixed s w) (Fixed s w)))
  and : Fixed s w → Fixed s w → Fixed s w
  or : Fixed s w → Fixed s w → Fixed s w
  xor : Fixed s w → Fixed s w → Fixed s w
  complement : Fixed s w → Fixed s w

namespace Operations

variable {s : Signedness} {w : Nat}

/-- The operations of a type of any width, through the exact integers. -/
def machine : Operations s w where
  order := compare
  add := Fixed.add
  sub := Fixed.sub
  mul := Fixed.mul
  neg := Fixed.neg
  addCarry := Fixed.addCarry
  subBorrow := Fixed.subBorrow
  tdiv := Fixed.tdiv
  tmod := Fixed.tmod
  tdivMod := Fixed.tdivMod
  shiftLeft := Fixed.shiftLeft
  shiftRight := Fixed.shiftRight
  mulWide := Fixed.mulWide
  tdivWide := Fixed.tdivWide
  and := (· &&& ·)
  or := (· ||| ·)
  xor := (· ^^^ ·)
  complement := (~~~ ·)

/-! ## One bit -/

/-- The bit of a one-bit value. -/
def bit (a : Fixed s 1) : Bool := a.bits.getLsbD 0

/-- The one-bit value of a bit. -/
def ofBit (b : Bool) : Fixed s 1 := ⟨BitVec.ofBool b⟩

/-- A sum of at most three bits, of which the signed ones count negatively: its parity, flagged outside the range
of the type. -/
def ripple (total : Int) : Flagged (Fixed s 1) :=
  match s with
  | .unsigned => ⟨ofBit (total % 2 == 1), !(0 ≤ total && total ≤ 1)⟩
  | .signed => ⟨ofBit (total % 2 == 1), !(-1 ≤ total && total ≤ 0)⟩

/-- What a set bit counts. -/
def weight (a : Fixed s 1) : Int :=
  match s with
  | .unsigned => (bit a).toNat
  | .signed => -(bit a).toNat

/-- The tables of the one-bit types. -/
def oneBit : Operations s 1 where
  order a b := match s with
    | .unsigned => compare (bit a) (bit b)
    | .signed => compare (bit b) (bit a)
  add a b := ⟨ofBit (bit a ^^ bit b), bit a && bit b⟩
  sub a b := ⟨ofBit (bit a ^^ bit b), !bit a && bit b⟩
  mul a b := ⟨ofBit (bit a && bit b), s.isSigned && (bit a && bit b)⟩
  neg a := ⟨a, bit a⟩
  addCarry a b carry := ripple (weight a + weight b + carry.toNat)
  subBorrow a b borrow := ripple (weight a - weight b - borrow.toNat)
  tdiv a _ := ⟨a, s.isSigned && bit a⟩
  tmod _ _ := ofBit false
  tdivMod a _ := ⟨⟨a, ofBit false⟩, s.isSigned && bit a⟩
  shiftLeft a distance := ⟨a, decide (1 ≤ distance)⟩
  shiftRight a distance := ⟨a, decide (1 ≤ distance)⟩
  mulWide a b := ⟨BitVec.ofBool (bit a && bit b), BitVec.ofBool false⟩
  tdivWide x _ := .ok ⟨⟨⟨x.low⟩, ofBit false⟩, x.high.getLsbD 0⟩
  and a b := ofBit (bit a && bit b)
  or a b := ofBit (bit a || bit b)
  xor a b := ofBit (bit a ^^ bit b)
  complement a := ofBit (!bit a)

/-! ## The tables are the general operations -/

theorem eq_ofBool (v : BitVec 1) : v = BitVec.ofBool (v.getLsbD 0) := by
  revert v
  decide

theorem ofBit_true_ne_zero : (ofBit true : Fixed s 1) ≠ 0 := by
  cases s <;> decide

theorem ext_bit {β : Type} {f g : Fixed s 1 → β} (h : ∀ p, f (ofBit p) = g (ofBit p)) : f = g := by
  funext a
  rw [show a = ofBit (bit a) from Fixed.ext (eq_ofBool a.bits)]
  exact h _

theorem ext_bits {β : Type} {f g : Fixed s 1 → Fixed s 1 → β}
    (h : ∀ p q, f (ofBit p) (ofBit q) = g (ofBit p) (ofBit q)) : f = g :=
  ext_bit fun p => ext_bit fun q => h p q

theorem ext_wide {β : Type} {f g : DoubleWidth s 1 → β}
    (h : ∀ p q, f ⟨BitVec.ofBool p, BitVec.ofBool q⟩ = g ⟨BitVec.ofBool p, BitVec.ofBool q⟩) : f = g := by
  funext x
  rcases x with ⟨low, high⟩
  rw [eq_ofBool low, eq_ofBool high]
  exact h _ _

/-- The only nonzero one-bit value is the set bit. -/
theorem ext_divisor {β : Type} {f g : Nonzero (Fixed s 1) → β}
    (h : f ⟨ofBit true, ofBit_true_ne_zero⟩ = g ⟨ofBit true, ofBit_true_ne_zero⟩) : f = g := by
  funext d
  rcases d with ⟨d, hd⟩
  have set : d = ofBit true := by
    rw [show d = ofBit (bit d) from Fixed.ext (eq_ofBool d.bits)] at hd ⊢
    cases hb : bit d with
    | false =>
      rw [hb] at hd
      exact absurd rfl hd
    | true => rfl
  subst set
  exact h

theorem oneBit_eq_machine : (oneBit : Operations s 1) = machine := by
  unfold oneBit machine
  congr 1
  case e_order => exact ext_bits fun p q => by cases s <;> cases p <;> cases q <;> decide
  case e_add => exact ext_bits fun p q => by cases s <;> cases p <;> cases q <;> decide
  case e_sub => exact ext_bits fun p q => by cases s <;> cases p <;> cases q <;> decide
  case e_mul => exact ext_bits fun p q => by cases s <;> cases p <;> cases q <;> decide
  case e_neg => exact ext_bit fun p => by cases s <;> cases p <;> decide
  case e_addCarry =>
    exact ext_bits fun p q => funext fun c => by cases s <;> cases p <;> cases q <;> cases c <;> decide
  case e_subBorrow =>
    exact ext_bits fun p q => funext fun c => by cases s <;> cases p <;> cases q <;> cases c <;> decide
  case e_tdiv => exact ext_bit fun p => ext_divisor (by cases s <;> cases p <;> decide)
  case e_tmod => exact ext_bit fun p => ext_divisor (by cases s <;> cases p <;> decide)
  case e_tdivMod => exact ext_bit fun p => ext_divisor (by cases s <;> cases p <;> decide)
  case e_shiftLeft => funext a k; simp [Fixed.shiftLeft, Nat.mod_one]
  case e_shiftRight => funext a k; cases s <;> simp [Fixed.shiftRight, Nat.mod_one]
  case e_mulWide => exact ext_bits fun p q => by cases s <;> cases p <;> cases q <;> decide
  case e_tdivWide => exact ext_wide fun p q => ext_divisor (by cases s <;> cases p <;> cases q <;> rfl)
  case e_and => exact ext_bits fun p q => by cases s <;> cases p <;> cases q <;> decide
  case e_or => exact ext_bits fun p q => by cases s <;> cases p <;> cases q <;> decide
  case e_xor => exact ext_bits fun p q => by cases s <;> cases p <;> cases q <;> decide
  case e_complement => exact ext_bit fun p => by cases s <;> cases p <;> decide

end Operations

/-! ## Saturation -/

/-- The operations of a type together with their saturating forms. -/
structure Saturating (s : Signedness) (w : Nat) extends Operations s w where
  addSat : Fixed s w → Fixed s w → Fixed s w
  subSat : Fixed s w → Fixed s w → Fixed s w
  mulSat : Fixed s w → Fixed s w → Fixed s w
  negSat : Fixed s w → Fixed s w

namespace Saturating

variable {s : Signedness} {w : Nat}

/-- The saturating forms of a type that has none of its own: a flagged result gives way to a bound, chosen by the
signs of the operands. -/
def byDefault (ops : Operations s w) : Saturating s w where
  toOperations := ops
  addSat a b := Fixed.saturate (ops.add a b) b.negative
  subSat a b := Fixed.saturate (ops.sub a b) (!b.negative)
  mulSat a b := Fixed.saturate (ops.mul a b) (a.negative != b.negative)
  negSat a := Fixed.saturate (ops.neg a) (!a.negative)

/-- The value of the type that is nearest to an integer. -/
def clamp (n : Int) : Fixed s w :=
  if n < (Fixed.least : Fixed s w).toInt then Fixed.least
  else if (Fixed.greatest : Fixed s w).toInt < n then Fixed.greatest
  else Fixed.ofInt n

/-- Types of several bits have sums, differences and products of their own that go to the nearest value. -/
def machine : Saturating s w where
  toOperations := Operations.machine
  addSat a b := clamp (a.toInt + b.toInt)
  subSat a b := clamp (a.toInt - b.toInt)
  mulSat a b := clamp (a.toInt * b.toInt)
  negSat := (byDefault Operations.machine).negSat

/-- The types of one bit have none. -/
def oneBit : Saturating s 1 := byDefault Operations.oneBit

end Saturating

/-! ## The types -/

/-- The widths of the types of several bits. -/
inductive MachineWidth where
  | bits8
  | bits16
  | bits32
  | bits64
deriving DecidableEq

/-- The number of bits. -/
def MachineWidth.bits : MachineWidth → Nat
  | bits8 => 8
  | bits16 => 16
  | bits32 => 32
  | bits64 => 64

/-- The fixed-width types. -/
inductive FixedType where
  | oneBit (s : Signedness)
  | machine (s : Signedness) (width : MachineWidth)
deriving DecidableEq

namespace FixedType

/-- The signedness of a type. -/
def signedness : FixedType → Signedness
  | oneBit s => s
  | machine s _ => s

/-- The number of bits of a type. -/
def width : FixedType → Nat
  | oneBit _ => 1
  | machine _ w => w.bits

/-- How a type computes. -/
def operations : (t : FixedType) → Saturating t.signedness t.width
  | oneBit _ => Saturating.oneBit
  | machine _ _ => Saturating.machine

theorem width_pos (t : FixedType) : 0 < t.width := by
  cases t with
  | oneBit s => exact Nat.one_pos
  | machine s w => cases w <;> exact Nat.succ_pos _

theorem width_le (t : FixedType) : t.width ≤ 64 := by
  cases t with
  | oneBit s => exact Nat.le_of_ble_eq_true rfl
  | machine s w => cases w <;> exact Nat.le_of_ble_eq_true rfl

/-- Saturation apart, all types compute alike. -/
theorem operations_eq_machine (t : FixedType) : t.operations.toOperations = Operations.machine := by
  cases t with
  | oneBit s => exact Operations.oneBit_eq_machine
  | machine s width => rfl

end FixedType

end TwosComplement
