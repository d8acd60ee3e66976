/-!
# Limb — the digits of multi-limb numbers

A limb is an unsigned number of `w` bits. Everything longer than a limb is built from additions and
subtractions that pass a carry on, so the carry is part of their result and no bit is lost.

* `addCarry_recompose`, `subBorrow_recompose`: limb and carry together are the exact result, in two steps as in one.
* `Limb.trailingRun`, `Limb.leadingRun`, `Limb.bitCount` count the bits that equal a given one.
-/

namespace TwosComplement

-- powers are those of the core library, whatever else is imported
attribute [local instance (high)] instPowNat instNatPowNat Int.instNatPow

/-- An unsigned number of `w` bits. -/
abbrev Limb (w : Nat) := BitVec w

/-- The limb of a machine word, of which unbounded integers are made. -/
abbrev Word := Limb 64

namespace Limb

variable {w : Nat}

/-! ## Carries

A carry is added to the wrapped sum in a second step. At most one of the two steps passes the limb, so either counts. -/

/-- `a + n` for a limb or a carry `n`: the low limb, and whether the sum passes the limb. -/
def overflowingAdd (a : Limb w) (n : Nat) : Limb w × Bool :=
  (BitVec.ofNat w (a.toNat + n), decide (2 ^ w ≤ a.toNat + n))

/-- `a - n` for a limb or a borrow `n`: the low limb, and whether the difference drops below zero. -/
def overflowingSub (a : Limb w) (n : Nat) : Limb w × Bool :=
  (BitVec.ofNat w (2 ^ w + a.toNat - n), decide (a.toNat < n))

/-- `a + b + carry`: the low limb, and whether one of the two steps passes the limb. -/
def addCarry (a b : Limb w) (carry : Bool) : Limb w × Bool :=
  let (first, passes) := overflowingAdd a b.toNat
  let (second, passesAgain) := overflowingAdd first carry.toNat
  (second, passes || passesAgain)

/-- `a - b - borrow`: the low limb, and whether one of the two steps drops below zero. -/
def subBorrow (a b : Limb w) (borrow : Bool) : Limb w × Bool :=
  let (first, drops) := overflowingSub a b.toNat
  let (second, dropsAgain) := overflowingSub first borrow.toNat
  (second, drops || dropsAgain)

theorem overflowingAdd_recompose (a : Limb w) {n : Nat} (h : n ≤ 2 ^ w) :
    (overflowingAdd a n).1.toNat + 2 ^ w * (overflowingAdd a n).2.toNat = a.toNat + n := by
  have ha := a.isLt
  simp only [overflowingAdd, BitVec.toNat_ofNat]
  by_cases passes : 2 ^ w ≤ a.toNat + n
  · rw [Nat.mod_eq_sub_mod passes, Nat.mod_eq_of_lt (by omega)]
    simp only [passes, decide_true, Bool.toNat_true]
    omega
  · rw [Nat.mod_eq_of_lt (by omega)]
    simp [passes]

theorem overflowingSub_recompose (a : Limb w) {n : Nat} (h : n ≤ 2 ^ w) :
    (overflowingSub a n).1.toNat + n = a.toNat + 2 ^ w * (overflowingSub a n).2.toNat := by
  have ha := a.isLt
  simp only [overflowingSub, BitVec.toNat_ofNat]
  by_cases drops : a.toNat < n
  · rw [Nat.mod_eq_of_lt (by omega)]
    simp only [drops, decide_true, Bool.toNat_true]
    omega
  · rw [Nat.mod_eq_sub_mod (by omega), Nat.mod_eq_of_lt (by omega)]
    simp only [drops, decide_false, Bool.toNat_false]
    omega

theorem toNat_bit_le (bit : Bool) : bit.toNat ≤ 2 ^ w :=
  Nat.le_trans (Bool.toNat_le bit) (Nat.two_pow_pos w)

theorem addCarry_recompose (a b : Limb w) (carry : Bool) :
    (addCarry a b carry).1.toNat + 2 ^ w * (addCarry a b carry).2.toNat =
      a.toNat + b.toNat + carry.toNat := by
  have ha := a.isLt
  have hb := b.isLt
  have hc : carry.toNat ≤ 1 := Bool.toNat_le carry
  have first := overflowingAdd_recompose a (Nat.le_of_lt hb)
  have second := overflowingAdd_recompose (overflowingAdd a b.toNat).1 (toNat_bit_le (w := w) carry)
  simp only [addCarry]
  -- both steps cannot pass the limb: the sum would be two bases or more
  cases hp : (overflowingAdd a b.toNat).2 <;>
    cases hq : (overflowingAdd (overflowingAdd a b.toNat).1 carry.toNat).2 <;>
    simp only [hp, hq, Bool.or_false, Bool.or_true, Bool.toNat_true, Bool.toNat_false] at first second ⊢ <;> omega

theorem subBorrow_recompose (a b : Limb w) (borrow : Bool) :
    (subBorrow a b borrow).1.toNat + b.toNat + borrow.toNat =
      a.toNat + 2 ^ w * (subBorrow a b borrow).2.toNat := by
  have ha := a.isLt
  have hb := b.isLt
  have hc : borrow.toNat ≤ 1 := Bool.toNat_le borrow
  have first := overflowingSub_recompose a (Nat.le_of_lt hb)
  have second := overflowingSub_recompose (overflowingSub a b.toNat).1 (toNat_bit_le (w := w) borrow)
  have hr := (overflowingSub (overflowingSub a b.toNat).1 borrow.toNat).1.isLt
  simp only [subBorrow]
  cases hp : (overflowingSub a b.toNat).2 <;>
    cases hq : (overflowingSub (overflowingSub a b.toNat).1 borrow.toNat).2 <;>
    simp only [hp, hq, Bool.or_false, Bool.or_true, Bool.toNat_true, Bool.toNat_false] at first second ⊢ <;> omega

/-- The low limb of a sum is that of the exact sum. -/
theorem fst_addCarry (a b : Limb w) (carry : Bool) :
    (addCarry a b carry).1 = BitVec.ofNat w (a.toNat + b.toNat + carry.toNat) := by
  refine BitVec.eq_of_toNat_eq ?_
  rw [BitVec.toNat_ofNat, ← addCarry_recompose, Nat.add_mul_mod_self_left, Nat.mod_eq_of_lt (BitVec.isLt _)]

/-- Below a larger multiple of the base, whatever the limb. -/
theorem toNat_add_mul_lt (a : Limb w) {m n : Nat} (h : m < n) : a.toNat + 2 ^ w * m < 2 ^ w * n := by
  have ha := a.isLt
  have hstep : 2 ^ w * (m + 1) ≤ 2 ^ w * n := Nat.mul_le_mul_left (2 ^ w) h
  rw [Nat.mul_succ] at hstep
  omega

theorem toNat_sub_one {a : Limb w} (h : 0 < a.toNat) : (a - 1).toNat = a.toNat - 1 := by
  have fits := a.isLt
  have one : (1 : Limb w).toNat = 1 := (BitVec.toNat_ofNat 1 w).trans (Nat.mod_eq_of_lt (by omega))
  rw [BitVec.toNat_sub_of_le (by rw [BitVec.le_def, one]; omega), one]

/-! ## Bits -/

/-- The length of the run of `bit` at the bottom. -/
def trailingRun (a : Limb w) (bit : Bool) : Nat :=
  ((List.range w).takeWhile fun i => a.getLsbD i == bit).length

/-- The length of the run of `bit` at the top. -/
def leadingRun (a : Limb w) (bit : Bool) : Nat :=
  ((List.range w).takeWhile fun i => a.getMsbD i == bit).length

/-- The number of bits equal to `bit`. -/
def bitCount (a : Limb w) (bit : Bool) : Nat :=
  (List.range w).countP fun i => a.getLsbD i == bit

/-- The limb all of whose bits are `bit`. -/
def filled (w : Nat) (bit : Bool) : Limb w := if bit then BitVec.allOnes w else 0

theorem trailingRun_le (a : Limb w) (bit : Bool) : a.trailingRun bit ≤ w := by
  have h := (List.takeWhile_sublist (l := List.range w) fun i => a.getLsbD i == bit).length_le
  rwa [List.length_range] at h

theorem leadingRun_le (a : Limb w) (bit : Bool) : a.leadingRun bit ≤ w := by
  have h := (List.takeWhile_sublist (l := List.range w) fun i => a.getMsbD i == bit).length_le
  rwa [List.length_range] at h

theorem bitCount_le (a : Limb w) (bit : Bool) : a.bitCount bit ≤ w := by
  have h := List.countP_le_length (p := fun i => a.getLsbD i == bit) (l := List.range w)
  rwa [List.length_range] at h

@[simp] theorem getLsbD_filled (bit : Bool) (i : Nat) :
    (filled w bit).getLsbD i = (decide (i < w) && bit) := by
  cases bit <;> simp [filled]

end Limb

end TwosComplement
