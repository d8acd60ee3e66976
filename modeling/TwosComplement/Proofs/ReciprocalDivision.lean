import TwosComplement.Proofs.ReciprocalBounds

/-!
# Proofs/ReciprocalDivision — dividing through a reciprocal is truncated division

* `Reciprocal.toNat_divideMagnitude`: the multiplication, the shifts and the halving give the quotient of the
  magnitudes.
* `Reciprocal.KeepsBits`: no step on the way drops a bit; `RoundedUp.keepsBits`.
* `Reciprocal.divide_ofDivisor`: with the signs restored, the division is `Fixed.tdivMod`, and the one quotient
  that does not fit is a fault.
-/

namespace TwosComplement

/-- A flagged result is refused as an overflow of the division. -/
def Flagged.orOverflow {α : Type} (x : Flagged α) : Except Fault α :=
  if x.flag then .error .divisionOverflow else .ok x.value

theorem Flagged.map_orOverflow {α β : Type} (f : α → β) (x : Flagged α) :
    x.orOverflow.map f = (x.map f).orOverflow := by
  unfold orOverflow
  rw [flag_map, value_map]
  cases x.flag <;> rfl

namespace Limb

variable {w : ℕ}

theorem toNat_high_fullProduct (a b : Limb w) : (fullProduct a b).high.toNat = a.toNat * b.toNat / 2 ^ w := by
  have h : a.toNat * b.toNat / 2 ^ w < 2 ^ w :=
    Nat.div_lt_of_lt_mul (Nat.mul_lt_mul'' a.isLt b.isLt)
  show (BitVec.ofNat w (a.toNat * b.toNat / 2 ^ w)).toNat = _
  rw [BitVec.toNat_ofNat, Nat.mod_eq_of_lt h]

theorem toNat_low_fullProduct (a b : Limb w) : (fullProduct a b).low.toNat = a.toNat * b.toNat % 2 ^ w :=
  BitVec.toNat_ofNat _ _

theorem toNat_ushiftRight (a : Limb w) (k : ℕ) : (a >>> k).toNat = a.toNat / 2 ^ k := by
  rw [BitVec.toNat_ushiftRight, Nat.shiftRight_eq_div_pow]

end Limb

namespace Reciprocal

variable {s : Signedness} {w : ℕ} {r : Reciprocal s w} {n : Limb w}

/-! ## The quotient of the magnitudes -/

/-- The high limb of the product with the multiplier. -/
def highProduct (r : Reciprocal s w) (n : Limb w) : Limb w := (Limb.fullProduct n r.multiplier).high

theorem toNat_highProduct : (r.highProduct n).toNat = n.toNat * r.multiplier.toNat / 2 ^ w :=
  Limb.toNat_high_fullProduct n r.multiplier

theorem highProduct_le : r.highProduct n ≤ n := by
  rw [BitVec.le_def, toNat_highProduct]
  refine Nat.div_le_of_le_mul ?_
  rw [Nat.mul_comm]
  exact Nat.mul_le_mul_right _ r.multiplier.isLt.le

/-- The difference to the numerator, halved, plus the high limb: the mean of the two, which fits a limb. -/
theorem toNat_halved : ((n - r.highProduct n) >>> 1 + r.highProduct n).toNat =
    (n.toNat + (r.highProduct n).toNat) / 2 := by
  have hn := n.isLt
  have hle := BitVec.le_def.mp (highProduct_le (r := r) (n := n))
  rw [BitVec.toNat_add, Limb.toNat_ushiftRight, BitVec.toNat_sub_of_le highProduct_le,
    Nat.mod_eq_of_lt (by omega)]
  omega

/-- The exact scaled quotient, from the product with the multiplier and its implicit bit. -/
theorem mul_fullMultiplier_div : n.toNat * r.fullMultiplier / 2 ^ w =
    n.toNat * r.extraBit.toNat + (r.highProduct n).toNat := by
  rw [toNat_highProduct, fullMultiplier, Nat.mul_add, Nat.mul_left_comm,
    Nat.add_mul_div_left _ _ (Nat.two_pow_pos w), Nat.add_comm]

theorem toNat_divideMagnitude_of_ne_zero (h : r.multiplier ≠ 0) :
    (r.divideMagnitude n).toNat = n.toNat * r.fullMultiplier / (2 ^ w * 2 ^ r.scale) := by
  rw [← Nat.div_div_eq_div_mul, mul_fullMultiplier_div]
  unfold divideMagnitude scale
  rw [if_neg h]
  by_cases hx : r.extraBit = true
  · rw [if_pos hx, hx]
    show (((n - r.highProduct n) >>> 1 + r.highProduct n) >>> r.shift).toNat = _
    rw [Limb.toNat_ushiftRight, toNat_halved, Nat.div_div_eq_div_mul, Bool.toNat_true, Nat.mul_one,
      ← Nat.pow_succ']
  · rw [if_neg hx, Bool.eq_false_of_not_eq_true hx]
    show (r.highProduct n >>> r.shift).toNat = _
    rw [Limb.toNat_ushiftRight, Bool.toNat_false, Nat.mul_zero, Nat.zero_add, Nat.add_zero]

theorem RoundedUp.toNat_divideMagnitude (h : r.RoundedUp) (hd : 0 < r.divisor.magnitude.toNat) :
    (r.divideMagnitude n).toNat = n.toNat / r.divisor.magnitude.toNat := by
  cases h with
  | power hm _ hp =>
    rw [hp, ← Limb.toNat_ushiftRight]
    exact congrArg BitVec.toNat (if_pos hm)
  | excess e hm hprod he hlt =>
    rw [toNat_divideMagnitude_of_ne_zero hm]
    exact mul_div_eq_div_of_excess hd hprod (Nat.mul_lt_mul'' n.isLt hlt)

/-! ## No step drops a bit -/

/-- Every step that builds the reciprocal `r` and divides the numerator `n` by it is exact. -/
structure KeepsBits (r : Reciprocal s w) (n : Limb w) : Prop where
  /-- The power of two below the divisor fits a limb. -/
  power : r.shift < w ∧ (1#w <<< r.shift).toNat = 2 ^ r.shift
  /-- For any other divisor the scaled division answers, in full. -/
  scaled : r.divisor.magnitude ≠ 1#w <<< r.shift → ∃ q rem,
    Limb.divideWide ⟨0, 1#w <<< r.shift⟩ r.divisor.magnitude = .ok ⟨q, rem⟩ ∧
      q.toNat * r.divisor.magnitude.toNat + rem.toNat = 2 ^ w * 2 ^ r.shift
  /-- The difference to be halved does not borrow. -/
  difference : (n - r.highProduct n).toNat + (r.highProduct n).toNat = n.toNat
  /-- Adding the high limb back does not carry. -/
  sum : ((n - r.highProduct n) >>> 1 + r.highProduct n).toNat =
    ((n - r.highProduct n) >>> 1).toNat + (r.highProduct n).toNat
  /-- Multiplying back fills one limb and does not exceed the numerator. -/
  product : (Limb.fullProduct (r.divideMagnitude n) r.divisor.magnitude).high = 0 ∧
    (r.divideMagnitude n).toNat * r.divisor.magnitude.toNat ≤ n.toNat

theorem toNat_low_of_le {a b n : Limb w} (h : a.toNat * b.toNat ≤ n.toNat) :
    (Limb.fullProduct a b).high = 0 ∧ (Limb.fullProduct a b).low.toNat = a.toNat * b.toNat := by
  have hlt := lt_of_le_of_lt h n.isLt
  refine ⟨BitVec.eq_of_toNat_eq ?_, ?_⟩
  · rw [Limb.toNat_high_fullProduct, Nat.div_eq_of_lt hlt]
    rfl
  · rw [Limb.toNat_low_fullProduct, Nat.mod_eq_of_lt hlt]

theorem RoundedUp.keepsBits (h : r.RoundedUp) (hd : 0 < r.divisor.magnitude.toNat)
    (hs : r.shift = r.divisor.magnitude.toNat.log2) : r.KeepsBits n := by
  have hk : r.shift < w := hs ▸ log2_lt_width hd
  have hpow := toNat_one_shiftLeft hk
  have hle : 2 ^ r.shift ≤ r.divisor.magnitude.toNat := hs ▸ Nat.log2_self_le hd.ne'
  have hsub := BitVec.toNat_sub_of_le (highProduct_le (r := r) (n := n))
  have hhigh := BitVec.le_def.mp (highProduct_le (r := r) (n := n))
  have hprod : (r.divideMagnitude n).toNat * r.divisor.magnitude.toNat ≤ n.toNat := by
    rw [h.toNat_divideMagnitude hd]
    exact Nat.div_mul_le_self _ _
  refine ⟨⟨hk, hpow⟩, fun hne => ?_, by omega, ?_, (toNat_low_of_le hprod).1, hprod⟩
  · have hlt : 2 ^ r.shift < r.divisor.magnitude.toNat :=
      lt_of_le_of_ne hle fun he => hne (BitVec.eq_of_toNat_eq (hpow.trans he).symm)
    obtain ⟨q, rem, hdiv, hproduct, -⟩ := exists_divideWide_power hk hlt
    rw [Nat.mul_comm] at hproduct
    exact ⟨q, rem, hdiv, hproduct⟩
  · rw [toNat_halved, Limb.toNat_ushiftRight, hsub]
    omega

/-! ## Signs restored -/

theorem RoundedUp.divide_eq (h : r.RoundedUp) (hd : 0 < r.divisor.magnitude.toNat) (a : Fixed s w)
    (d : Nonzero (Fixed s w)) (hrd : r.divisor = d.val) : r.divide a = (a.tdivMod d).orOverflow := by
  have hq := h.toNat_divideMagnitude (n := a.magnitude) hd
  have hprod : (r.divideMagnitude a.magnitude).toNat * r.divisor.magnitude.toNat ≤ a.magnitude.toNat := by
    rw [hq]
    exact Nat.div_mul_le_self _ _
  have hrem : (a.magnitude - (Limb.fullProduct (r.divideMagnitude a.magnitude) r.divisor.magnitude).low).toNat =
      a.magnitude.toNat % r.divisor.magnitude.toNat := by
    rw [BitVec.toNat_sub_of_le (by rw [BitVec.le_def, (toNat_low_of_le hprod).2]; exact hprod),
      (toNat_low_of_le hprod).2, hq, Nat.mul_comm, ← Nat.mod_eq_sub_mul_div]
  unfold divide
  simp only [Fixed.ofSignMagnitude_eq_wrap, hq, hrem]
  rw [hrd, ← Fixed.tdiv_eq_apply, ← Fixed.tmod_eq_apply]
  rfl

/-- **Division through the reciprocal of a divisor is truncated division.**  The reciprocal exists, no step
drops a bit, and division, quotient and remainder answer as those of the type, but refuse the one quotient that
is flagged there: the least signed value by minus one. -/
theorem divide_ofDivisor (d : Nonzero (Fixed s w)) : ∃ r : Reciprocal s w, ofDivisor d = .ok r ∧
    ∀ a : Fixed s w, r.KeepsBits a.magnitude ∧
      r.divide a = (a.tdivMod d).orOverflow ∧
      r.quotient a = (a.tdiv d).orOverflow ∧
      r.remainder a = ((a.tdiv d).map fun _ => a.tmod d).orOverflow ∧
      ((a.tdivMod d).flag = true ↔ s = .signed ∧ a = Fixed.least ∧ d.val.toInt = -1) ∧
      ((a.tdivMod d).flag = false → (a.tdivMod d).value.quotient.toInt = a.toInt.tdiv d.val.toInt) ∧
      (a.tdivMod d).value.remainder.toInt = a.toInt.tmod d.val.toInt := by
  obtain ⟨r, hr, hrd, hs, hup⟩ := ofDivisor_roundedUp d
  have hd : 0 < r.divisor.magnitude.toNat := hrd ▸ Fixed.toNat_magnitude_pos d
  refine ⟨r, hr, fun a => ?_⟩
  have hdiv := hup.divide_eq hd a d hrd
  refine ⟨hup.keepsBits hd (hrd ▸ hs), hdiv, ?_, ?_, Fixed.flag_tdiv_iff a d,
    (Fixed.flag_wrap_eq_false_iff _).mp, Fixed.toInt_tmod a d⟩
  · unfold Reciprocal.quotient
    rw [hdiv, Flagged.map_orOverflow]
    rfl
  · unfold Reciprocal.remainder
    rw [hdiv, Flagged.map_orOverflow]
    rfl

end Reciprocal

end TwosComplement
