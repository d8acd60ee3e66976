import TwosComplement.Fault
import TwosComplement.DoubleWidth

/-!
# Limb/Product — full products and their inverse

The product of two limbs has two limbs, also after two more limbs are added to it. The other way round, a
two-limb dividend is divided by a limb that exceeds its high half, so that the quotient has one limb.

* `toNat_fullProduct`, `toNat_mulAdd`: no bit of the product is lost.
* `divideWide_of_lt`: below the divisor the division answers, and it is the exact one.
-/

namespace TwosComplement

-- powers are those of the core library, whatever else is imported
attribute [local instance (high)] instPowNat instNatPowNat Int.instNatPow

namespace Limb

variable {w : Nat}

/-- The two limbs of a number below `2 ^ w * 2 ^ w`. -/
def split (n : Nat) : DoubleWidth .unsigned w := ⟨BitVec.ofNat w n, BitVec.ofNat w (n / 2 ^ w)⟩

/-- `a * b` in full. -/
def fullProduct (a b : Limb w) : DoubleWidth .unsigned w := split (a.toNat * b.toNat)

/-- `a * b + addend + carry` in full. -/
def mulAdd (a b addend carry : Limb w) : DoubleWidth .unsigned w :=
  split (a.toNat * b.toNat + addend.toNat + carry.toNat)

/-- Divides two limbs by one. The high limb has to be below the divisor: a debug assertion refuses any other, which is
the fault here, and builds without debug assertions cut the quotient to a limb instead. -/
def divideWide (dividend : DoubleWidth .unsigned w) (divisor : Limb w) :
    Except Fault (QuotRem (Limb w) (Limb w)) :=
  if dividend.high.toNat < divisor.toNat then
    .ok ⟨BitVec.ofNat w (dividend.toNat / divisor.toNat), BitVec.ofNat w (dividend.toNat % divisor.toNat)⟩
  else .error .narrowingOverflow

/-! ## Small laws -/

theorem toNat_split {n : Nat} (h : n < 2 ^ w * 2 ^ w) : (split n : DoubleWidth .unsigned w).toNat = n := by
  have hq : n / 2 ^ w < 2 ^ w := Nat.div_lt_of_lt_mul h
  simp only [split, DoubleWidth.toNat, BitVec.toNat_ofNat, Nat.mod_eq_of_lt hq]
  exact Nat.mod_add_div n (2 ^ w)

theorem toNat_mulAdd (a b addend carry : Limb w) :
    (mulAdd a b addend carry).toNat = a.toNat * b.toNat + addend.toNat + carry.toNat := by
  apply toNat_split
  have ha := a.isLt
  have hb := b.isLt
  have hc := addend.isLt
  have hd := carry.isLt
  obtain ⟨k, hk⟩ : ∃ k, 2 ^ w = k + 1 := ⟨2 ^ w - 1, by omega⟩
  rw [hk] at ha hb hc hd ⊢
  have h : a.toNat * b.toNat ≤ k * k := Nat.mul_le_mul (by omega) (by omega)
  have square : (k + 1) * (k + 1) = k * k + k + k + 1 := by simp only [Nat.add_mul, Nat.mul_add]; omega
  omega

theorem toNat_fullProduct (a b : Limb w) : (fullProduct a b).toNat = a.toNat * b.toNat := by
  have := toNat_mulAdd a b 0 0
  simpa [mulAdd, fullProduct] using this

theorem divideWide_of_lt {dividend : DoubleWidth .unsigned w} {divisor : Limb w}
    (h : dividend.high.toNat < divisor.toNat) :
    ∃ q r : Limb w, divideWide dividend divisor = .ok ⟨q, r⟩ ∧
      q.toNat = dividend.toNat / divisor.toNat ∧ r.toNat = dividend.toNat % divisor.toNat := by
  refine ⟨_, _, if_pos h, ?_, ?_⟩
  · rw [BitVec.toNat_ofNat, Nat.mod_eq_of_lt]
    apply Nat.div_lt_of_lt_mul
    rw [Nat.mul_comm]
    exact dividend.low.toNat_add_mul_lt h
  · rw [BitVec.toNat_ofNat, Nat.mod_eq_of_lt]
    exact Nat.lt_trans (Nat.mod_lt _ (by omega)) divisor.isLt

end Limb

end TwosComplement
