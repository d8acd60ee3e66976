import Mathlib.Tactic.Ring
import TwosComplement.Numeral.Lemmas

/-!
# Proofs/LimbShift — shifting up and down, limb by limb

A limb that is shifted up leaves its top bits to the limb above, one that is shifted down its low bits to the limb
below. Limb by limb nothing is lost, so that a numeral and what leaves it at one end are together the product or the
dividend.

* `Limb.spill`, `Limb.spill_lt`: the bits that leave a limb upwards.
* `Limb.shiftLeft_recompose`, `Numeral.shiftLeft_recompose`: the shifted limbs and the last spill are the product.
* `Limb.shiftRight_recompose`, `Numeral.shiftRight_recompose`: the same downwards; `Numeral.toNat_shiftRight_zero`.
-/

namespace TwosComplement

variable {w k : ℕ}

namespace Limb

/-- The bits that a limb leaves to the limb above. -/
def spill (k : ℕ) (x : Limb w) : ℕ := (x >>> (w - k)).toNat

theorem spill_eq (x : Limb w) : spill k x = x.toNat / 2 ^ (w - k) := by
  unfold spill
  rw [BitVec.toNat_ushiftRight, Nat.shiftRight_eq_div_pow]

theorem spill_zero : spill k (0 : Limb w) = 0 := by
  rw [spill_eq, BitVec.ofNat_eq_ofNat, BitVec.toNat_zero, Nat.zero_div]

theorem two_pow_eq_mul (hk : k ≤ w) : 2 ^ w = 2 ^ (w - k) * 2 ^ k := by
  rw [← Nat.pow_add, Nat.sub_add_cancel hk]

theorem spill_lt (hk : k ≤ w) (x : Limb w) : spill k x < 2 ^ k := by
  have hx : x.toNat < 2 ^ (w - k) * 2 ^ k := by
    rw [← two_pow_eq_mul hk]
    exact x.isLt
  rw [spill_eq]
  exact Nat.div_lt_of_lt_mul hx

theorem spill_eq_zero (hk : k ≤ w) {x : Limb w} (hx : x.toNat * 2 ^ k < 2 ^ w) : spill k x = 0 := by
  rw [two_pow_eq_mul hk] at hx
  rw [spill_eq]
  exact Nat.div_eq_of_lt (Nat.lt_of_mul_lt_mul_right hx)

theorem toNat_shiftLeft_eq (hk : k ≤ w) (x : Limb w) : (x <<< k).toNat = (x.toNat % 2 ^ (w - k)) <<< k := by
  rw [BitVec.toNat_shiftLeft, Nat.shiftLeft_eq, Nat.shiftLeft_eq, two_pow_eq_mul hk, Nat.mul_mod_mul_right]

theorem shiftLeft_add_spill (hk : k ≤ w) (x : Limb w) : (x <<< k).toNat + 2 ^ w * spill k x = x.toNat * 2 ^ k := by
  calc (x <<< k).toNat + 2 ^ w * spill k x
      = (x.toNat % 2 ^ (w - k) + 2 ^ (w - k) * (x.toNat / 2 ^ (w - k))) * 2 ^ k := by
        rw [toNat_shiftLeft_eq hk, Nat.shiftLeft_eq, spill_eq, two_pow_eq_mul hk]
        ring
    _ = x.toNat * 2 ^ k := by rw [Nat.mod_add_div]

/-- The spill of the limb below goes where the shift has left zeros. -/
theorem toNat_shiftLeft_or (hk : k ≤ w) (x below : Limb w) :
    (x <<< k ||| below >>> (w - k)).toNat = (x <<< k).toNat + spill k below := by
  rw [BitVec.toNat_or, toNat_shiftLeft_eq hk, Nat.shiftLeft_add_eq_or_of_lt (spill_lt hk below)]
  rfl

theorem shiftLeft_recompose (hk : k ≤ w) (x below : Limb w) :
    (x <<< k ||| below >>> (w - k)).toNat + 2 ^ w * spill k x = x.toNat * 2 ^ k + spill k below := by
  rw [toNat_shiftLeft_or hk, ← shiftLeft_add_spill hk x]
  exact Nat.add_right_comm _ _ _

/-- A limb shifted down, with the low bits of the limb above, and the low bits that it loses itself. -/
theorem shiftRight_recompose (hk : k ≤ w) (x above : Limb w) :
    (x >>> k ||| above <<< (w - k)).toNat * 2 ^ k + x.toNat % 2 ^ k = x.toNat + 2 ^ w * (above.toNat % 2 ^ k) := by
  have hdown : (x >>> k).toNat = x.toNat / 2 ^ k := by
    rw [BitVec.toNat_ushiftRight, Nat.shiftRight_eq_div_pow]
  have hup : (above <<< (w - k)).toNat = (above.toNat % 2 ^ k) <<< (w - k) := by
    have h := toNat_shiftLeft_eq (Nat.sub_le w k) above
    rwa [Nat.sub_sub_self hk] at h
  -- the two parts have no bit in common, so that their union is their sum
  have hlt : x.toNat / 2 ^ k < 2 ^ (w - k) := by
    refine Nat.div_lt_of_lt_mul ?_
    rw [Nat.mul_comm, ← two_pow_eq_mul hk]
    exact x.isLt
  rw [BitVec.toNat_or, hdown, hup, Nat.or_comm, ← Nat.shiftLeft_add_eq_or_of_lt hlt, Nat.shiftLeft_eq]
  calc (above.toNat % 2 ^ k * 2 ^ (w - k) + x.toNat / 2 ^ k) * 2 ^ k + x.toNat % 2 ^ k
      = above.toNat % 2 ^ k * (2 ^ (w - k) * 2 ^ k) + (2 ^ k * (x.toNat / 2 ^ k) + x.toNat % 2 ^ k) := by ring
    _ = x.toNat + 2 ^ w * (above.toNat % 2 ^ k) := by
        rw [Nat.div_add_mod, ← two_pow_eq_mul hk]
        ring

end Limb

/-- The shifted limbs and the spill of the last one are the product. -/
theorem Numeral.shiftLeft_recompose (hk : k ≤ w) (below : Limb w) (xs : Numeral w) :
    toNat (shiftLeft k below xs) + 2 ^ (w * xs.length) * Limb.spill k (xs.getLastD below) =
      xs.toNat * 2 ^ k + Limb.spill k below := by
  -- the limb below changes along the numeral: each limb is the one below of the next
  induction xs generalizing below with
  | nil => simp [shiftLeft]
  | cons x xs ih =>
    have hx := Limb.shiftLeft_recompose hk x below
    have hxs := ih x
    rw [shiftLeft_cons, toNat_cons, toNat_cons, List.getLastD_cons, List.length_cons, Nat.mul_succ, Nat.pow_add]
    calc (x <<< k ||| below >>> (w - k)).toNat + 2 ^ w * toNat (shiftLeft k x xs) +
          2 ^ (w * xs.length) * 2 ^ w * Limb.spill k (xs.getLastD x)
        = (x <<< k ||| below >>> (w - k)).toNat +
            2 ^ w * (toNat (shiftLeft k x xs) + 2 ^ (w * xs.length) * Limb.spill k (xs.getLastD x)) := by ring
      _ = (x <<< k ||| below >>> (w - k)).toNat + 2 ^ w * Limb.spill k x + 2 ^ w * toNat xs * 2 ^ k := by
          rw [hxs]
          ring
      _ = (x.toNat + 2 ^ w * toNat xs) * 2 ^ k + Limb.spill k below := by
          rw [hx]
          ring

/-- A zero limb at the top takes what spills out of the others. -/
theorem Numeral.toNat_shiftLeft_concat_zero (hk : k ≤ w) (xs : Numeral w) :
    toNat (shiftLeft k 0 (xs ++ [0])) = xs.toNat * 2 ^ k := by
  have h := shiftLeft_recompose hk 0 (xs ++ [0])
  have hzero : (0 : Limb w).toNat = 0 := BitVec.toNat_zero
  rwa [List.getLastD_concat, Limb.spill_zero, Nat.mul_zero, Nat.add_zero, Nat.add_zero, toNat_concat, hzero,
    Nat.mul_zero, Nat.add_zero] at h

/-- The limbs shifted down and the bits that the lowest one loses are the numeral, with the bits that come in above. -/
theorem Numeral.shiftRight_recompose (hk : k ≤ w) (above : Limb w) (xs : Numeral w) :
    toNat (shiftRight k above xs) * 2 ^ k + (xs.headD above).toNat % 2 ^ k =
      xs.toNat + 2 ^ (w * xs.length) * (above.toNat % 2 ^ k) := by
  induction xs with
  | nil => simp [shiftRight]
  | cons x xs ih =>
    have hx := Limb.shiftRight_recompose hk x (xs.headD above)
    rw [shiftRight_cons, toNat_cons, toNat_cons, List.headD_cons, List.length_cons, Nat.mul_succ, Nat.pow_add]
    calc ((x >>> k ||| xs.headD above <<< (w - k)).toNat + 2 ^ w * toNat (shiftRight k above xs)) * 2 ^ k +
          x.toNat % 2 ^ k
        = (x >>> k ||| xs.headD above <<< (w - k)).toNat * 2 ^ k + x.toNat % 2 ^ k +
            2 ^ w * (toNat (shiftRight k above xs) * 2 ^ k) := by ring
      _ = x.toNat + 2 ^ w * (toNat (shiftRight k above xs) * 2 ^ k + (xs.headD above).toNat % 2 ^ k) := by
          rw [hx]
          ring
      _ = x.toNat + 2 ^ w * toNat xs + 2 ^ (w * xs.length) * 2 ^ w * (above.toNat % 2 ^ k) := by
          rw [ih]
          ring

/-- Shifting down with zeros coming in divides by a power of two. -/
theorem Numeral.toNat_shiftRight_zero (hk : k ≤ w) (xs : Numeral w) : toNat (shiftRight k 0 xs) = xs.toNat / 2 ^ k := by
  have h := shiftRight_recompose hk 0 xs
  have hzero : (0 : Limb w).toNat = 0 := BitVec.toNat_zero
  have hlt := Nat.mod_lt (xs.headD 0).toNat (Nat.two_pow_pos k)
  rw [hzero, Nat.zero_mod, Nat.mul_zero, Nat.add_zero] at h
  rw [← h, Nat.mul_comm, Nat.mul_add_div (Nat.two_pow_pos k), Nat.div_eq_of_lt hlt, Nat.add_zero]

end TwosComplement
