import Mathlib.Algebra.Order.Ring.Nat
import TwosComplement.Limb.Basic

/-!
# Proofs/LimbRuns — how long a run of bits is, and what it says about the number

* `holds_of_lt_takeWhile_range`, `stops_at_takeWhile_range`: a run over positions ends where the condition first
  fails.
* `Limb.getLsbD_of_lt_trailingRun`, `Limb.getMsbD_of_lt_leadingRun` and their companions: the bits in a run and after it.
* `Limb.normalize`: shifting a nonzero limb up by its run of leading zeros loses no bit and fills the top bit.
-/

namespace TwosComplement

/-! ## Runs over positions -/

section Positions

variable (p : ℕ → Bool) (n : ℕ)

theorem length_takeWhile_range : ((List.range n).takeWhile p).length = (List.range n).findIdx (!p ·) := by
  rw [List.takeWhile_eq_take_findIdx_not, List.length_take]
  exact Nat.min_eq_left List.findIdx_le_length

theorem holds_of_lt_takeWhile_range {i : ℕ} (h : i < ((List.range n).takeWhile p).length) : p i = true := by
  rw [length_takeWhile_range] at h
  have hi := List.not_of_lt_findIdx h
  rw [List.getElem_range] at hi
  simpa using hi

theorem stops_at_takeWhile_range (h : ((List.range n).takeWhile p).length < n) :
    p ((List.range n).takeWhile p).length = false := by
  rw [length_takeWhile_range] at h ⊢
  have hlen : (List.range n).findIdx (!p ·) < (List.range n).length := by
    rw [List.length_range]
    exact h
  have hi := List.findIdx_getElem (w := hlen)
  rw [List.getElem_range] at hi
  simpa using hi

end Positions

/-! ## Runs of a limb -/

namespace Limb

variable {w i : ℕ} {a : Limb w} {bit : Bool}

theorem getLsbD_of_lt_trailingRun (h : i < a.trailingRun bit) : a.getLsbD i = bit :=
  beq_iff_eq.mp (holds_of_lt_takeWhile_range _ _ h)

theorem getLsbD_trailingRun_ne (h : a.trailingRun bit < w) : a.getLsbD (a.trailingRun bit) ≠ bit :=
  beq_eq_false_iff_ne.mp (stops_at_takeWhile_range _ _ h)

theorem getMsbD_of_lt_leadingRun (h : i < a.leadingRun bit) : a.getMsbD i = bit :=
  beq_iff_eq.mp (holds_of_lt_takeWhile_range _ _ h)

theorem getMsbD_leadingRun_ne (h : a.leadingRun bit < w) : a.getMsbD (a.leadingRun bit) ≠ bit :=
  beq_eq_false_iff_ne.mp (stops_at_takeWhile_range _ _ h)

/-! ## Normalization -/

/-- Below its run of leading zeros a limb is small. -/
theorem toNat_lt_of_leadingRun (a : Limb w) : a.toNat < 2 ^ (w - a.leadingRun false) := by
  refine Nat.lt_pow_two_of_testBit _ fun i hi => ?_
  rw [BitVec.testBit_toNat]
  by_cases hw : i < w
  · have h := getMsbD_of_lt_leadingRun (show w - 1 - i < a.leadingRun false by omega)
    rw [BitVec.getMsbD_eq_getLsbD] at h
    simpa [show w - 1 - (w - 1 - i) = i by omega, show w - 1 - i < w by omega] using h
  · exact BitVec.getLsbD_of_ge a i (by omega)

/-- The bit below the run of leading zeros is set. -/
theorem two_pow_le_of_leadingRun {a : Limb w} (h : a.leadingRun false < w) :
    2 ^ (w - 1 - a.leadingRun false) ≤ a.toNat := by
  have hs := getMsbD_leadingRun_ne h
  refine Nat.ge_two_pow_of_testBit ?_
  rw [BitVec.testBit_toNat]
  rw [BitVec.getMsbD_eq_getLsbD] at hs
  simpa [h] using hs

theorem leadingRun_lt {a : Limb w} (h : 0 < a.toNat) : a.leadingRun false < w := by
  have hlt := a.toNat_lt_of_leadingRun
  refine Nat.lt_of_not_le fun hw => ?_
  rw [Nat.sub_eq_zero_of_le hw] at hlt
  omega

/-- The place of the top bit is the logarithm. -/
theorem log2_eq {a : Limb w} (h : 0 < a.toNat) : a.toNat.log2 = w - 1 - a.leadingRun false := by
  have hlt := leadingRun_lt h
  refine (Nat.log2_eq_iff h.ne').mpr ⟨two_pow_le_of_leadingRun hlt, ?_⟩
  rw [show w - 1 - a.leadingRun false + 1 = w - a.leadingRun false by omega]
  exact a.toNat_lt_of_leadingRun

/-- Shifted up by its run of leading zeros, a nonzero limb keeps all its bits and fills the top one. -/
theorem normalize {a : Limb w} (h : 0 < a.toNat) :
    (a <<< a.leadingRun false).toNat = a.toNat * 2 ^ a.leadingRun false ∧
      2 ^ w ≤ 2 * (a.toNat * 2 ^ a.leadingRun false) := by
  have hlt := leadingRun_lt h
  have h1 := Nat.mul_lt_mul_of_pos_right a.toNat_lt_of_leadingRun (Nat.two_pow_pos (a.leadingRun false))
  have h2 := Nat.mul_le_mul_right (2 ^ a.leadingRun false) (two_pow_le_of_leadingRun hlt)
  rw [← Nat.pow_add, Nat.sub_add_cancel (Nat.le_of_lt hlt)] at h1
  rw [← Nat.pow_add, show w - 1 - a.leadingRun false + a.leadingRun false = w - 1 by omega] at h2
  refine ⟨?_, ?_⟩
  · rw [BitVec.toNat_shiftLeft, Nat.shiftLeft_eq, Nat.mod_eq_of_lt h1]
  · calc 2 ^ w = 2 * 2 ^ (w - 1) := by rw [← Nat.pow_succ', Nat.succ_eq_add_one, Nat.sub_add_cancel (by omega)]
      _ ≤ _ := Nat.mul_le_mul_left 2 h2

end Limb

end TwosComplement
