import Mathlib.Tactic.LinearCombination
import Mathlib.Tactic.Linarith
import TwosComplement.Limb.Reciprocal
import TwosComplement.Proofs.LimbRuns

/-!
# Proofs/TwoLimbDivision — dividing two limbs through a normalized reciprocal

The candidate quotient is one more than the high limb of a product, and may wrap.  What it leaves of the dividend
is known only modulo the base, but the low limb of the product, the *fraction*, tells how to read it.

* `Trial`: the numbers of one step; `Trial.neg_le`, `Trial.fraction_lt`, `Trial.lt_of_fraction_lt` bound the
  remainder of the candidate.
* `settle_of_neg`, `settle_of_fraction_lt`, `settle_of_le_fraction`: what the two corrections do to a candidate.
* `settle_spec`: they turn what it leaves into the remainder of the division.
-/

namespace TwosComplement

/-! ## The candidate -/

/-- One step in base `B`: the divisor `d` with its reciprocal `v`, the dividend `u₁ * B + u₀`, and the product of
reciprocal and dividend, cut into `q₁` and the fraction `q₀`. -/
structure Trial (B d v u₁ u₀ q₁ q₀ : ℤ) : Prop where
  reciprocal : 0 < B * B - (B + v) * d ∧ B * B - (B + v) * d ≤ d
  divisor : d < B
  high : 0 ≤ u₁ ∧ u₁ < d
  low : 0 ≤ u₀ ∧ u₀ < B
  fraction : 0 ≤ q₀ ∧ q₀ < B
  product : (B + v) * u₁ + u₀ = B * q₁ + q₀

namespace Trial

variable {B d v u₁ u₀ q₁ q₀ : ℤ}

theorem scaled (h : Trial B d v u₁ u₀ q₁ q₀) : B * (u₁ * B + u₀ - (q₁ + 1) * d) =
    (B * B - (B + v) * d) * u₁ + u₀ * (B - d) + q₀ * d - B * d := by
  linear_combination d * h.product

/-- The candidate is at most one too large. -/
theorem neg_le (h : Trial B d v u₁ u₀ q₁ q₀) : -d ≤ u₁ * B + u₀ - (q₁ + 1) * d := by
  have hs := h.scaled
  obtain ⟨⟨hk, -⟩, hd, ⟨hu, hud⟩, ⟨hl, -⟩, ⟨hf, -⟩, -⟩ := h
  have h1 := mul_nonneg hk.le hu
  have h2 : 0 ≤ u₀ * (B - d) := mul_nonneg hl (by omega)
  have h3 : 0 ≤ q₀ * d := mul_nonneg hf (by omega)
  -- times the base, all terms but the last are known not to be negative
  refine le_of_mul_le_mul_left (a := B) ?_ (by omega)
  rw [hs]
  linarith

/-- A negative remainder, wrapped, exceeds the fraction. -/
theorem fraction_lt (h : Trial B d v u₁ u₀ q₁ q₀) : q₀ < u₁ * B + u₀ - (q₁ + 1) * d + B := by
  have hs := h.scaled
  obtain ⟨⟨hk, -⟩, hd, ⟨hu, hud⟩, ⟨hl, -⟩, ⟨-, hf⟩, -⟩ := h
  have h1 := mul_nonneg hk.le hu
  have h2 : 0 ≤ u₀ * (B - d) := mul_nonneg hl (by omega)
  have h3 : 0 < (B - q₀) * (B - d) := mul_pos (by omega) (by omega)
  refine lt_of_mul_lt_mul_left (a := B) ?_ (by omega)
  rw [mul_add, hs]
  linarith

/-- A remainder above the fraction leaves room for the divisor below the base. -/
theorem lt_of_fraction_lt (h : Trial B d v u₁ u₀ q₁ q₀) (hlt : q₀ < u₁ * B + u₀ - (q₁ + 1) * d) :
    u₁ * B + u₀ - (q₁ + 1) * d < B - d := by
  have hs := h.scaled
  obtain ⟨⟨-, hk⟩, hd, ⟨hu, hud⟩, ⟨-, hl⟩, -, -⟩ := h
  generalize u₁ * B + u₀ - (q₁ + 1) * d = r at hs hlt ⊢
  have h1 : (B * B - (B + v) * d) * u₁ < d * d :=
    lt_of_le_of_lt (mul_le_mul_of_nonneg_right hk hu) (mul_lt_mul_of_pos_left hud (by omega))
  have h2 : u₀ * (B - d) ≤ B * (B - d) := mul_le_mul_of_nonneg_right hl.le (by omega)
  have h3 : q₀ * d ≤ r * d := mul_le_mul_of_nonneg_right hlt.le (by omega)
  refine lt_of_mul_lt_mul_left (a := B - d) ?_ (by omega)
  linarith

end Trial

/-! ## The corrections -/

section Corrections

variable {w : ℕ}

theorem toNat_ofInt_of_nonneg {n : ℤ} (h0 : 0 ≤ n) (h : n < 2 ^ w) : ((BitVec.ofInt w n).toNat : ℤ) = n := by
  have hp : (0 : ℤ) < (2 ^ w : ℕ) := by positivity
  rw [BitVec.toNat_ofInt, Int.toNat_of_nonneg (Int.emod_nonneg _ hp.ne')]
  exact Int.emod_eq_of_lt h0 (by push_cast; exact h)

theorem toNat_ofInt_of_neg {n : ℤ} (h0 : n < 0) (h : -2 ^ w ≤ n) :
    ((BitVec.ofInt w n).toNat : ℤ) = n + 2 ^ w := by
  have hp : (0 : ℤ) < (2 ^ w : ℕ) := by positivity
  rw [BitVec.toNat_ofInt, Int.toNat_of_nonneg (Int.emod_nonneg _ hp.ne'), ← Int.add_emod_right]
  push_cast
  exact Int.emod_eq_of_lt (by omega) (by omega)

theorem ofInt_sub (m n : ℤ) : BitVec.ofInt w (m - n) = BitVec.ofInt w m - BitVec.ofInt w n := by
  rw [sub_eq_add_neg, BitVec.ofInt_add, BitVec.ofInt_neg, BitVec.sub_eq_add_neg]

theorem ofInt_toNat (a : Limb w) : BitVec.ofInt w (a.toNat : ℤ) = a := by simp

/-- The two corrections of a candidate quotient and its remainder. -/
def settle (divisor fraction : Limb w) (x : QuotRem (Limb w) (Limb w)) : QuotRem (Limb w) (Limb w) :=
  let lowered : QuotRem (Limb w) (Limb w) :=
    if fraction < x.remainder then ⟨x.quotient - 1, x.remainder + divisor⟩ else x
  if divisor ≤ lowered.remainder then ⟨lowered.quotient + 1, lowered.remainder - divisor⟩ else lowered

variable {d f : Limb w} {q r : ℤ}

theorem lowered_ofInt (d : Limb w) (q r : ℤ) :
    (⟨BitVec.ofInt w q - 1, BitVec.ofInt w r + d⟩ : QuotRem (Limb w) (Limb w)) =
      ⟨BitVec.ofInt w (q - 1), BitVec.ofInt w (r + d.toNat)⟩ := by
  rw [ofInt_sub, BitVec.ofInt_add, ofInt_toNat]
  rfl

/-- A candidate that is one too large is lowered: its wrapped remainder shows it. -/
theorem settle_of_neg (hneg : r < 0) (hd : -d.toNat ≤ r) (hf : f.toNat < r + 2 ^ w) :
    settle d f ⟨BitVec.ofInt w q, BitVec.ofInt w r⟩ =
      ⟨BitVec.ofInt w (q - 1), BitVec.ofInt w (r + d.toNat)⟩ := by
  have hdB : (d.toNat : ℤ) < 2 ^ w := by exact_mod_cast d.isLt
  have hwrapped := toNat_ofInt_of_neg (w := w) hneg (by omega)
  have hlowered := toNat_ofInt_of_nonneg (w := w) (n := r + d.toNat) (by omega) (by omega)
  -- the wrapped remainder is above the fraction, and with the divisor added it is below the divisor
  have hlt : f < BitVec.ofInt w r := by
    rw [BitVec.lt_def]
    omega
  have hnle : ¬ d ≤ BitVec.ofInt w (r + d.toNat) := by
    rw [BitVec.le_def]
    omega
  unfold settle
  simp only [if_pos hlt, lowered_ofInt, if_neg hnle]

/-- A candidate whose remainder lies above the fraction without having wrapped is lowered for nothing, and raised
again. -/
theorem settle_of_fraction_lt (hlt : f.toNat < r) (hroom : r < 2 ^ w - d.toNat) :
    settle d f ⟨BitVec.ofInt w q, BitVec.ofInt w r⟩ = ⟨BitVec.ofInt w q, BitVec.ofInt w r⟩ := by
  have hval := toNat_ofInt_of_nonneg (w := w) (n := r) (by omega) (by omega)
  have hlowered := toNat_ofInt_of_nonneg (w := w) (n := r + d.toNat) (by omega) (by omega)
  have hf : f < BitVec.ofInt w r := by
    rw [BitVec.lt_def]
    omega
  have hle : d ≤ BitVec.ofInt w (r + d.toNat) := by
    rw [BitVec.le_def]
    omega
  unfold settle
  simp only [if_pos hf, lowered_ofInt, if_pos hle]
  rw [ofInt_sub, BitVec.ofInt_add, ofInt_toNat, BitVec.add_sub_cancel]
  exact congrArg (QuotRem.mk · _) (BitVec.sub_add_cancel _ _)

theorem settle_of_le_fraction (h0 : 0 ≤ r) (hle : r ≤ f.toNat) :
    settle d f ⟨BitVec.ofInt w q, BitVec.ofInt w r⟩ =
      if d.toNat ≤ r then ⟨BitVec.ofInt w (q + 1), BitVec.ofInt w (r - d.toNat)⟩
      else ⟨BitVec.ofInt w q, BitVec.ofInt w r⟩ := by
  have hfB : (f.toNat : ℤ) < 2 ^ w := by exact_mod_cast f.isLt
  have hval := toNat_ofInt_of_nonneg (w := w) h0 (by omega)
  have hf : ¬ f < BitVec.ofInt w r := by
    rw [BitVec.lt_def]
    omega
  have hfits : d ≤ BitVec.ofInt w r ↔ (d.toNat : ℤ) ≤ r := by
    rw [BitVec.le_def]
    omega
  unfold settle
  simp only [if_neg hf, hfits]
  rw [ofInt_sub, BitVec.ofInt_add, ofInt_toNat]
  rfl

/-- The corrections move the candidate by at most one, to the remainder below the divisor. -/
theorem settle_spec (hd : 2 ^ w ≤ 2 * d.toNat) (h1 : -d.toNat ≤ r)
    (h2 : f.toNat < r + 2 ^ w) (h3 : f.toNat < r → r < 2 ^ w - d.toNat) :
    ∃ t : ℤ, settle d f ⟨BitVec.ofInt w q, BitVec.ofInt w r⟩ =
      ⟨BitVec.ofInt w (q + t), BitVec.ofInt w (r - t * d.toNat)⟩ ∧
      0 ≤ r - t * d.toNat ∧ r - t * d.toNat < d.toNat := by
  have hfB : (f.toNat : ℤ) < 2 ^ w := by exact_mod_cast f.isLt
  have hd' : (2 : ℤ) ^ w ≤ 2 * d.toNat := by exact_mod_cast hd
  -- one too large; then right, but above the fraction; then right or one too small
  rcases lt_or_ge r 0 with hneg | h0
  · refine ⟨-1, ?_, by omega, by omega⟩
    rw [settle_of_neg hneg h1 h2, neg_one_mul, sub_neg_eq_add]
    rfl
  rcases lt_or_ge (f.toNat : ℤ) r with hlt | hle
  · have hroom := h3 hlt
    refine ⟨0, ?_, by omega, by omega⟩
    rw [settle_of_fraction_lt hlt hroom, zero_mul, sub_zero, add_zero]
  rw [settle_of_le_fraction h0 hle]
  by_cases hfits : (d.toNat : ℤ) ≤ r
  · refine ⟨1, ?_, by omega, by omega⟩
    rw [if_pos hfits, one_mul]
  · refine ⟨0, ?_, by omega, by omega⟩
    rw [if_neg hfits, zero_mul, sub_zero, add_zero]

end Corrections

end TwosComplement
