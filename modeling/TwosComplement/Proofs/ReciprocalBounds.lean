import Mathlib.Tactic.Linarith
import Mathlib.Tactic.Ring
import TwosComplement.Proofs.FixedRange
import TwosComplement.Proofs.LimbRuns
import TwosComplement.Reciprocal

/-!
# Proofs/ReciprocalBounds — the scaled reciprocal is rounded up by little enough

A multiplier `m` with `2 ^ k < m * d` divides by `d` through `n * m / 2 ^ k` as long as the excess
`m * d - 2 ^ k`, `n` times over, stays below `2 ^ k`.

* `Reciprocal.fullMultiplier`, `Reciprocal.scale`: the multiplier with its implicit bit, and the power of two it
  is scaled by.
* `Reciprocal.Scaled`: the division that the multiplier is formed from; `Scaled.toNat_succ`, `Scaled.losesTopBit`: what
  the wrapping additions lose.
* `Reciprocal.Built`: how the multiplier comes about; every nonzero divisor has a reciprocal, and it is `Built`.
* `Reciprocal.RoundedUp`: the divisor is a power of two, or the excess is positive and below `2 ^ scale`.
* `Reciprocal.ofDivisor_error_bounds`: zero multipliers, the excess of the others, and what their additions lose.
-/

namespace TwosComplement

/-! ## Rounding up -/

/-- Division by multiplication, when the excess of the multiplier is small. -/
theorem mul_div_eq_div_of_excess {d m e p n : ℕ} (hd : 0 < d) (h : m * d = p + e) (hn : n * e < p) :
    n * m / p = n / d := by
  have hq : d * (n / d) ≤ n := Nat.mul_div_le n d
  have hq' : n + 1 ≤ d * (n / d + 1) := Nat.lt_mul_div_succ n hd
  have hm : n * m * d = n * p + n * e := by rw [Nat.mul_assoc, h, Nat.mul_add]
  -- times the divisor, the multiplier is the power and its excess
  refine Nat.div_eq_of_lt_le ?_ ?_
  · refine Nat.le_of_mul_le_mul_right ?_ hd
    calc n / d * p * d = d * (n / d) * p := by ring
      _ ≤ n * p := Nat.mul_le_mul_right p hq
      _ ≤ n * m * d := by omega
  · refine Nat.lt_of_mul_lt_mul_right (a := d) ?_
    calc n * m * d = n * p + n * e := hm
      _ < (n + 1) * p := by rw [Nat.succ_mul]; omega
      _ ≤ d * (n / d + 1) * p := Nat.mul_le_mul_right p hq'
      _ = (n / d + 1) * p * d := by ring

theorem lt_of_mul_lt_add {d m p t : ℕ} (hd : t < d) (h : m * d < p * t + p) : m < p := by
  by_contra hm
  have h1 : p * (t + 1) ≤ m * d := Nat.mul_le_mul (by omega) hd
  rw [Nat.mul_succ] at h1
  omega

/-- Twice a division with remainder, rounded down, plus one: the excess over twice the dividend. -/
theorem succ_double_mul {p d q r c : ℕ} (h : d * q + r = p) (hc : c = if d ≤ 2 * r then 1 else 0) (hr : r < d) :
    ∃ e, (2 * q + c + 1) * d = 2 * p + e ∧ 0 < e ∧ e ≤ d := by
  refine ⟨d + c * d - 2 * r, ?_⟩
  have hm : (2 * q + c + 1) * d = 2 * (d * q) + c * d + d := by ring
  subst hc
  rw [hm]
  split <;> omega

namespace Reciprocal

variable {s : Signedness} {w : ℕ}

/-! ## What a reciprocal promises -/

/-- The multiplier with its implicit top bit. -/
def fullMultiplier (r : Reciprocal s w) : ℕ := r.multiplier.toNat + 2 ^ w * r.extraBit.toNat

/-- The number of bits, beyond a limb, that the reciprocal is scaled by. -/
def scale (r : Reciprocal s w) : ℕ := r.shift + r.extraBit.toNat

/-- The reciprocal is a shift, or it is rounded up with an excess below `2 ^ scale`. -/
inductive RoundedUp (r : Reciprocal s w) : Prop where
  | power (multiplier : r.multiplier = 0) (extraBit : r.extraBit = false)
      (divisor : r.divisor.magnitude.toNat = 2 ^ r.shift)
  | excess (e : ℕ) (multiplier : r.multiplier ≠ 0)
      (product : r.fullMultiplier * r.divisor.magnitude.toNat = 2 ^ w * 2 ^ r.scale + e)
      (pos : 0 < e) (small : e < 2 ^ r.scale)

/-! ## The scaled division -/

theorem toNat_one_shiftLeft {k : ℕ} (h : k < w) : (1#w <<< k).toNat = 2 ^ k := by
  rw [BitVec.toNat_shiftLeft, BitVec.toNat_one (by omega), Nat.shiftLeft_eq, Nat.one_mul,
    Nat.mod_eq_of_lt (Nat.pow_lt_pow_right (by omega) h)]

theorem log2_lt_width {m : Limb w} (hm : 0 < m.toNat) : m.toNat.log2 < w :=
  (Nat.log2_lt (by omega)).mpr m.isLt

theorem exists_divideWide_power {m : Limb w} {k : ℕ} (hk : k < w) (hgt : 2 ^ k < m.toNat) :
    ∃ q rem, Limb.divideWide ⟨0, 1#w <<< k⟩ m = .ok ⟨q, rem⟩ ∧ m.toNat * q.toNat + rem.toNat = 2 ^ w * 2 ^ k ∧
      rem.toNat < m.toNat := by
  have hpow := toNat_one_shiftLeft hk
  have hhigh : (⟨0, 1#w <<< k⟩ : DoubleWidth .unsigned w).high.toNat < m.toNat := hpow.trans_lt hgt
  obtain ⟨q, rem, hdiv, hq, hrem⟩ := Limb.divideWide_of_lt hhigh
  refine ⟨q, rem, hdiv, ?_, hrem ▸ Nat.mod_lt _ (Nat.zero_lt_of_lt hgt)⟩
  rw [hq, hrem, Nat.div_add_mod, DoubleWidth.toNat, hpow]
  exact Nat.zero_add _

/-- One if the doubled remainder reaches the divisor. -/
def rounding (magnitude remainder : Limb w) : Limb w :=
  if (Limb.addCarry remainder remainder false).2 || magnitude ≤ (Limb.addCarry remainder remainder false).1 then 1
  else 0

/-- The rounding sees the doubled remainder in full, also when it passes the limb. -/
theorem toNat_rounding (hw : 0 < w) (m r : Limb w) :
    (rounding m r).toNat = if m.toNat ≤ 2 * r.toNat then 1 else 0 := by
  have hm := m.isLt
  have h := Limb.addCarry_recompose r r false
  have hreaches : ((Limb.addCarry r r false).2 || decide (m ≤ (Limb.addCarry r r false).1)) =
      decide (m.toNat ≤ 2 * r.toNat) := by
    cases hc : (Limb.addCarry r r false).2 <;> simp only [hc, Bool.toNat_true, Bool.toNat_false] at h
    · rw [Bool.false_or, decide_eq_decide, BitVec.le_def]
      omega
    · rw [Bool.true_or, eq_comm, decide_eq_true_iff]
      omega
  unfold rounding
  rw [hreaches]
  by_cases hd : m.toNat ≤ 2 * r.toNat
  · rw [if_pos (decide_eq_true hd), if_pos hd]
    exact BitVec.toNat_one hw
  · rw [if_neg (by simpa using hd), if_neg hd]
    rfl

/-- Doubling `q` loses the bit that the extra bit stands for, and the two additions after it lose nothing. -/
structure LosesTopBit (q c : Limb w) : Prop where
  double : (q + q).toNat + 2 ^ w = 2 * q.toNat
  rounding : (q + q + c).toNat = (q + q).toNat + c.toNat
  plusOne : (q + q + c + 1).toNat = (q + q + c).toNat + 1

/-- The divisor is not a power of two, and `q` and `rem` are the quotient and the remainder of the scaled division. -/
structure Scaled (r : Reciprocal s w) (q rem : Limb w) : Prop where
  shift_lt : r.shift < w
  gt : 2 ^ r.shift < r.divisor.magnitude.toNat
  lt : r.divisor.magnitude.toNat < 2 ^ (r.shift + 1)
  divide : Limb.divideWide ⟨0, 1#w <<< r.shift⟩ r.divisor.magnitude = .ok ⟨q, rem⟩
  product : r.divisor.magnitude.toNat * q.toNat + rem.toNat = 2 ^ w * 2 ^ r.shift
  rem_lt : rem.toNat < r.divisor.magnitude.toNat

namespace Scaled

variable {r : Reciprocal s w} {q rem : Limb w}

theorem ne_two_pow (h : r.Scaled q rem) (k : ℕ) : r.divisor.magnitude.toNat ≠ 2 ^ k := by
  intro heq
  have hgt := h.gt
  have hlt := h.lt
  rw [heq, Nat.pow_lt_pow_iff_right (by decide)] at hgt hlt
  omega

theorem toNat_succ (h : r.Scaled q rem) : (q + 1).toNat = q.toNat + 1 := by
  have hk := h.shift_lt
  have hm := r.divisor.magnitude.isLt
  have hlt : q.toNat + 1 < 2 ^ w := by
    refine lt_of_mul_lt_add (t := 2 ^ r.shift) h.gt ?_
    rw [← h.product, Nat.mul_comm, Nat.mul_succ]
    omega
  rw [BitVec.toNat_add, show (1 : Limb w).toNat = 1 from BitVec.toNat_one (by omega), Nat.mod_eq_of_lt hlt]

/-- The scaled quotient has its top bit set, since the divisor is below the next power of two. -/
theorem two_pow_le_double (h : r.Scaled q rem) : 2 ^ w ≤ 2 * q.toNat := by
  have hk := h.shift_lt
  have hproduct := h.product
  have hrem := h.rem_lt
  have hw : 2 ^ w = 2 * 2 ^ (w - 1) := by rw [← Nat.pow_succ', Nat.succ_eq_add_one, Nat.sub_add_cancel (by omega)]
  -- both factors below their powers would not make up the dividend
  by_contra hlt
  have hq : q.toNat + 1 ≤ 2 ^ (w - 1) := by omega
  have hle : r.divisor.magnitude.toNat * (q.toNat + 1) ≤ 2 ^ w * 2 ^ r.shift :=
    calc r.divisor.magnitude.toNat * (q.toNat + 1) ≤ 2 ^ (r.shift + 1) * 2 ^ (w - 1) := Nat.mul_le_mul h.lt.le hq
      _ = 2 ^ w * 2 ^ r.shift := by rw [hw, Nat.pow_succ']; ring
  rw [Nat.mul_succ] at hle
  omega

theorem toNat_rounding (h : r.Scaled q rem) : (rounding r.divisor.magnitude rem).toNat =
    if r.divisor.magnitude.toNat ≤ 2 * rem.toNat then 1 else 0 :=
  Reciprocal.toNat_rounding (Nat.zero_lt_of_lt h.shift_lt) r.divisor.magnitude rem

/-- Of twice the scaled quotient, rounded and plus one, only the top bit is lost. -/
theorem losesTopBit (h : r.Scaled q rem) : LosesTopBit q (rounding r.divisor.magnitude rem) := by
  obtain ⟨e, hprod, -, he⟩ := succ_double_mul h.product h.toNat_rounding h.rem_lt
  have hk := h.shift_lt
  have hm := h.lt
  have hlow := h.two_pow_le_double
  obtain ⟨c, hc⟩ : ∃ c, rounding r.divisor.magnitude rem = c := ⟨_, rfl⟩
  rw [hc] at hprod ⊢
  have hhigh : 2 * q.toNat + c.toNat + 1 < 2 * 2 ^ w := by
    refine lt_of_mul_lt_add (t := 2 ^ r.shift) h.gt ?_
    have hp : 2 ^ (r.shift + 1) ≤ 2 ^ w := Nat.pow_le_pow_right (by omega) hk
    rw [hprod, Nat.mul_assoc]
    omega
  have hone : (1 : Limb w).toNat = 1 := BitVec.toNat_one (by omega)
  have hdouble : (q + q).toNat + 2 ^ w = 2 * q.toNat := by
    rw [BitVec.toNat_add, ← Nat.two_mul, Nat.mod_eq_sub_mod hlow, Nat.mod_eq_of_lt (by omega)]
    omega
  have hrounding : (q + q + c).toNat = (q + q).toNat + c.toNat := by
    rw [BitVec.toNat_add (q + q), Nat.mod_eq_of_lt (by omega)]
  refine ⟨hdouble, hrounding, ?_⟩
  rw [BitVec.toNat_add (q + q + c), hone, Nat.mod_eq_of_lt (by omega)]

end Scaled

/-! ## How the multiplier comes about -/

/-- There is no multiplier for a power of two. For another divisor it is the scaled quotient rounded up, as it is when
what is missing to the divisor is little enough, and otherwise with one bit more. -/
inductive Built (r : Reciprocal s w) : Prop where
  | power (multiplier : r.multiplier = 0) (extraBit : r.extraBit = false)
      (divisor : r.divisor.magnitude.toNat = 2 ^ r.shift)
  | single (q rem : Limb w) (scaled : r.Scaled q rem) (multiplier : r.multiplier = q + 1)
      (extraBit : r.extraBit = false) (error : r.divisor.magnitude.toNat - rem.toNat < 2 ^ r.shift)
  | double (q rem : Limb w) (scaled : r.Scaled q rem)
      (multiplier : r.multiplier = q + q + rounding r.divisor.magnitude rem + 1) (extraBit : r.extraBit = true)

theorem ofDivisor_eq (d : Nonzero (Fixed s w)) {m : Limb w} {k : ℕ} (hm : d.val.magnitude = m)
    (hk : w - 1 - m.leadingRun false = k) :
    ofDivisor d = if m = 1#w <<< k then .ok ⟨d.val, 0, k, false⟩ else
      (Limb.divideWide ⟨0, 1#w <<< k⟩ m).bind fun scaled =>
        if m - scaled.remainder < 1#w <<< k then .ok ⟨d.val, scaled.quotient + 1, k, false⟩
        else .ok ⟨d.val, scaled.quotient + scaled.quotient + rounding m scaled.remainder + 1, k, true⟩ := by
  subst hm hk
  rfl

/-- Every nonzero divisor has a reciprocal, scaled by its logarithm. -/
theorem ofDivisor_built (d : Nonzero (Fixed s w)) : ∃ r : Reciprocal s w, ofDivisor d = .ok r ∧
    r.divisor = d.val ∧ r.shift = d.val.magnitude.toNat.log2 ∧ r.Built := by
  obtain ⟨m, hm⟩ : ∃ m, d.val.magnitude = m := ⟨_, rfl⟩
  obtain ⟨k, hkm⟩ : ∃ k, m.toNat.log2 = k := ⟨_, rfl⟩
  have hpos : 0 < m.toNat := hm ▸ Fixed.toNat_magnitude_pos d
  have hk : k < w := hkm ▸ log2_lt_width hpos
  have hle : 2 ^ k ≤ m.toNat := hkm ▸ Nat.log2_self_le hpos.ne'
  have hlt : m.toNat < 2 ^ (k + 1) := hkm ▸ Nat.lt_log2_self
  have hpow := toNat_one_shiftLeft hk
  rw [ofDivisor_eq d hm ((Limb.log2_eq hpos).symm.trans hkm)]
  -- a power of two, or an error that is small enough, or one bit more
  by_cases hp : m = 1#w <<< k
  · refine ⟨⟨d.val, 0, k, false⟩, if_pos hp, rfl, by rw [hm, hkm], .power rfl rfl ?_⟩
    show d.val.magnitude.toNat = 2 ^ k
    rw [hm, hp, hpow]
  have hgt : 2 ^ k < m.toNat := lt_of_le_of_ne hle fun h => hp (BitVec.eq_of_toNat_eq (hpow.trans h).symm)
  obtain ⟨q, r, hdiv, hqr, hrlt⟩ := exists_divideWide_power hk hgt
  rw [if_neg hp, hdiv]
  subst hm
  by_cases he : d.val.magnitude - r < 1#w <<< k
  · refine ⟨⟨d.val, q + 1, k, false⟩, if_pos he, rfl, hkm.symm,
      .single q r ⟨hk, hgt, hlt, hdiv, hqr, hrlt⟩ rfl rfl ?_⟩
    rwa [BitVec.lt_def, BitVec.toNat_sub_of_le (by rw [BitVec.le_def]; omega), hpow] at he
  · exact ⟨⟨d.val, q + q + rounding d.val.magnitude r + 1, k, true⟩, if_neg he, rfl, hkm.symm,
      .double q r ⟨hk, hgt, hlt, hdiv, hqr, hrlt⟩ rfl rfl⟩

/-- The excess of the rounded quotient is the distance of the remainder to the divisor. With one bit more the quotient
is doubled, and rounded by the doubled remainder. -/
theorem Built.roundedUp {r : Reciprocal s w} (h : r.Built) : r.RoundedUp := by
  cases h with
  | power hm hx hd => exact .power hm hx hd
  | single q rem hs hm hx he =>
    have hsucc := hs.toNat_succ
    have hrem := hs.rem_lt
    refine .excess (r.divisor.magnitude.toNat - rem.toNat) ?_ ?_ (by omega) (by simpa [scale, hx] using he)
    · intro h
      rw [← hm, h] at hsucc
      simp at hsucc
    · have hprod := hs.product
      simp only [fullMultiplier, scale, hm, hx, hsucc, Bool.toNat_false, Nat.mul_zero, Nat.add_zero]
      rw [Nat.mul_comm, Nat.mul_succ]
      omega
  | double q rem hs hm hx =>
    -- the extra bit stands for the one that doubling has lost
    obtain ⟨hdouble, hrounding, hone⟩ := hs.losesTopBit
    obtain ⟨e, hprod, he0, hem⟩ := succ_double_mul hs.product hs.toNat_rounding hs.rem_lt
    refine .excess e ?_ ?_ he0 ?_
    · intro h
      rw [← hm, h] at hone
      simp at hone
    · unfold fullMultiplier scale
      rw [hm, hx, Bool.toNat_true, Nat.mul_one, hone, hrounding,
        show (q + q).toNat + (rounding r.divisor.magnitude rem).toNat + 1 + 2 ^ w =
          2 * q.toNat + (rounding r.divisor.magnitude rem).toNat + 1 by omega, hprod, Nat.pow_succ']
      ring
    · unfold scale
      rw [hx]
      exact lt_of_le_of_lt hem hs.lt

theorem ofDivisor_roundedUp (d : Nonzero (Fixed s w)) : ∃ r : Reciprocal s w, ofDivisor d = .ok r ∧
    r.divisor = d.val ∧ r.shift = d.val.magnitude.toNat.log2 ∧ r.RoundedUp := by
  obtain ⟨r, hr, hrd, hs, hbuilt⟩ := ofDivisor_built d
  exact ⟨r, hr, hrd, hs, hbuilt.roundedUp⟩

/-! ## The error -/

theorem RoundedUp.error_bounds {r : Reciprocal s w} (h : r.RoundedUp) (hne : r.multiplier ≠ 0) :
    2 ^ (w + r.scale) < r.fullMultiplier * r.divisor.magnitude.toNat ∧
      r.fullMultiplier * r.divisor.magnitude.toNat < 2 ^ (w + r.scale) + 2 ^ r.scale := by
  cases h with
  | power hm _ _ => exact absurd hm hne
  | excess e _ hprod he hsmall =>
    rw [hprod, Nat.pow_add]
    omega

theorem RoundedUp.of_multiplier_eq_zero {r : Reciprocal s w} (h : r.RoundedUp) (hzero : r.multiplier = 0) :
    r.divisor.magnitude.toNat = 2 ^ r.shift ∧ r.extraBit = false := by
  cases h with
  | power _ hx hd => exact ⟨hd, hx⟩
  | excess _ hm _ _ _ => exact absurd hzero hm

/-- There is no multiplier just for the powers of two. -/
theorem Built.multiplier_eq_zero_iff {r : Reciprocal s w} (h : r.Built) :
    r.multiplier = 0 ↔ ∃ k, r.divisor.magnitude.toNat = 2 ^ k := by
  refine ⟨fun hzero => ⟨r.shift, (h.roundedUp.of_multiplier_eq_zero hzero).1⟩, fun ⟨k, hk⟩ => ?_⟩
  cases h with
  | power hm _ _ => exact hm
  | single q rem hs _ _ _ => exact absurd hk (hs.ne_two_pow k)
  | double q rem hs _ _ => exact absurd hk (hs.ne_two_pow k)

/-- **The reciprocal of a divisor is rounded up by less than it takes to be wrong.**  Every nonzero divisor has one.  It
has no multiplier just when the divisor is a power of two, and then its shift is the whole division.  Any other
multiplier, times the divisor, exceeds the power of two it is scaled by, and by less than the part of that power that
lies beyond a limb.  The additions that form it lose no bit but the one that the extra bit stands for. -/
theorem ofDivisor_error_bounds (d : Nonzero (Fixed s w)) : ∃ r : Reciprocal s w, ofDivisor d = .ok r ∧
    r.shift = d.val.toInt.natAbs.log2 ∧ (r.multiplier = 0 ↔ ∃ k, d.val.toInt.natAbs = 2 ^ k) ∧
    (r.multiplier = 0 → d.val.toInt.natAbs = 2 ^ r.shift ∧ r.extraBit = false) ∧
    (r.multiplier ≠ 0 → ∃ q rem, Limb.divideWide ⟨0, 1#w <<< r.shift⟩ d.val.magnitude = .ok ⟨q, rem⟩ ∧
      (r.extraBit = false → r.multiplier = q + 1 ∧ (q + 1).toNat = q.toNat + 1 ∧
        2 ^ (w + r.shift) < r.multiplier.toNat * d.val.toInt.natAbs ∧
        r.multiplier.toNat * d.val.toInt.natAbs < 2 ^ (w + r.shift) + 2 ^ r.shift) ∧
      (r.extraBit = true → r.multiplier = q + q + rounding d.val.magnitude rem + 1 ∧
        (rounding d.val.magnitude rem).toNat = (if d.val.toInt.natAbs ≤ 2 * rem.toNat then 1 else 0) ∧
        LosesTopBit q (rounding d.val.magnitude rem) ∧
        2 ^ (w + r.shift + 1) < (2 ^ w + r.multiplier.toNat) * d.val.toInt.natAbs ∧
        (2 ^ w + r.multiplier.toNat) * d.val.toInt.natAbs < 2 ^ (w + r.shift + 1) + 2 ^ (r.shift + 1))) := by
  obtain ⟨r, hr, hrd, hshift, hbuilt⟩ := ofDivisor_built d
  rw [← Fixed.toNat_magnitude, ← hrd]
  refine ⟨r, hr, hrd ▸ hshift, hbuilt.multiplier_eq_zero_iff, hbuilt.roundedUp.of_multiplier_eq_zero, fun hne => ?_⟩
  have herror := hbuilt.roundedUp.error_bounds hne
  unfold fullMultiplier scale at herror
  cases hbuilt with
  | power hm _ _ => exact absurd hm hne
  | single q rem hs hm hx _ =>
    rw [hx, Bool.toNat_false, Nat.mul_zero, Nat.add_zero, Nat.add_zero] at herror
    refine ⟨q, rem, hs.divide, fun _ => ⟨hm, hs.toNat_succ, herror⟩, fun h => ?_⟩
    rw [hx] at h
    cases h
  | double q rem hs hm hx =>
    rw [hx, Bool.toNat_true, Nat.mul_one, Nat.add_comm _ (2 ^ w), ← Nat.add_assoc] at herror
    refine ⟨q, rem, hs.divide, fun h => ?_, fun _ => ⟨hm, hs.toNat_rounding, hs.losesTopBit, herror⟩⟩
    rw [hx] at h
    cases h

end Reciprocal

end TwosComplement
