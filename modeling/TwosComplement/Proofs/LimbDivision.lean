import Mathlib.Tactic.Ring
import TwosComplement.Proofs.LimbShift
import TwosComplement.Proofs.TwoLimbDivision

/-!
# Proofs/LimbDivision — dividing through the reciprocal of a limb is exact

* `LimbReciprocal.Exact`: the divisor is normalized by the shift, and the reciprocal belongs to it;
  `ofDivisor_exact`.
* `Exact.divideNormalized`, `Exact.divide`: the quotient and the remainder of two limbs, with the shift undone.
* `Exact.divideAll`: the same for a number of any length.
-/

namespace TwosComplement

theorem Nonzero.toNat_pos {w : ℕ} (d : Nonzero (Limb w)) : 0 < d.val.toNat :=
  Nat.pos_of_ne_zero fun h => d.ne_zero (BitVec.eq_of_toNat_eq h)

/-- With one limb more below, what the limbs above leave is divided again: its quotient comes below theirs, and its
remainder is the remainder of all. -/
theorem Numeral.toNat_cons_divMod {w : ℕ} (limb : Limb w) (above : Numeral w) {d : ℕ} (hd : 0 < d) :
    toNat (limb :: above) / d =
        (limb.toNat + 2 ^ w * (above.toNat % d)) / d + 2 ^ w * (above.toNat / d) ∧
      toNat (limb :: above) % d = (limb.toNat + 2 ^ w * (above.toNat % d)) % d := by
  have hsplit : toNat (limb :: above) =
      limb.toNat + 2 ^ w * (above.toNat % d) + d * (2 ^ w * (above.toNat / d)) := by
    rw [toNat_cons, Nat.mul_left_comm, Nat.add_assoc, ← Nat.mul_add, Nat.mod_add_div]
  rw [hsplit, Nat.add_mul_div_left _ _ hd, Nat.add_mul_mod_self_left]
  exact ⟨rfl, rfl⟩

namespace LimbReciprocal

variable {w : ℕ} {r : LimbReciprocal w}

/-! ## The reciprocal of a divisor -/

/-- The shift normalizes the divisor without losing a bit, and the reciprocal is that of the normalized one. -/
structure Exact (r : LimbReciprocal w) : Prop where
  divisor_pos : 0 < r.divisor.toNat
  shift_lt : r.shift < w
  toNat_normalized : r.normalized.toNat = r.divisor.toNat * 2 ^ r.shift
  top : 2 ^ w ≤ 2 * r.normalized.toNat
  reciprocal : ∃ k, 0 < k ∧ k ≤ r.normalized.toNat ∧
    (2 ^ w + r.reciprocal.toNat) * r.normalized.toNat + k = 2 ^ w * 2 ^ w

theorem ofDivisor_exact (d : Nonzero (Limb w)) :
    ∃ r, ofDivisor d = .ok r ∧ r.divisor = d.val ∧ r.Exact := by
  have hpos := d.toNat_pos
  obtain ⟨hn, htop⟩ := Limb.normalize hpos
  set n := d.val <<< d.val.leadingRun false with hnd
  rw [← hn] at htop
  -- the complement is what is missing to the largest limb, so that the dividend is as large as it may be
  obtain ⟨c, hc⟩ : ∃ c, 2 ^ w = n.toNat + 1 + c := ⟨2 ^ w - 1 - n.toNat, by have := n.isLt; omega⟩
  have hnot : (~~~n).toNat = c := by rw [BitVec.toNat_not]; omega
  have hX : DoubleWidth.toNat ⟨BitVec.allOnes w, ~~~n⟩ + 1 = 2 ^ w * (c + 1) := by
    rw [DoubleWidth.toNat, BitVec.toNat_allOnes, hnot, Nat.mul_succ]
    omega
  have hlt : (⟨BitVec.allOnes w, ~~~n⟩ : DoubleWidth .unsigned w).high.toNat < n.toNat := by
    rw [hnot]
    omega
  obtain ⟨q, rem, hdiv, hq, hrem⟩ := Limb.divideWide_of_lt hlt
  have hqr := Nat.div_add_mod (DoubleWidth.toNat ⟨BitVec.allOnes w, ~~~n⟩) n.toNat
  rw [← hq, ← hrem] at hqr
  refine ⟨⟨d.val, d.val.leadingRun false, q⟩, ?_, rfl, hpos, Limb.leadingRun_lt hpos, hn, htop,
    rem.toNat + 1, by omega, ?_, ?_⟩
  · show (Limb.divideWide ⟨BitVec.allOnes w, ~~~n⟩ n).bind _ = _
    rw [hdiv]
    rfl
  · show rem.toNat + 1 ≤ n.toNat
    rw [hrem]
    exact Nat.mod_lt _ (by omega)
  · show (2 ^ w + q.toNat) * n.toNat + (rem.toNat + 1) = 2 ^ w * 2 ^ w
    calc (2 ^ w + q.toNat) * n.toNat + (rem.toNat + 1) = 2 ^ w * n.toNat + (n.toNat * q.toNat + rem.toNat + 1) := by
          ring
      _ = 2 ^ w * n.toNat + 2 ^ w * (c + 1) := by rw [hqr, hX]
      _ = 2 ^ w * 2 ^ w := by rw [← Nat.mul_add]; congr 1; omega

/-! ## Two limbs -/

/-- A quotient and a remainder that are right as integers are right as limbs, when the quotient fits. -/
theorem toNat_of_division {U d : ℕ} {q r : ℤ} (hU : (U : ℤ) = q * d + r) (h0 : 0 ≤ r) (hr : r < d)
    (hd : d < 2 ^ w) (hUd : U < d * 2 ^ w) :
    (BitVec.ofInt w q).toNat = U / d ∧ (BitVec.ofInt w r).toNat = U % d := by
  obtain ⟨hq, hrem⟩ := (Int.ediv_emod_unique (a := U) (b := d) (q := q) (r := r) (by omega)).mpr
    ⟨by rw [hU]; ring, h0, hr⟩
  have hlt : ((U / d : ℕ) : ℤ) < 2 ^ w := by exact_mod_cast Nat.div_lt_of_lt_mul hUd
  have hd' : (d : ℤ) < 2 ^ w := by exact_mod_cast hd
  have hq' : q = ((U / d : ℕ) : ℤ) := by rw [← hq, Int.natCast_div]
  have hr' : r = ((U % d : ℕ) : ℤ) := by rw [← hrem, Int.natCast_mod]
  have h1 := toNat_ofInt_of_nonneg (w := w) (n := q) (hq' ▸ Int.natCast_nonneg _) (hq' ▸ hlt)
  have h2 := toNat_ofInt_of_nonneg (w := w) (n := r) h0 (by omega)
  omega

theorem ofInt_two_pow_mul (n : ℤ) : BitVec.ofInt w (n * 2 ^ w) = 0#w := by
  refine BitVec.eq_of_toNat_eq ?_
  rw [BitVec.toNat_ofInt]
  push_cast
  rw [Int.mul_emod_left]
  rfl

theorem low_fullProduct (a b : Limb w) : (Limb.fullProduct a b).low = a * b := by
  refine BitVec.eq_of_toNat_eq ?_
  rw [BitVec.toNat_mul]
  exact BitVec.toNat_ofNat _ _

/-- The integers behind one step: the trial quotient is the exact carry of the estimate and the dividend. -/
theorem Exact.trial (h : r.Exact) {high low f : Limb w} {c : Bool} {e : DoubleWidth .unsigned w}
    (hlt : high.toNat < r.normalized.toNat) (he : Limb.fullProduct r.reciprocal high = e)
    (hf : Limb.addCarry e.low low false = (f, c)) :
    Trial (2 ^ w) r.normalized.toNat r.reciprocal.toNat high.toNat low.toNat
      (e.high.toNat + high.toNat + c.toNat) f.toNat := by
  obtain ⟨k, hk0, hkd, hk⟩ := h.reciprocal
  have hdB := r.normalized.isLt
  have hk' : ((2 : ℤ) ^ w + r.reciprocal.toNat) * r.normalized.toNat + k = 2 ^ w * 2 ^ w := by exact_mod_cast hk
  have he' : (e.low.toNat : ℤ) + 2 ^ w * e.high.toNat = r.reciprocal.toNat * high.toNat := by
    exact_mod_cast he ▸ Limb.toNat_fullProduct r.reciprocal high
  have hf' : (f.toNat : ℤ) + 2 ^ w * c.toNat = e.low.toNat + low.toNat := by
    have h1 := Limb.addCarry_recompose e.low low false
    rw [hf] at h1
    exact_mod_cast h1
  refine ⟨by omega, by exact_mod_cast hdB, by omega, ⟨by omega, by exact_mod_cast low.isLt⟩,
    ⟨by omega, by exact_mod_cast f.isLt⟩, ?_⟩
  linear_combination -he' - hf'

/-- The division as integers: one more than the trial quotient, and what it leaves, are settled by the fraction. -/
theorem divideNormalized_eq_settle {high low f : Limb w} {c : Bool} {e : DoubleWidth .unsigned w}
    (he : Limb.fullProduct r.reciprocal high = e) (hf : Limb.addCarry e.low low false = (f, c)) {q : ℤ}
    (hq : e.high.toNat + high.toNat + c.toNat = q) :
    r.divideNormalized high low = settle r.normalized f ⟨BitVec.ofInt w (q + 1),
      BitVec.ofInt w (high.toNat * 2 ^ w + low.toNat - (q + 1) * r.normalized.toNat)⟩ := by
  have hquotient : (Limb.addCarry e.high high c).1 + 1 = BitVec.ofInt w (q + 1) := by
    rw [BitVec.ofInt_add, ← hq, Limb.fst_addCarry]
    rfl
  have hremainder : low - BitVec.ofInt w (q + 1) * r.normalized =
      BitVec.ofInt w (high.toNat * 2 ^ w + low.toNat - (q + 1) * r.normalized.toNat) := by
    rw [ofInt_sub, BitVec.ofInt_add _ (low.toNat : ℤ), ofInt_two_pow_mul, BitVec.ofInt_mul, ofInt_toNat,
      ofInt_toNat, BitVec.zero_add]
  rw [← hremainder]
  unfold LimbReciprocal.divideNormalized
  simp only [he, hf, hquotient, low_fullProduct]
  rfl

theorem Exact.divideNormalized (h : r.Exact) {high : Limb w} (low : Limb w) (hlt : high < r.normalized) :
    (r.divideNormalized high low).quotient.toNat =
        (low.toNat + 2 ^ w * high.toNat) / r.normalized.toNat ∧
      (r.divideNormalized high low).remainder.toNat =
        (low.toNat + 2 ^ w * high.toNat) % r.normalized.toNat := by
  rw [BitVec.lt_def] at hlt
  obtain ⟨e, he⟩ : ∃ e, Limb.fullProduct r.reciprocal high = e := ⟨_, rfl⟩
  obtain ⟨⟨f, c⟩, hf⟩ : ∃ f, Limb.addCarry e.low low false = f := ⟨_, rfl⟩
  obtain ⟨q, hq⟩ : ∃ q : ℤ, e.high.toNat + high.toNat + c.toNat = q := ⟨_, rfl⟩
  have trial := h.trial hlt he hf
  rw [hq] at trial
  obtain ⟨t, hsettle, h0, hltd⟩ := settle_spec (q := q + 1) h.top trial.neg_le trial.fraction_lt
    trial.lt_of_fraction_lt
  rw [divideNormalized_eq_settle he hf hq, hsettle]
  refine toNat_of_division ?_ h0 hltd r.normalized.isLt ?_
  · push_cast
    ring
  · rw [Nat.mul_comm r.normalized.toNat]
    exact low.toNat_add_mul_lt hlt

/-- Shifting two limbs up by less than a limb, when no bit leaves the high one. -/
theorem toNat_shiftLeft_pair {x : DoubleWidth .unsigned w} {k : ℕ} (hk : k < w)
    (hx : x.high.toNat * 2 ^ k < 2 ^ w) :
    (x.low <<< k).toNat + 2 ^ w * (x.high <<< k ||| x.low >>> (w - k)).toNat = x.toNat * 2 ^ k := by
  have hlow := Limb.shiftLeft_add_spill hk.le x.low
  have hhigh := Limb.shiftLeft_recompose hk.le x.high x.low
  rw [Limb.spill_eq_zero hk.le hx, Nat.mul_zero, Nat.add_zero] at hhigh
  rw [hhigh, DoubleWidth.toNat, Nat.add_mul, ← hlow]
  ring

/-- By nothing, the limb below would lose all its bits. -/
theorem divide_of_lt {x : DoubleWidth .unsigned w} (hlt : x.high < r.divisor) :
    r.divide x = .ok
      ⟨(r.divideNormalized (x.high <<< r.shift ||| x.low >>> (w - r.shift)) (x.low <<< r.shift)).quotient,
        (r.divideNormalized (x.high <<< r.shift ||| x.low >>> (w - r.shift)) (x.low <<< r.shift)).remainder >>>
          r.shift⟩ := by
  unfold LimbReciprocal.divide
  rw [if_pos hlt]
  split
  case isTrue h =>
    rw [h, BitVec.shiftLeft_zero, BitVec.shiftLeft_zero, BitVec.ushiftRight_zero, Nat.sub_zero,
      BitVec.ushiftRight_eq_zero (Nat.le_refl w), BitVec.or_zero]
  case isFalse => rfl

theorem Exact.divide (h : r.Exact) {x : DoubleWidth .unsigned w} (hlt : x.high < r.divisor) :
    ∃ q rem : Limb w, r.divide x = .ok ⟨q, rem⟩ ∧ q.toNat = x.toNat / r.divisor.toNat ∧
      rem.toNat = x.toNat % r.divisor.toNat := by
  have hp := Nat.two_pow_pos r.shift
  have hx : x.high.toNat * 2 ^ r.shift < r.divisor.toNat * 2 ^ r.shift := Nat.mul_lt_mul_of_pos_right hlt hp
  have hn := h.toNat_normalized
  have hpair := toNat_shiftLeft_pair h.shift_lt (lt_trans hx (hn ▸ r.normalized.isLt))
  -- shifted up together, the dividend stays below the divisor
  have hhigh : x.high <<< r.shift ||| x.low >>> (w - r.shift) < r.normalized := by
    have hxd : x.toNat < 2 ^ w * r.divisor.toNat := x.low.toNat_add_mul_lt hlt
    have h3 := Nat.mul_lt_mul_of_pos_right hxd hp
    rw [BitVec.lt_def, hn]
    refine Nat.lt_of_mul_lt_mul_left (a := 2 ^ w) ?_
    rw [← Nat.mul_assoc]
    omega
  obtain ⟨hq, hrem⟩ := h.divideNormalized (x.low <<< r.shift) hhigh
  rw [hpair, hn] at hq hrem
  refine ⟨_, _, divide_of_lt hlt, ?_, ?_⟩
  · rw [hq, Nat.mul_div_mul_right _ _ hp]
  · rw [BitVec.toNat_ushiftRight, Nat.shiftRight_eq_div_pow, hrem, Nat.mul_mod_mul_right, Nat.mul_div_cancel _ hp]

/-! ## Any number of limbs -/

theorem Exact.divideAll (h : r.Exact) (limbs : Numeral w) :
    ∃ (q : Numeral w) (rem : Limb w), r.divideAll limbs = .ok ⟨q, rem⟩ ∧ q.length = limbs.length ∧
      q.toNat = limbs.toNat / r.divisor.toNat ∧ rem.toNat = limbs.toNat % r.divisor.toNat := by
  induction limbs with
  | nil => exact ⟨[], 0, rfl, rfl, by simp, by simp⟩
  | cons limb above ih =>
    obtain ⟨q, rem, hup, hlen, hq, hrem⟩ := ih
    have hlt : rem < r.divisor := by
      rw [BitVec.lt_def, hrem]
      exact Nat.mod_lt _ h.divisor_pos
    obtain ⟨q', rem', hdiv, hq', hrem'⟩ := h.divide (x := ⟨limb, rem⟩) hlt
    obtain ⟨hquotient, hremainder⟩ := Numeral.toNat_cons_divMod limb above h.divisor_pos
    rw [← hrem] at hquotient hremainder
    refine ⟨q' :: q, rem', ?_, congrArg (· + 1) hlen, ?_, hrem'.trans hremainder.symm⟩
    · unfold LimbReciprocal.divideAll
      rw [hup]
      show (r.divide ⟨limb, rem⟩).bind _ = _
      rw [hdiv]
      rfl
    · rw [hquotient, Numeral.toNat_cons, hq', hq]
      rfl

/-- **Division through the reciprocal of a limb is exact.**  Every nonzero limb has a reciprocal.  Two limbs whose
high one is below the divisor are divided as by the plain division, both exactly, and both refuse all others;
and a number of any length is divided in place, with a quotient of the same length. -/
theorem divide_eq_divideWide (d : Nonzero (Limb w)) : ∃ r, ofDivisor d = .ok r ∧
    (∀ x : DoubleWidth .unsigned w, x.high < d.val → ∃ q rem : Limb w,
      r.divide x = .ok ⟨q, rem⟩ ∧ Limb.divideWide x d.val = .ok ⟨q, rem⟩ ∧
        q.toNat = x.toNat / d.val.toNat ∧ rem.toNat = x.toNat % d.val.toNat) ∧
    (∀ x : DoubleWidth .unsigned w, ¬ x.high < d.val →
      r.divide x = .error .limbQuotientOverflow ∧ Limb.divideWide x d.val = .error .narrowingOverflow) ∧
    ∀ limbs : Numeral w, ∃ (q : Numeral w) (rem : Limb w), r.divideAll limbs = .ok ⟨q, rem⟩ ∧
      q.length = limbs.length ∧ q.toNat = Numeral.toNat limbs / d.val.toNat ∧
        rem.toNat = Numeral.toNat limbs % d.val.toNat := by
  obtain ⟨r, hr, hrd, hexact⟩ := ofDivisor_exact d
  rw [← hrd]
  refine ⟨r, hr, fun x hlt => ?_, fun x hge => ⟨if_neg hge, if_neg hge⟩, hexact.divideAll⟩
  obtain ⟨q, rem, hdiv, hq, hrem⟩ := hexact.divide hlt
  obtain ⟨q', rem', hdiv', hq', hrem'⟩ := Limb.divideWide_of_lt (BitVec.lt_def.mp hlt)
  refine ⟨q, rem, hdiv, ?_, hq, hrem⟩
  rw [hdiv', BitVec.eq_of_toNat_eq (hq'.trans hq.symm), BitVec.eq_of_toNat_eq (hrem'.trans hrem.symm)]

end LimbReciprocal

end TwosComplement
