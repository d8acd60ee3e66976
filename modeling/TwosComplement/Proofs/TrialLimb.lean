import Mathlib.Data.List.Basic
import Mathlib.Tactic.GCongr
import TwosComplement.Numeral.LongDivision
import TwosComplement.Proofs.LimbDivision

/-!
# Proofs/TrialLimb — the trial limb is the quotient limb or one more

The trial limb is found from the top limbs alone. It starts at or above the quotient limb, it is lowered only as long
as it is above it, and when the two top limbs of the divisor have no more to say it is at most one above.

* `DigitBounds`: the numbers of one digit, and what the top limbs say about divisor and window.
* `LongDivisor.Window`: the limbs of a window by name; `Exact.digitBounds` gives their numbers.
* `TrialLimb.Covers`: the invariant of the trial limb; `Exact.estimate_covers`, `Covers.lower`, `Covers.adjust`.
* `Covers.mul_le_add_double`, `Covers.mul_le_of_not_tooLarge`: how far the limb is off at first, and in the end.
-/

namespace TwosComplement

/-! ## The numbers of one digit -/

/-- One digit in base `B`. The divisor `V` has the top limbs `v₁` and `v₀`, and the window `Z` the top limbs `u₂`, `u₁`
and `u₀`; the limbs below them are worth less than `P` in both. -/
structure DigitBounds (B P v₁ v₀ V u₂ u₁ u₀ Z : ℕ) : Prop where
  divisor : (v₁ * B + v₀) * P ≤ V ∧ V < (v₁ * B + v₀ + 1) * P
  window : ((u₂ * B + u₁) * B + u₀) * P ≤ Z ∧ Z < ((u₂ * B + u₁) * B + u₀ + 1) * P
  limbs : v₀ < B ∧ u₁ < B ∧ u₀ < B
  top : 0 < v₁
  below : Z < V * B

namespace DigitBounds

variable {B P v₁ v₀ V u₂ u₁ u₀ Z : ℕ}

theorem first_le (h : DigitBounds B P v₁ v₀ V u₂ u₁ u₀ Z) : u₂ ≤ v₁ := by
  obtain ⟨⟨-, hV⟩, ⟨hZ, -⟩, ⟨hv₀, -, -⟩, -, hbelow⟩ := h
  have hlt : u₂ * (B * B * P) < (v₁ + 1) * (B * B * P) :=
    calc u₂ * (B * B * P) ≤ u₂ * (B * B * P) + (u₁ * B + u₀) * P := Nat.le_add_right _ _
      _ = ((u₂ * B + u₁) * B + u₀) * P := by ring
      _ < V * B := lt_of_le_of_lt hZ hbelow
      _ ≤ (v₁ * B + v₀ + 1) * P * B := Nat.mul_le_mul_right B hV.le
      _ ≤ (v₁ * B + B) * P * B := Nat.mul_le_mul_right B (Nat.mul_le_mul_right P (by omega))
      _ = (v₁ + 1) * (B * B * P) := by ring
  exact Nat.lt_succ_iff.mp (Nat.lt_of_mul_lt_mul_right hlt)

/-- A limb that is large enough for the first limbs is large enough. -/
theorem lt_succ_mul (h : DigitBounds B P v₁ v₀ V u₂ u₁ u₀ Z) {e : ℕ} (he : u₂ * B + u₁ < (e + 1) * v₁) :
    Z < (e + 1) * V := by
  obtain ⟨⟨hV, -⟩, ⟨-, hZ⟩, ⟨-, -, hu₀⟩, -, -⟩ := h
  calc Z < ((u₂ * B + u₁) * B + u₀ + 1) * P := hZ
    _ ≤ ((u₂ * B + u₁) * B + B) * P := Nat.mul_le_mul_right P (by omega)
    _ = (u₂ * B + u₁ + 1) * (B * P) := by ring
    _ ≤ (e + 1) * v₁ * (B * P) := Nat.mul_le_mul_right _ he
    _ = (e + 1) * (v₁ * B * P) := by ring
    _ ≤ (e + 1) * ((v₁ * B + v₀) * P) := by gcongr; omega
    _ ≤ (e + 1) * V := Nat.mul_le_mul_left _ hV

/-- A limb that is too large for the two top limbs is too large. -/
theorem lt_mul_of_exceeds (h : DigitBounds B P v₁ v₀ V u₂ u₁ u₀ Z) {e r : ℕ} (hr : e * v₁ + r = u₂ * B + u₁)
    (hlt : r * B + u₀ < e * v₀) : Z < e * V := by
  obtain ⟨⟨hV, -⟩, ⟨-, hZ⟩, -, -, -⟩ := h
  calc Z < ((u₂ * B + u₁) * B + u₀ + 1) * P := hZ
    _ = (e * v₁ * B + (r * B + u₀ + 1)) * P := by rw [← hr]; ring
    _ ≤ (e * v₁ * B + e * v₀) * P := by gcongr; exact hlt
    _ = e * ((v₁ * B + v₀) * P) := by ring
    _ ≤ e * V := Nat.mul_le_mul_left _ hV

/-- A limb that is not too large for the two top limbs is at most one too large. -/
theorem mul_le_add (h : DigitBounds B P v₁ v₀ V u₂ u₁ u₀ Z) {e r : ℕ} (hr : e * v₁ + r = u₂ * B + u₁) (he : e < B)
    (hle : e * v₀ ≤ r * B + u₀) : e * V ≤ Z + V := by
  obtain ⟨⟨hV, hV'⟩, ⟨hZ, -⟩, -, htop, -⟩ := h
  -- what the limbs below the top two add is less than the divisor
  have hsmall : e * P ≤ V :=
    calc e * P ≤ v₁ * B * P := by gcongr; exact he.le.trans (Nat.le_mul_of_pos_left B htop)
      _ ≤ (v₁ * B + v₀) * P := by gcongr; omega
      _ ≤ V := hV
  calc e * V ≤ e * ((v₁ * B + v₀ + 1) * P) := Nat.mul_le_mul_left e hV'.le
    _ = (e * v₁ * B + e * v₀) * P + e * P := by ring
    _ ≤ (e * v₁ * B + (r * B + u₀)) * P + V := by gcongr
    _ = ((u₂ * B + u₁) * B + u₀) * P + V := by rw [← hr]; ring
    _ ≤ Z + V := Nat.add_le_add_right hZ V

/-- A limb that accounts for no more than the first limbs is at most two too large, when the divisor is normalized. -/
theorem mul_le_add_double (h : DigitBounds B P v₁ v₀ V u₂ u₁ u₀ Z) {e r : ℕ} (hr : e * v₁ + r = u₂ * B + u₁)
    (he : e < B) (hnormalized : B ≤ 2 * v₁) : e * V ≤ Z + 2 * V := by
  obtain ⟨⟨hV, hV'⟩, ⟨hZ, -⟩, ⟨hv₀, -, -⟩, -, -⟩ := h
  -- what the limbs below the first one add is less than twice the divisor
  have hsmall : e * (B * P) ≤ 2 * V :=
    calc e * (B * P) ≤ 2 * v₁ * (B * P) := Nat.mul_le_mul_right _ (he.le.trans hnormalized)
      _ = 2 * (v₁ * B * P) := by ring
      _ ≤ 2 * ((v₁ * B + v₀) * P) := by gcongr; omega
      _ ≤ 2 * V := Nat.mul_le_mul_left 2 hV
  calc e * V ≤ e * ((v₁ * B + v₀ + 1) * P) := Nat.mul_le_mul_left e hV'.le
    _ ≤ e * ((v₁ * B + B) * P) := Nat.mul_le_mul_left e (Nat.mul_le_mul_right P (by omega))
    _ = e * v₁ * (B * P) + e * (B * P) := by ring
    _ ≤ (u₂ * B + u₁) * (B * P) + 2 * V := by gcongr; exact hr ▸ Nat.le_add_right _ _
    _ ≤ (u₂ * B + u₁) * (B * P) + u₀ * P + 2 * V := Nat.add_le_add_right (Nat.le_add_right _ _) _
    _ = ((u₂ * B + u₁) * B + u₀) * P + 2 * V := by ring
    _ ≤ Z + 2 * V := Nat.add_le_add_right hZ _

end DigitBounds

/-! ## Divisor and window -/

theorem Numeral.mul_le_and_lt {w n p : ℕ} {lower : Numeral w} (h : n = lower.toNat + 2 ^ (w * lower.length) * p) :
    p * 2 ^ (w * lower.length) ≤ n ∧ n < (p + 1) * 2 ^ (w * lower.length) := by
  have hlt := lower.toNat_lt
  rw [h, Nat.add_mul, Nat.one_mul, Nat.mul_comm p]
  omega

namespace LongDivisor

variable {w : ℕ} {d : LongDivisor w}

/-- The limbs end in the two that the divisor names, the top one is normalized, and the reciprocal belongs to it. -/
structure Exact (d : LongDivisor w) : Prop where
  limbs : ∃ lower : Numeral w, d.limbs = lower ++ [d.next, d.top]
  normalized : 2 ^ w ≤ 2 * d.top.toNat
  divisor : d.reciprocal.divisor = d.top
  reciprocal : d.reciprocal.Exact

/-- The limbs of a window, the three top ones by name. -/
structure Window (w : ℕ) where
  lower : Numeral w
  third : Limb w
  second : Limb w
  first : Limb w

/-- The limbs in ascending order. -/
def Window.limbs (x : Window w) : Numeral w := x.lower ++ [x.third, x.second, x.first]

/-- A window for a divisor has one limb more, and a quotient of one limb. -/
structure Window.Fits (x : Window w) (d : LongDivisor w) : Prop where
  length : d.limbs.length = x.lower.length + 2
  below : x.limbs.toNat < d.limbs.toNat * 2 ^ w

variable {x : Window w}

theorem exists_window {limbs : Numeral w} {k : ℕ} (h : limbs.length = k + 3) :
    ∃ x : Window w, limbs = x.limbs ∧ x.lower.length = k := by
  have hlen : (limbs.drop k).length = 3 := by rw [List.length_drop, h, Nat.add_sub_cancel_left]
  obtain ⟨a, b, c, habc⟩ := List.length_eq_three.mp hlen
  refine ⟨⟨limbs.take k, a, b, c⟩, ?_, ?_⟩
  · show limbs = limbs.take k ++ [a, b, c]
    rw [← habc, List.take_append_drop]
  · show (limbs.take k).length = k
    rw [List.length_take, h]
    omega

theorem Window.toNat_limbs (x : Window w) : x.limbs.toNat = x.lower.toNat +
    2 ^ (w * x.lower.length) * ((x.first.toNat * 2 ^ w + x.second.toNat) * 2 ^ w + x.third.toNat) := by
  unfold limbs
  rw [Numeral.toNat_append, Numeral.toNat_cons, Numeral.toNat_cons, Numeral.toNat_cons, Numeral.toNat_nil]
  ring

theorem Window.Fits.length_limbs (hx : x.Fits d) : x.limbs.length = d.limbs.length + 1 := by
  rw [hx.length, limbs, List.length_append]
  rfl

theorem Window.Fits.limbAt (hx : x.Fits d) : x.limbs.limbAt d.limbs.length = .ok x.first ∧
    x.limbs.limbAt (d.limbs.length - 1) = .ok x.second ∧ x.limbs.limbAt (d.limbs.length - 2) = .ok x.third := by
  rw [hx.length]
  exact ⟨Numeral.limbAt_append x.lower _ 2, Numeral.limbAt_append x.lower _ 1, Numeral.limbAt_append x.lower _ 0⟩

theorem Exact.digitBounds (h : d.Exact) (hx : x.Fits d) :
    DigitBounds (2 ^ w) (2 ^ (w * x.lower.length)) d.top.toNat d.next.toNat d.limbs.toNat
      x.first.toNat x.second.toNat x.third.toNat x.limbs.toNat := by
  obtain ⟨⟨lower, hlimbs⟩, hnormalized, -, -⟩ := h
  have hlen : lower.length = x.lower.length := by
    have h1 := hx.length
    rw [hlimbs, List.length_append] at h1
    exact Nat.add_right_cancel h1
  have hV : d.limbs.toNat =
      lower.toNat + 2 ^ (w * lower.length) * (d.top.toNat * 2 ^ w + d.next.toNat) := by
    rw [hlimbs, Numeral.toNat_append, Numeral.toNat_cons, Numeral.toNat_cons, Numeral.toNat_nil]
    ring
  have hp := Nat.two_pow_pos w
  refine ⟨?_, Numeral.mul_le_and_lt x.toNat_limbs, ⟨d.next.isLt, x.second.isLt, x.third.isLt⟩, by omega, hx.below⟩
  rw [← hlen]
  exact Numeral.mul_le_and_lt hV

theorem Exact.first_lt (h : d.Exact) (hx : x.Fits d) (hne : x.first ≠ d.top) : x.first < d.reciprocal.divisor := by
  have hle := (h.digitBounds hx).first_le
  rw [h.divisor, BitVec.lt_def]
  exact lt_of_le_of_ne hle fun heq => hne (BitVec.eq_of_toNat_eq heq)

end LongDivisor

/-! ## The invariant of the trial limb -/

variable {w : ℕ} {d : LongDivisor w} {x : LongDivisor.Window w} {trial : TrialLimb w}

/-- What the trial limb leaves of the window's first two limbs, with the carry out of its limb. -/
def TrialLimb.remaining (trial : TrialLimb w) : ℕ := trial.rest.toNat + 2 ^ w * trial.overflow.toNat

/-- Limb and rest account for the window's first two limbs, and the limb is not below the quotient. -/
structure TrialLimb.Covers (trial : TrialLimb w) (d : LongDivisor w) (x : LongDivisor.Window w) : Prop where
  account : trial.limb.toNat * d.top.toNat + trial.remaining = x.first.toNat * 2 ^ w + x.second.toNat
  covers : x.limbs.toNat < (trial.limb.toNat + 1) * d.limbs.toNat

namespace LongDivisor

theorem Window.Fits.covers_allOnes (hx : x.Fits d) (hfirst : x.first = d.top) :
    (⟨BitVec.allOnes w, (Limb.addCarry x.second d.top false).1,
      (Limb.addCarry x.second d.top false).2⟩ : TrialLimb w).Covers d x := by
  have hcarry := Limb.addCarry_recompose x.second d.top false
  -- the limb is one less than the base, so that the divisor's top limb is left once more in the rest
  obtain ⟨m, hm⟩ : ∃ m, 2 ^ w = m + 1 := ⟨2 ^ w - 1, by have := Nat.two_pow_pos w; omega⟩
  have hones : (BitVec.allOnes w).toNat = m := by rw [BitVec.toNat_allOnes, hm, Nat.add_sub_cancel]
  constructor
  · show (BitVec.allOnes w).toNat * d.top.toNat + ((Limb.addCarry x.second d.top false).1.toNat +
      2 ^ w * (Limb.addCarry x.second d.top false).2.toNat) = _
    rw [hcarry, hones, hfirst, hm, Bool.toNat_false]
    ring
  · show x.limbs.toNat < ((BitVec.allOnes w).toNat + 1) * d.limbs.toNat
    rw [hones, ← hm, Nat.mul_comm]
    exact hx.below

/-- The estimate answers: the window's first limb does not exceed the divisor's, and is below it where the reciprocal
divides. -/
theorem Exact.estimate_covers (h : d.Exact) (hx : x.Fits d) :
    ∃ trial, d.estimate x.limbs = .ok trial ∧ trial.Covers d x := by
  obtain ⟨hfirst, hsecond, -⟩ := hx.limbAt
  have hbounds := h.digitBounds hx
  have hestimate : d.estimate x.limbs = if x.first = d.top then
      .ok ⟨BitVec.allOnes w, (Limb.addCarry x.second d.top false).1, (Limb.addCarry x.second d.top false).2⟩
      else d.reciprocal.divide ⟨x.second, x.first⟩ >>= fun division =>
        .ok ⟨division.quotient, division.remainder, false⟩ := by
    unfold estimate
    rw [hfirst, hsecond]
    rfl
  by_cases heq : x.first = d.top
  · exact ⟨_, hestimate.trans (if_pos heq), hx.covers_allOnes heq⟩
  · obtain ⟨q, r, hdivide, hq, hr⟩ := h.reciprocal.divide (x := ⟨x.second, x.first⟩) (h.first_lt hx heq)
    have hvalue : DoubleWidth.toNat ⟨x.second, x.first⟩ = x.first.toNat * 2 ^ w + x.second.toNat := by
      unfold DoubleWidth.toNat
      ring
    rw [h.divisor, hvalue] at hq hr
    refine ⟨⟨q, r, false⟩, ?_, ?_, ?_⟩
    · rw [hestimate, if_neg heq, hdivide]
      rfl
    · show q.toNat * d.top.toNat + (r.toNat + 2 ^ w * false.toNat) = _
      rw [hq, hr, Bool.toNat_false, Nat.mul_zero, Nat.add_zero, Nat.mul_comm, Nat.div_add_mod]
    · refine hbounds.lt_succ_mul ?_
      show _ < (q.toNat + 1) * d.top.toNat
      rw [hq, Nat.mul_comm _ d.top.toNat]
      exact Nat.lt_mul_div_succ _ hbounds.top

end LongDivisor

namespace TrialLimb.Covers

theorem lower (h : trial.Covers d x) (hd : d.Exact) (hx : x.Fits d) (hlarge : d.tooLarge x.third trial = true) :
    (d.lower trial).Covers d x := by
  obtain ⟨hoverflow, hexceeds⟩ := LongDivisor.tooLarge_iff.mp hlarge
  have hpos := LongDivisor.toNat_limb_pos_of_tooLarge hlarge
  have hlimb := LongDivisor.toNat_limb_lower (d := d) hpos
  have hrest : trial.remaining = trial.rest.toNat := by
    unfold remaining
    rw [hoverflow, Bool.toNat_false, Nat.mul_zero, Nat.add_zero]
  -- the top limb of the divisor goes back to the rest, with its carry
  have hremaining : (d.lower trial).remaining = trial.rest.toNat + d.top.toNat :=
    Limb.addCarry_recompose trial.rest d.top false
  have haccount := h.account
  rw [hrest] at haccount
  obtain ⟨e, he⟩ : ∃ e, trial.limb.toNat = e + 1 := ⟨trial.limb.toNat - 1, by omega⟩
  have hlt : x.limbs.toNat < trial.limb.toNat * d.limbs.toNat := by
    refine (hd.digitBounds hx).lt_mul_of_exceeds haccount ?_
    rw [Nat.mul_comm, Nat.add_comm]
    exact hexceeds
  rw [he] at haccount hlimb hlt
  constructor
  · rw [hlimb, hremaining, ← haccount, Nat.add_sub_cancel]
    ring
  · rw [hlimb, Nat.add_sub_cancel]
    exact hlt

theorem adjust (h : trial.Covers d x) (hd : d.Exact) (hx : x.Fits d) : (d.adjust x.third trial).Covers d x := by
  induction trial using LongDivisor.adjust.induct d x.third with
  | case1 trial hlarge hpos hlt ih =>
    unfold LongDivisor.adjust
    rw [dif_pos hlarge]
    exact ih (h.lower hd hx hlarge)
  | case2 trial hdone =>
    unfold LongDivisor.adjust
    rw [dif_neg hdone]
    exact h

/-- No limb that accounts for the window's first two is more than two above the quotient. -/
theorem mul_le_add_double (h : trial.Covers d x) (hd : d.Exact) (hx : x.Fits d) :
    trial.limb.toNat * d.limbs.toNat ≤ x.limbs.toNat + 2 * d.limbs.toNat :=
  (hd.digitBounds hx).mul_le_add_double h.account trial.limb.isLt hd.normalized

/-- A limb that is not too large is at most one above the quotient. -/
theorem mul_le_of_not_tooLarge (h : trial.Covers d x) (hd : d.Exact) (hx : x.Fits d)
    (hdone : ¬ d.tooLarge x.third trial = true) :
    trial.limb.toNat * d.limbs.toNat ≤ x.limbs.toNat + d.limbs.toNat := by
  refine (hd.digitBounds hx).mul_le_add h.account trial.limb.isLt ?_
  rw [LongDivisor.tooLarge_iff] at hdone
  cases hoverflow : trial.overflow with
  | false =>
    have hle : trial.limb.toNat * d.next.toNat ≤ x.third.toNat + 2 ^ w * trial.rest.toNat :=
      Nat.le_of_not_lt fun hlt => hdone ⟨hoverflow, hlt⟩
    unfold remaining
    rw [hoverflow, Bool.toNat_false, Nat.mul_zero, Nat.add_zero, Nat.mul_comm trial.rest.toNat, Nat.add_comm]
    exact hle
  | true =>
    unfold remaining
    -- a rest beyond the limb leaves room for every limb
    rw [hoverflow, Bool.toNat_true, Nat.mul_one]
    calc trial.limb.toNat * d.next.toNat ≤ 2 ^ w * 2 ^ w := Nat.mul_le_mul trial.limb.isLt.le d.next.isLt.le
      _ ≤ (trial.rest.toNat + 2 ^ w) * 2 ^ w := Nat.mul_le_mul_right _ (Nat.le_add_left _ _)
      _ ≤ (trial.rest.toNat + 2 ^ w) * 2 ^ w + x.third.toNat := Nat.le_add_right _ _

end TrialLimb.Covers

theorem LongDivisor.not_tooLarge_adjust (d : LongDivisor w) (third : Limb w) (trial : TrialLimb w) :
    ¬ d.tooLarge third (d.adjust third trial) = true := by
  induction trial using LongDivisor.adjust.induct d third with
  | case1 trial hlarge hpos hlt ih =>
    unfold LongDivisor.adjust
    rw [dif_pos hlarge]
    exact ih
  | case2 trial hdone =>
    unfold LongDivisor.adjust
    rw [dif_neg hdone]
    exact hdone

end TwosComplement
