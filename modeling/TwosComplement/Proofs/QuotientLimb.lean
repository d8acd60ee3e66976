import Mathlib.Logic.Function.Iterate
import TwosComplement.Proofs.LongDivision

/-!
# Proofs/QuotientLimb — every step lowers its limb at most twice, and adds back at most once

The first trial limb is at most two above the quotient of its window. Each lowering takes one off and never goes below
the quotient. An excess of one may be left: then the subtraction borrows, and one multiple is added back.

* `LongDivisor.exists_lowerings`: how often the loop of `adjust` lowers a limb.
* `LongDivisor.Iteration`: all that a step goes through; `Iteration.Follows`, `Iteration.WithinBounds`.
* `LongDivisor.Exact.exists_iteration`: a step on a window that fits.
* `LongDivisor.windowAt`, `LongDivisor.Exact.exists_iteration_at`: the steps of a run, one for each limb of the quotient.
* `Numeral.divide_steps_within_bounds`: long division is such a run.
-/

namespace TwosComplement

namespace LongDivisor

variable {w : ℕ} {d : LongDivisor w}

/-! ## Lowering a limb -/

theorem exists_lowerings (d : LongDivisor w) (third : Limb w) (trial : TrialLimb w) :
    ∃ n, d.adjust third trial = d.lower^[n] trial ∧ (∀ k < n, d.tooLarge third (d.lower^[k] trial) = true) ∧
      (d.adjust third trial).limb.toNat + n = trial.limb.toNat := by
  -- along the loop: its first lowering comes before those that are left
  induction trial using LongDivisor.adjust.induct d third with
  | case1 trial hlarge hpos hlt ih =>
    obtain ⟨n, hlowered, hall, hcount⟩ := ih
    have hadjust : d.adjust third trial = d.adjust third (d.lower trial) := by
      rw [LongDivisor.adjust, dif_pos hlarge]
    rw [hadjust]
    refine ⟨n + 1, hlowered, fun k hk => ?_, ?_⟩
    · cases k with
      | zero => exact hlarge
      | succ k => exact hall k (Nat.lt_of_succ_lt_succ hk)
    · rw [toNat_limb_lower hpos] at hcount
      omega
  | case2 trial hdone =>
    rw [LongDivisor.adjust, dif_neg hdone]
    exact ⟨0, rfl, fun k hk => absurd hk (Nat.not_lt_zero k), rfl⟩

/-! ## What a step goes through -/

/-- All that one step goes through: the window it finds, the first trial limb, how often that is lowered and what it is
then, whether the subtraction borrows, and the limb of the quotient and the window that the step leaves. -/
structure Iteration (w : ℕ) where
  window : Window w
  first : TrialLimb w
  lowerings : ℕ
  last : TrialLimb w
  borrow : Bool
  digit : Limb w
  rest : Numeral w

namespace Iteration

/-- The step of `d` goes through these. -/
structure Follows (i : Iteration w) (d : LongDivisor w) : Prop where
  estimate : d.estimate i.window.limbs = .ok i.first
  adjust : d.adjust i.window.third i.first = i.last
  /-- The first limb is lowered that many times, each time because it is too large, and then no longer. -/
  lowered : i.last = d.lower^[i.lowerings] i.first ∧
    (∀ n < i.lowerings, d.tooLarge i.window.third (d.lower^[n] i.first) = true) ∧
    d.tooLarge i.window.third i.last = false
  borrow : (Numeral.subBorrow i.window.limbs (Numeral.mulRow i.last.limb d.limbs) false).2 = i.borrow
  step : d.step i.window.limbs = .ok (i.digit, i.rest)

/-- The quotient of the window by the divisor. -/
def quotient (i : Iteration w) (d : LongDivisor w) : ℕ := i.window.limbs.toNat / d.limbs.toNat

/-- How far the numbers of a step may be off. -/
structure WithinBounds (i : Iteration w) (d : LongDivisor w) : Prop where
  /-- The window has one limb more than the divisor, and its quotient is one limb. -/
  window : i.window.limbs.length = d.limbs.length + 1 ∧ i.window.limbs.toNat < d.limbs.toNat * 2 ^ w
  /-- The first limb does not exceed the divisor's, and is below it where the two top limbs are divided. -/
  top : i.window.first ≤ d.top ∧ (i.window.first ≠ d.top → i.window.first < d.reciprocal.divisor)
  first : i.quotient d ≤ i.first.limb.toNat ∧ i.first.limb.toNat ≤ i.quotient d + 2
  lowerings : i.lowerings ≤ 2
  last : i.quotient d ≤ i.last.limb.toNat ∧ i.last.limb.toNat ≤ i.quotient d + 1
  borrow : i.borrow = true ↔ i.last.limb.toNat = i.quotient d + 1
  digit : i.digit.toNat = i.quotient d
  /-- The window that is left is the remainder, and its top limb is zero. -/
  rest : i.rest.length = d.limbs.length + 1 ∧ i.rest.toNat + i.quotient d * d.limbs.toNat = i.window.limbs.toNat ∧
    i.rest.toNat < d.limbs.toNat ∧ i.rest.limbAt d.limbs.length = .ok 0

end Iteration

/-! ## One step -/

theorem le_div_add {e V Z c : ℕ} (hV : 0 < V) (h : e * V ≤ Z + c * V) : e ≤ Z / V + c := by
  rw [← Nat.add_mul_div_right Z c hV]
  exact (Nat.le_div_iff_mul_le hV).mpr h

theorem limbAt_of_toNat_lt {xs : Numeral w} {n : ℕ} (hlen : xs.length = n + 1) (hlt : xs.toNat < 2 ^ (w * n)) :
    xs.limbAt n = .ok 0 := by
  rcases List.eq_nil_or_concat' xs with rfl | ⟨lower, top, rfl⟩
  · cases hlen
  · rw [List.length_append, List.length_singleton] at hlen
    obtain rfl : lower.length = n := Nat.succ.inj hlen
    have htop : top = 0 := by
      by_contra hne
      exact absurd hlt (Nat.not_lt.mpr (Numeral.two_pow_le_toNat lower hne))
    rw [htop]
    exact Numeral.limbAt_append lower [0] 0

theorem Window.Fits.toNat_limbs_pos {x : Window w} (hx : x.Fits d) : 0 < d.limbs.toNat := by
  refine Nat.pos_of_ne_zero fun hzero => ?_
  have hbelow := hx.below
  rw [hzero, Nat.zero_mul] at hbelow
  exact Nat.not_lt_zero _ hbelow

variable {x : Window w} {trial : TrialLimb w}

theorem Exact.first_bounds (h : d.Exact) (hx : x.Fits d) (htrial : trial.Covers d x) :
    x.limbs.toNat / d.limbs.toNat ≤ trial.limb.toNat ∧ trial.limb.toNat ≤ x.limbs.toNat / d.limbs.toNat + 2 := by
  have hV := hx.toNat_limbs_pos
  refine ⟨Nat.lt_succ_iff.mp ((Nat.div_lt_iff_lt_mul hV).mpr htrial.covers), le_div_add hV ?_⟩
  exact htrial.mul_le_add_double h hx

theorem Exact.last_bounds (h : d.Exact) (hx : x.Fits d) (htrial : trial.Covers d x)
    (hdone : ¬ d.tooLarge x.third trial = true) :
    x.limbs.toNat / d.limbs.toNat ≤ trial.limb.toNat ∧ trial.limb.toNat ≤ x.limbs.toNat / d.limbs.toNat + 1 := by
  refine ⟨(h.first_bounds hx htrial).1, le_div_add hx.toNat_limbs_pos ?_⟩
  rw [Nat.one_mul]
  exact htrial.mul_le_of_not_tooLarge h hx hdone

/-- The subtraction borrows just when one multiple too many is taken away. -/
theorem Window.Fits.borrow_iff (hx : x.Fits d) {limb : Limb w} (hle : x.limbs.toNat / d.limbs.toNat ≤ limb.toNat)
    (hexcess : limb.toNat ≤ x.limbs.toNat / d.limbs.toNat + 1) :
    (Numeral.subBorrow x.limbs (Numeral.mulRow limb d.limbs) false).2 = true ↔
      limb.toNat = x.limbs.toNat / d.limbs.toNat + 1 := by
  rw [Numeral.subBorrow_borrow (length_window_eq hx.length_limbs), Numeral.toNat_mulRow, decide_eq_true_iff,
    ← Nat.div_lt_iff_lt_mul hx.toNat_limbs_pos]
  omega

/-- A step on a window that fits: the first trial limb is off by two at most, the lowerings leave an excess of one at
most, and that excess is what the borrow tells. -/
theorem Exact.exists_iteration (h : d.Exact) (hx : x.Fits d) :
    ∃ i : Iteration w, i.window = x ∧ i.Follows d ∧ i.WithinBounds d := by
  obtain ⟨trial, hestimate, htrial⟩ := h.estimate_covers hx
  obtain ⟨n, hlowered, hall, hcount⟩ := d.exists_lowerings x.third trial
  have hadjusted := htrial.adjust h hx
  have hdone := d.not_tooLarge_adjust x.third trial
  obtain ⟨last, hlast⟩ : ∃ last, d.adjust x.third trial = last := ⟨_, rfl⟩
  rw [hlast] at hlowered hcount hadjusted hdone
  have hfirst := h.first_bounds hx htrial
  have hexcess := h.last_bounds hx hadjusted hdone
  -- it starts two above the quotient at most and never falls below it
  have htwice : n ≤ 2 := by omega
  obtain ⟨digit, rest, hstep, hrestlen, hdigit, hrest⟩ := h.step hx
  have hlen := hrestlen.trans hx.length_limbs
  have hlt : rest.toNat < d.limbs.toNat := hrest ▸ Nat.mod_lt _ hx.toNat_limbs_pos
  have hsum : rest.toNat + x.limbs.toNat / d.limbs.toNat * d.limbs.toNat = x.limbs.toNat := by
    rw [hrest, Nat.mul_comm, Nat.mod_add_div]
  -- the remainder needs no more limbs than the divisor
  have hzero : rest.limbAt d.limbs.length = .ok 0 := limbAt_of_toNat_lt hlen (hlt.trans d.limbs.toNat_lt)
  exact ⟨⟨x, trial, n, last, _, digit, rest⟩, rfl,
    ⟨hestimate, hlast, ⟨hlowered, hall, Bool.eq_false_of_not_eq_true hdone⟩, rfl, hstep⟩,
    ⟨hx.length_limbs, hx.below⟩, ⟨(h.digitBounds hx).first_le, h.first_lt hx⟩, hfirst, htwice, hexcess,
    hx.borrow_iff hexcess.1 hexcess.2, hdigit, hlen, hsum, hlt, hzero⟩

/-! ## The steps of a run -/

/-- The window that the step for a place finds: the limb at the place, and above it what the steps above have left. -/
def windowAt (d : LongDivisor w) (high low : Numeral w) (place : ℕ) : Except Fault (Numeral w) := do
  let limb ← low.limbAt place
  let upper ← d.divide high (low.drop (place + 1))
  return limb :: upper.remainder

variable {high low : Numeral w}

theorem exists_of_divide_cons {limb : Limb w} {above : Numeral w} {division : QuotRem (Numeral w) (Numeral w)}
    (h : d.divide high (limb :: above) = .ok division) : ∃ upper digit rest, d.divide high above = .ok upper ∧
      d.step (limb :: upper.remainder) = .ok (digit, rest) ∧
      division = ⟨digit :: upper.quotient, rest.take d.limbs.length⟩ := by
  obtain ⟨upper, hupper, h⟩ := exists_of_bind_eq_ok h
  obtain ⟨⟨digit, rest⟩, hstep, h⟩ := exists_of_bind_eq_ok h
  exact ⟨upper, digit, rest, hupper, hstep, (Except.ok.inj h).symm⟩

/-- The steps above a place are a run of their own, and it gives the limbs of the quotient above that place. -/
theorem exists_divide_drop {division : QuotRem (Numeral w) (Numeral w)} (h : d.divide high low = .ok division)
    (place : ℕ) : ∃ rest, d.divide high (low.drop place) = .ok ⟨division.quotient.drop place, rest⟩ := by
  -- on the limbs from the lowest up, which the last step of the run takes
  induction low generalizing division place with
  | nil =>
    rw [List.drop_nil]
    cases h
    exact ⟨high, by rw [List.drop_nil]; rfl⟩
  | cons limb above ih =>
    cases place with
    | zero => exact ⟨division.remainder, h⟩
    | succ place =>
      obtain ⟨upper, digit, rest, hupper, -, rfl⟩ := exists_of_divide_cons h
      exact ih hupper place

/-- Every step of a run finds a window that fits, and gives the limb of the quotient at its place. -/
theorem Exact.exists_iteration_at (h : d.Exact) (hlen : high.length = d.limbs.length)
    (hlt : high.toNat < d.limbs.toNat) {q r : Numeral w} (hdivide : d.divide high low = .ok ⟨q, r⟩) {place : ℕ}
    (hplace : place < low.length) : ∃ i : Iteration w, d.windowAt high low place = .ok i.window.limbs ∧
      i.Follows d ∧ i.WithinBounds d ∧ q[place]? = some i.digit := by
  have hdrop := List.drop_eq_getElem_cons hplace
  obtain ⟨rest, hrun⟩ := exists_divide_drop hdivide place
  rw [hdrop] at hrun
  obtain ⟨upper, digit, left, hupper, hstep, heq⟩ := exists_of_divide_cons hrun
  obtain ⟨q', r', hupper', -, hrlen, -, hr⟩ := h.divide hlen hlt (low.drop (place + 1))
  rw [hupper] at hupper'
  cases hupper'
  -- what the steps above leave is below the divisor
  have hrlt : r'.toNat < d.limbs.toNat := hr ▸ Nat.mod_lt _ (Nat.zero_lt_of_lt hlt)
  obtain ⟨x, hx, hfits⟩ := exists_window_cons h hrlen hrlt low[place]
  obtain ⟨i, rfl, hfollows, hbounds⟩ := h.exists_iteration hfits
  refine ⟨i, ?_, hfollows, hbounds, ?_⟩
  · unfold windowAt Numeral.limbAt
    rw [List.getElem?_eq_getElem hplace, hupper, ← hx]
    rfl
  · -- both steps are taken on one window, so that they give one limb
    have hsame := hfollows.step
    rw [← hx, hstep] at hsame
    have hdigit : digit = i.digit := congrArg Prod.fst (Except.ok.inj hsame)
    have hquotient := congrArg QuotRem.quotient heq
    rw [← List.head?_drop, show q.drop place = digit :: q' from hquotient, hdigit]
    rfl

end LongDivisor

namespace Numeral

variable {w : ℕ}

theorem exists_trim_eq_append_pair {xs : Numeral w} (h : 2 ≤ xs.trim.length) :
    ∃ (lower : Numeral w) (next top : Limb w), xs.trim = lower ++ [next, top] ∧ top ≠ 0 := by
  have hne : xs.trim ≠ [] := List.ne_nil_of_length_pos (Nat.zero_lt_of_lt h)
  obtain ⟨front, top, htrim, htop⟩ := exists_trim_eq_concat hne
  rcases List.eq_nil_or_concat' front with rfl | ⟨lower, next, rfl⟩
  · rw [htrim, List.nil_append, List.length_singleton] at h
    omega
  · rw [List.append_assoc, List.singleton_append] at htrim
    exact ⟨lower, next, top, htrim, htop⟩

/-- **No step of a long division lowers its limb more than twice, or adds back more than once.**  Trimmed numerals, the
divisor of two limbs or more and no longer than the dividend, are divided in steps, one for each limb of the quotient.
Every step finds a window whose quotient is one limb, so that dividing its two top limbs answers.  The first trial limb
is that quotient or at most two more, it is lowered at most twice, and the last one is the quotient or one more.  The
subtraction borrows just when it is one more.  The step gives the quotient, and leaves the remainder below a zero limb. -/
theorem divide_steps_within_bounds {dividend divisor : Numeral w} (hdividend : dividend.trim = dividend)
    (hdivisor : divisor.trim = divisor) (htwo : 2 ≤ divisor.length) (hlen : divisor.length ≤ dividend.length) :
    ∃ (d : LongDivisor w) (high low q r : Numeral w), d.Normalizes dividend divisor high low ∧
      d.divide high low = .ok ⟨q, r⟩ ∧ divide dividend divisor = .ok ⟨q, shiftRight d.shift 0 r⟩ ∧
      q.length = low.length ∧ low.length = dividend.length - divisor.length + 1 ∧
      ∀ place < low.length, ∃ i : LongDivisor.Iteration w, d.windowAt high low place = .ok i.window.limbs ∧
        i.Follows d ∧ i.WithinBounds d ∧ q[place]? = some i.digit := by
  obtain ⟨lower, next, top, htrim, htop⟩ := exists_trim_eq_append_pair (hdivisor.symm ▸ htwo)
  obtain rfl : divisor = lower ++ [next, top] := hdivisor.symm.trans htrim
  have hlong : lower.length + 2 ≤ dividend.length := by
    rw [List.length_append] at hlen
    exact hlen
  obtain ⟨d, high, low, h⟩ := exists_normalizes next htop hlong
  obtain ⟨q, r, hdivide, hqlen, -⟩ := h.exact.divide h.length_high h.below low
  have hwhole : divide dividend (lower ++ [next, top]) = .ok ⟨q, shiftRight d.shift 0 r⟩ := by
    rw [divide_eq_divideLong htrim (hdividend.symm ▸ hlong), hdividend]
    exact divideLong_of_normalizes h hdivide
  have hcount := h.length_low
  exact ⟨d, high, low, q, r, h, hdivide, hwhole, hqlen, by omega,
    fun place hplace => h.exact.exists_iteration_at h.length_high h.below hdivide hplace⟩

/-- Three steps: in the first the subtraction borrows, in the second the first limbs are equal, and in the third the
limb is lowered twice. -/
theorem divide_steps_within_bounds_three_limbs :
    let dividend : Numeral 8 := [0, 255, 127, 255, 128]
    let divisor : Numeral 8 := [255, 127, 1]
    dividend.trim = dividend ∧ divisor.trim = divisor ∧ 2 ≤ divisor.length ∧ divisor.length ≤ dividend.length ∧
      ∃ (d : LongDivisor 8) (high low q r : Numeral 8), d.Normalizes dividend divisor high low ∧
        d.divide high low = .ok ⟨q, r⟩ ∧ divide dividend divisor = .ok ⟨q, shiftRight d.shift 0 r⟩ ∧
        q.length = low.length ∧ low.length = 3 ∧
        ∀ place < low.length, ∃ i : LongDivisor.Iteration 8, d.windowAt high low place = .ok i.window.limbs ∧
          i.Follows d ∧ i.WithinBounds d ∧ q[place]? = some i.digit := by
  intro dividend divisor
  have hdividend : dividend.trim = dividend := by decide
  have hdivisor : divisor.trim = divisor := by decide
  exact ⟨hdividend, hdivisor, by decide, by decide,
    divide_steps_within_bounds hdividend hdivisor (by decide) (by decide)⟩

end Numeral

end TwosComplement
