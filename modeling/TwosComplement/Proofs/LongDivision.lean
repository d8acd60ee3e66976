import TwosComplement.Proofs.LimbShift
import TwosComplement.Proofs.TrialLimb

/-!
# Proofs/LongDivision — numerals of any length divide exactly

One step takes the largest multiple of the divisor away from a window, and the remainder below the divisor is the
start of the next window. The shift that normalizes the divisor is shifted out of the last remainder.

* `LongDivisor.subtract_of_le`, `LongDivisor.subtract_of_lt`: a limb that is right stays, one that is one too large is
  put right.
* `LongDivisor.Exact.step`, `LongDivisor.Exact.divide`: one step, and by induction all steps.
* `LongDivisor.ofNumeral_exact`: every divisor of two limbs or more can be shifted.
* `LongDivisor.Normalizes`: what the steps start from; `Numeral.exists_normalizes`.
* `Numeral.divide_of_pos`: the three ways together; `Numeral.divide_exact`.
-/

namespace TwosComplement

namespace LongDivisor

variable {w : ℕ} {d : LongDivisor w}

/-! ## One step -/

section Subtract

variable {limb : Limb w} {window : Numeral w}

theorem length_window_eq (hlen : window.length = d.limbs.length + 1) :
    window.length = (Numeral.mulRow limb d.limbs).length := by
  rw [hlen, Numeral.length_mulRow]

theorem subtract_of_le (hlen : window.length = d.limbs.length + 1)
    (hle : limb.toNat * d.limbs.toNat ≤ window.toNat) :
    ∃ rest, d.subtract limb window = (limb, rest) ∧ rest.length = window.length ∧
      rest.toNat = window.toNat - limb.toNat * d.limbs.toNat := by
  have hrow : window.length = (Numeral.mulRow limb d.limbs).length := length_window_eq hlen
  rw [← Numeral.toNat_mulRow] at hle ⊢
  refine ⟨(Numeral.subBorrow window (Numeral.mulRow limb d.limbs) false).1, ?_, Numeral.length_subBorrow hrow false,
    Numeral.toNat_subBorrow_of_le hrow hle⟩
  unfold subtract
  simp only [Numeral.subBorrow_borrow hrow, decide_eq_false (Nat.not_lt.mpr hle)]
  rfl

/-- One multiple too many is added back. -/
theorem subtract_of_lt (hlen : window.length = d.limbs.length + 1)
    (hlt : window.toNat < limb.toNat * d.limbs.toNat)
    (hle : limb.toNat * d.limbs.toNat ≤ window.toNat + d.limbs.toNat) :
    ∃ rest, d.subtract limb window = (limb - 1, rest) ∧ rest.length = window.length ∧
      rest.toNat = window.toNat + d.limbs.toNat - limb.toNat * d.limbs.toNat := by
  have hrow : window.length = (Numeral.mulRow limb d.limbs).length := length_window_eq hlen
  rw [← Numeral.toNat_mulRow] at hlt hle ⊢
  have hrest := Numeral.toNat_subBorrow_of_lt hrow hlt
  have hrestlen := Numeral.length_subBorrow hrow false
  set rest := (Numeral.subBorrow window (Numeral.mulRow limb d.limbs) false).1
  have hback : rest.length = (d.limbs ++ [0]).length := by
    rw [hrestlen, hlen, List.length_append, List.length_singleton]
  have hdivisor : Numeral.toNat (d.limbs ++ [0]) = d.limbs.toNat := by simp [Numeral.toNat_concat]
  -- the borrow is one power of the base too much, and the carry that is dropped takes it back
  have hsum := Numeral.toNat_addCarry hback false
  have hfits := Numeral.toNat_lt (d.limbs ++ [0])
  rw [hdivisor, ← hback, hrestlen] at hfits
  refine ⟨(Numeral.addCarry rest (d.limbs ++ [0]) false).1, ?_, (Numeral.length_addCarry hback false).trans hrestlen,
    ?_⟩
  · unfold subtract
    simp only [Numeral.subBorrow_borrow hrow, decide_eq_true hlt]
    rfl
  · rw [hsum, hdivisor, hrest, hrestlen, Bool.toNat_false, Nat.add_zero,
      show window.toNat + 2 ^ (w * window.length) - Numeral.toNat (Numeral.mulRow limb d.limbs) + d.limbs.toNat =
        window.toNat + d.limbs.toNat - Numeral.toNat (Numeral.mulRow limb d.limbs) + 2 ^ (w * window.length) by omega,
      Nat.add_mod_right, Nat.mod_eq_of_lt (by omega)]

/-- A limb that is not too small and at most one too large leaves quotient and remainder. -/
theorem subtract_exact (hlen : window.length = d.limbs.length + 1)
    (hcovers : window.toNat < (limb.toNat + 1) * d.limbs.toNat)
    (hle : limb.toNat * d.limbs.toNat ≤ window.toNat + d.limbs.toNat) :
    ∃ digit rest, d.subtract limb window = (digit, rest) ∧ rest.length = window.length ∧
      digit.toNat = window.toNat / d.limbs.toNat ∧ rest.toNat = window.toNat % d.limbs.toNat := by
  have hpos : 0 < d.limbs.toNat := by
    refine Nat.pos_of_ne_zero fun hzero => ?_
    rw [hzero, Nat.mul_zero] at hcovers
    exact Nat.not_lt_zero _ hcovers
  rw [Nat.add_mul, Nat.one_mul] at hcovers
  rcases Nat.lt_or_ge window.toNat (limb.toNat * d.limbs.toNat) with hlt | hge
  · obtain ⟨rest, hsubtract, hrestlen, hrest⟩ := subtract_of_lt hlen hlt hle
    obtain ⟨e, he⟩ : ∃ e, limb.toNat = e + 1 := by
      refine ⟨limb.toNat - 1, (Nat.sub_add_cancel (Nat.pos_of_ne_zero fun hzero => ?_)).symm⟩
      rw [hzero, Nat.zero_mul] at hlt
      exact Nat.not_lt_zero _ hlt
    have hdigit : (limb - 1).toNat = e := by rw [Limb.toNat_sub_one (by omega), he, Nat.add_sub_cancel]
    rw [he, Nat.add_mul, Nat.one_mul] at hlt hle hrest
    obtain ⟨hdiv, hmod⟩ := (Nat.div_mod_unique hpos).mpr
      (show rest.toNat + d.limbs.toNat * e = window.toNat ∧ rest.toNat < d.limbs.toNat by
        rw [Nat.mul_comm]
        omega)
    exact ⟨limb - 1, rest, hsubtract, hrestlen, hdigit.trans hdiv.symm, hmod.symm⟩
  · obtain ⟨rest, hsubtract, hrestlen, hrest⟩ := subtract_of_le hlen hge
    obtain ⟨hdiv, hmod⟩ := (Nat.div_mod_unique hpos).mpr
      (show rest.toNat + d.limbs.toNat * limb.toNat = window.toNat ∧ rest.toNat < d.limbs.toNat by
        rw [Nat.mul_comm]
        omega)
    exact ⟨limb, rest, hsubtract, hrestlen, hdiv.symm, hmod.symm⟩

end Subtract

theorem Exact.step (h : d.Exact) {x : Window w} (hx : x.Fits d) :
    ∃ digit rest, d.step x.limbs = .ok (digit, rest) ∧ rest.length = x.limbs.length ∧
      digit.toNat = x.limbs.toNat / d.limbs.toNat ∧ rest.toNat = x.limbs.toNat % d.limbs.toNat := by
  obtain ⟨trial, hestimate, htrial⟩ := h.estimate_covers hx
  obtain ⟨-, -, hthird⟩ := hx.limbAt
  have hadjusted := htrial.adjust h hx
  have hle := hadjusted.mul_le_of_not_tooLarge h hx (d.not_tooLarge_adjust x.third trial)
  obtain ⟨digit, rest, hsubtract, hresult⟩ := subtract_exact hx.length_limbs hadjusted.covers hle
  refine ⟨digit, rest, ?_, hresult⟩
  unfold LongDivisor.step
  rw [hestimate, hthird]
  exact congrArg Except.ok hsubtract

/-! ## All steps -/

theorem exists_window_cons (h : d.Exact) {rest : Numeral w} (hlen : rest.length = d.limbs.length)
    (hlt : rest.toNat < d.limbs.toNat) (limb : Limb w) :
    ∃ x : Window w, limb :: rest = x.limbs ∧ x.Fits d := by
  obtain ⟨lower, hlimbs⟩ := h.limbs
  have hn : d.limbs.length = lower.length + 2 := by
    rw [hlimbs, List.length_append]
    rfl
  have hcount : (limb :: rest).length = lower.length + 3 := by rw [List.length_cons, hlen, hn]
  obtain ⟨x, hx, hlower⟩ := exists_window hcount
  refine ⟨x, hx, by rw [hn, hlower], ?_⟩
  rw [← hx, Numeral.toNat_cons, Nat.mul_comm d.limbs.toNat]
  exact limb.toNat_add_mul_lt hlt

/-- All steps, from the top limb down. -/
theorem Exact.divide (h : d.Exact) {high : Numeral w} (hlen : high.length = d.limbs.length)
    (hlt : high.toNat < d.limbs.toNat) (low : Numeral w) :
    ∃ q r : Numeral w, d.divide high low = .ok ⟨q, r⟩ ∧ q.length = low.length ∧ r.length = d.limbs.length ∧
      q.toNat = Numeral.toNat (low ++ high) / d.limbs.toNat ∧
      r.toNat = Numeral.toNat (low ++ high) % d.limbs.toNat := by
  have hpos : 0 < d.limbs.toNat := Nat.zero_lt_of_lt hlt
  -- each remainder is below the divisor, and starts the next window
  induction low with
  | nil => exact ⟨[], high, rfl, rfl, hlen, (Nat.div_eq_of_lt hlt).symm, (Nat.mod_eq_of_lt hlt).symm⟩
  | cons limb above ih =>
    obtain ⟨q, r, hupper, hqlen, hrlen, hq, hr⟩ := ih
    have hrlt : r.toNat < d.limbs.toNat := by
      rw [hr]
      exact Nat.mod_lt _ hpos
    obtain ⟨x, hx, hfits⟩ := exists_window_cons h hrlen hrlt limb
    obtain ⟨digit, rest, hstep, hrestlen, hdigit, hrest⟩ := h.step hfits
    rw [← hx] at hstep hrestlen hdigit hrest
    -- the next remainder is below the divisor, so that the limb that is dropped is zero
    have hrestlt : rest.toNat < 2 ^ (w * d.limbs.length) := by
      rw [hrest]
      exact lt_of_lt_of_le (Nat.mod_lt _ hpos) d.limbs.toNat_lt.le
    have hlength : d.limbs.length ≤ rest.length := by
      rw [hrestlen, List.length_cons, hrlen]
      exact Nat.le_succ _
    obtain ⟨hquotient, hremainder⟩ := Numeral.toNat_cons_divMod limb (above ++ high) hpos
    rw [← hr] at hquotient hremainder
    refine ⟨digit :: q, rest.take d.limbs.length, ?_, congrArg (· + 1) hqlen, ?_, ?_, ?_⟩
    · unfold LongDivisor.divide
      rw [hupper]
      show (d.step (limb :: r)).bind _ = _
      rw [hstep]
      rfl
    · rw [List.length_take, Nat.min_eq_left hlength]
    · rw [List.cons_append, hquotient, Numeral.toNat_cons, hdigit, hq, Numeral.toNat_cons]
    · rw [List.cons_append, hremainder, Numeral.toNat_take_of_lt hlength hrestlt, hrest, Numeral.toNat_cons]

/-! ## The shifted divisor -/

theorem exists_shiftLeft_append (k : ℕ) (lower : Numeral w) (next top : Limb w) :
    ∃ (shifted : Numeral w) (next' : Limb w), Numeral.shiftLeft k 0 (lower ++ [next, top]) =
      shifted ++ [next', top <<< k ||| next >>> (w - k)] ∧ shifted.length = lower.length := by
  generalize (0 : Limb w) = below
  induction lower generalizing below with
  | nil =>
    refine ⟨[], next <<< k ||| below >>> (w - k), ?_, rfl⟩
    rw [List.nil_append, Numeral.shiftLeft_cons, Numeral.shiftLeft_cons]
    rfl
  | cons x xs ih =>
    obtain ⟨shifted, next', hshifted, hlen⟩ := ih x
    refine ⟨(x <<< k ||| below >>> (w - k)) :: shifted, next', ?_, congrArg (· + 1) hlen⟩
    rw [List.cons_append, Numeral.shiftLeft_cons, hshifted]
    rfl

theorem limbAt_top (lower : Numeral w) (next top : Limb w) {n : ℕ} (hn : n = lower.length + 2) :
    (lower ++ [next, top]).limbAt (n - 1) = .ok top ∧ (lower ++ [next, top]).limbAt (n - 2) = .ok next := by
  rw [hn]
  exact ⟨Numeral.limbAt_append lower [next, top] 1, Numeral.limbAt_append lower [next, top] 0⟩

/-- With what spills out of the limb below, the top limb has its top bit set. -/
theorem two_pow_le_shiftLeft_or {top : Limb w} (htop : top ≠ 0) (next : Limb w) :
    2 ^ w ≤ 2 * (top <<< top.leadingRun false ||| next >>> (w - top.leadingRun false)).toNat := by
  have hpos : 0 < top.toNat := Nonzero.toNat_pos ⟨top, htop⟩
  obtain ⟨hnormalize, hnormalized⟩ := Limb.normalize hpos
  rw [Limb.toNat_shiftLeft_or (Limb.leadingRun_lt hpos).le, hnormalize]
  omega

theorem toNat_shiftLeft_leadingRun (lower : Numeral w) {top : Limb w} (htop : top ≠ 0) :
    Numeral.toNat (Numeral.shiftLeft (top.leadingRun false) 0 (lower ++ [top])) =
      Numeral.toNat (lower ++ [top]) * 2 ^ top.leadingRun false := by
  have hpos : 0 < top.toNat := Nonzero.toNat_pos ⟨top, htop⟩
  have hle := (Limb.leadingRun_lt hpos).le
  have hroom : top.toNat * 2 ^ top.leadingRun false < 2 ^ w := by
    rw [← (Limb.normalize hpos).1]
    exact BitVec.isLt _
  have hshift := Numeral.shiftLeft_recompose hle 0 (lower ++ [top])
  rwa [List.getLastD_concat, Limb.spill_eq_zero hle hroom, Limb.spill_zero, Nat.mul_zero, Nat.add_zero,
    Nat.add_zero] at hshift

/-- Every numeral of two limbs or more with a nonzero limb at the top becomes a divisor, shifted up without a loss. -/
theorem ofNumeral_exact (lower : Numeral w) (next : Limb w) {top : Limb w} (htop : top ≠ 0) :
    ∃ d, ofNumeral (lower ++ [next, top]) = .ok d ∧ d.Exact ∧ d.shift < w ∧ d.limbs.length = lower.length + 2 ∧
      d.limbs.toNat = Numeral.toNat (lower ++ [next, top]) * 2 ^ d.shift := by
  have hrun := Limb.leadingRun_lt (Nonzero.toNat_pos ⟨top, htop⟩)
  have hnormalized := two_pow_le_shiftLeft_or htop next
  have hvalue := toNat_shiftLeft_leadingRun (lower ++ [next]) htop
  rw [List.append_assoc, List.singleton_append] at hvalue
  obtain ⟨k, hk⟩ : ∃ k, top.leadingRun false = k := ⟨_, rfl⟩
  rw [hk] at hrun hnormalized hvalue
  obtain ⟨shifted, next', hshifted, hlen⟩ := exists_shiftLeft_append k lower next top
  obtain ⟨top', htop'⟩ : ∃ top', top <<< k ||| next >>> (w - k) = top' := ⟨_, rfl⟩
  rw [htop'] at hshifted hnormalized
  have hnonzero : top' ≠ 0 := fun hzero => by
    rw [hzero, show (0 : Limb w).toNat = 0 from BitVec.toNat_zero] at hnormalized
    exact Nat.not_le_of_lt (Nat.two_pow_pos w) hnormalized
  obtain ⟨r, hr, hdivisor, hexact⟩ := LimbReciprocal.ofDivisor_exact ⟨top', hnonzero⟩
  have hlength : (lower ++ [next, top]).length = lower.length + 2 := List.length_append
  -- the three limbs that are read: the top one before the shift, the two top ones after it
  obtain ⟨hread, -⟩ := limbAt_top lower next top hlength
  obtain ⟨hreadTop, hreadNext⟩ := limbAt_top shifted next' top' (hlen ▸ hlength)
  rw [← hshifted] at hreadTop hreadNext
  refine ⟨⟨Numeral.shiftLeft k 0 (lower ++ [next, top]), k, top', next', r⟩, ?_,
    ⟨⟨shifted, hshifted⟩, hnormalized, hdivisor, hexact⟩, hrun, ?_, hvalue⟩
  · simp only [ofNumeral, hread, hk, hreadTop, hreadNext, Nonzero.ofValue_of_ne_zero hnonzero, hr, bind, Except.bind]
    rfl
  · exact (Numeral.length_shiftLeft _ _ _).trans hlength

/-- Dividing `dividend` by `divisor` becomes dividing the shifted dividend by `d`. The shifted dividend has `high` at the
top, as many limbs as the divisor and below it, so that every limb of `low` gives one limb of the quotient. -/
structure Normalizes (d : LongDivisor w) (dividend divisor high low : Numeral w) : Prop where
  prepared : ofNumeral divisor = .ok d
  exact : d.Exact
  shift_lt : d.shift < w
  length : d.limbs.length = divisor.length
  toNat_limbs : d.limbs.toNat = divisor.toNat * 2 ^ d.shift
  append : low ++ high = Numeral.shiftLeft d.shift 0 (dividend ++ [0])
  length_high : high.length = d.limbs.length
  below : high.toNat < d.limbs.toNat

theorem Normalizes.length_low {dividend divisor high low : Numeral w} (h : d.Normalizes dividend divisor high low) :
    low.length = dividend.length + 1 - divisor.length := by
  have htotal := congrArg List.length h.append
  rw [List.length_append, Numeral.length_shiftLeft, List.length_append, List.length_singleton, h.length_high, h.length]
    at htotal
  omega

end LongDivisor

namespace Numeral

variable {w : ℕ}

/-! ## Numerals -/

theorem two_pow_le_toNat (lower : Numeral w) {top : Limb w} (htop : top ≠ 0) :
    2 ^ (w * lower.length) ≤ toNat (lower ++ [top]) := by
  have hpos : 0 < top.toNat := Nonzero.toNat_pos ⟨top, htop⟩
  rw [toNat_concat]
  exact (Nat.le_mul_of_pos_right _ hpos).trans (Nat.le_add_left _ _)

/-- The top limbs of a shifted dividend, as many as the divisor has, are below the shifted divisor. -/
theorem drop_shiftLeft_lt {dividend lower : Numeral w} (next : Limb w) {top : Limb w} {k places : ℕ} (hk : k ≤ w)
    (htop : top ≠ 0) (hlen : dividend.length = places + lower.length + 1) :
    toNat ((shiftLeft k 0 (dividend ++ [0])).drop places) < toNat (lower ++ [next, top]) * 2 ^ k := by
  have hshifted : (shiftLeft k 0 (dividend ++ [0])).length = dividend.length + 1 := by
    rw [length_shiftLeft, List.length_append, List.length_singleton]
  have hplaces : places ≤ (shiftLeft k 0 (dividend ++ [0])).length := by omega
  have hsplit := toNat_take_add_drop hplaces
  have hdivisor := two_pow_le_toNat (lower ++ [next]) htop
  rw [List.append_assoc, List.singleton_append, List.length_append, List.length_singleton] at hdivisor
  rw [toNat_shiftLeft_concat_zero hk] at hsplit
  -- moved up to their places, the top limbs are no more than the whole dividend
  have hlt : 2 ^ (w * places) * toNat ((shiftLeft k 0 (dividend ++ [0])).drop places) <
      2 ^ (w * places) * (2 ^ (w * (lower.length + 1)) * 2 ^ k) :=
    calc 2 ^ (w * places) * toNat ((shiftLeft k 0 (dividend ++ [0])).drop places)
        ≤ dividend.toNat * 2 ^ k := by rw [← hsplit]; exact Nat.le_add_left _ _
      _ < 2 ^ (w * dividend.length) * 2 ^ k := Nat.mul_lt_mul_of_pos_right dividend.toNat_lt (Nat.two_pow_pos k)
      _ = 2 ^ (w * places) * (2 ^ (w * (lower.length + 1)) * 2 ^ k) := by
        rw [hlen, Nat.add_assoc, Nat.mul_add, Nat.pow_add, Nat.mul_assoc]
  exact (Nat.lt_of_mul_lt_mul_left hlt).trans_le (Nat.mul_le_mul_right _ hdivisor)

/-- A dividend that is no shorter than the divisor is shifted with it, and its top limbs are below the shifted divisor. -/
theorem exists_normalizes {dividend lower : Numeral w} (next : Limb w) {top : Limb w} (htop : top ≠ 0)
    (hlen : lower.length + 2 ≤ dividend.length) :
    ∃ d high low, LongDivisor.Normalizes d dividend (lower ++ [next, top]) high low := by
  obtain ⟨d, hd, hexact, hshift, hlimbs, hvalue⟩ := LongDivisor.ofNumeral_exact lower next htop
  obtain ⟨places, hplaces⟩ : ∃ places, dividend.length = places + lower.length + 1 :=
    ⟨dividend.length - (lower.length + 1), by omega⟩
  have hshifted : (shiftLeft d.shift 0 (dividend ++ [0])).length = dividend.length + 1 := by
    rw [length_shiftLeft, List.length_append, List.length_singleton]
  have hhigh := drop_shiftLeft_lt next hshift.le htop hplaces
  rw [← hvalue] at hhigh
  refine ⟨d, (shiftLeft d.shift 0 (dividend ++ [0])).drop places, (shiftLeft d.shift 0 (dividend ++ [0])).take places,
    hd, hexact, hshift, ?_, hvalue, List.take_append_drop _ _, ?_, hhigh⟩
  · rw [hlimbs, List.length_append]
    rfl
  · rw [List.length_drop, hlimbs]
    omega

theorem divideLong_of_normalizes {d : LongDivisor w} {dividend divisor high low q r : Numeral w}
    (h : d.Normalizes dividend divisor high low) (hdivide : d.divide high low = .ok ⟨q, r⟩) :
    divideLong dividend divisor = .ok ⟨q, shiftRight d.shift 0 r⟩ := by
  have hlow := h.length_low
  unfold divideLong
  rw [h.prepared]
  show (d.divide ((shiftLeft d.shift 0 (dividend ++ [0])).drop (dividend.length + 1 - divisor.length))
    ((shiftLeft d.shift 0 (dividend ++ [0])).take (dividend.length + 1 - divisor.length))).bind _ = _
  rw [← h.append, List.drop_left' hlow, List.take_left' hlow, hdivide]
  rfl

theorem divideLong_exact {dividend lower : Numeral w} {next top : Limb w} (htop : top ≠ 0)
    (hlen : lower.length + 2 ≤ dividend.length) :
    ∃ q r : Numeral w, divideLong dividend (lower ++ [next, top]) = .ok ⟨q, r⟩ ∧
      q.toNat = dividend.toNat / toNat (lower ++ [next, top]) ∧
      r.toNat = dividend.toNat % toNat (lower ++ [next, top]) := by
  obtain ⟨d, high, low, h⟩ := exists_normalizes next htop hlen
  obtain ⟨q, r, hdivide, -, -, hq, hr⟩ := h.exact.divide h.length_high h.below low
  rw [h.append, toNat_shiftLeft_concat_zero h.shift_lt.le, h.toNat_limbs] at hq hr
  refine ⟨q, shiftRight d.shift 0 r, divideLong_of_normalizes h hdivide, ?_, ?_⟩
  · rw [hq, Nat.mul_div_mul_right _ _ (Nat.two_pow_pos _)]
  · rw [toNat_shiftRight_zero h.shift_lt.le, hr, Nat.mul_mod_mul_right, Nat.mul_div_cancel _ (Nat.two_pow_pos _)]

theorem divideByLimb_exact (dividend : Numeral w) (d : Nonzero (Limb w)) :
    ∃ q r : Numeral w, divideByLimb dividend d.val = .ok ⟨q, r⟩ ∧ q.toNat = dividend.toNat / d.val.toNat ∧
      r.toNat = dividend.toNat % d.val.toNat := by
  obtain ⟨r, hr, hd, hexact⟩ := LimbReciprocal.ofDivisor_exact d
  obtain ⟨q, rem, hdiv, -, hq, hrem⟩ := hexact.divideAll dividend
  rw [hd] at hq hrem
  refine ⟨q, [rem], ?_, hq, ?_⟩
  · unfold divideByLimb
    rw [Nonzero.ofValue_val]
    show (LimbReciprocal.ofDivisor d).bind _ = _
    rw [hr]
    show (r.divideAll dividend).bind _ = _
    rw [hdiv]
    rfl
  · rw [← hrem, toNat_cons, toNat_nil, Nat.mul_zero, Nat.add_zero]

theorem trim_eq_nil_iff {xs : Numeral w} : xs.trim = [] ↔ ∀ x ∈ xs, x = 0 := dropTop_eq_nil_iff

theorem toNat_pos_iff {xs : Numeral w} : 0 < xs.toNat ↔ ∃ x ∈ xs, x ≠ 0 := by
  rw [← toNat_trim]
  by_cases h : xs.trim = []
  · have hzero := trim_eq_nil_iff.mp h
    rw [h, toNat_nil]
    exact ⟨fun hlt => absurd hlt (lt_irrefl 0), fun ⟨x, hx, hne⟩ => absurd (hzero x hx) hne⟩
  · obtain ⟨ys, top, htrim, htop⟩ := exists_trim_eq_concat h
    have hpos : 0 < xs.trim.toNat := by
      rw [htrim]
      exact lt_of_lt_of_le (Nat.two_pow_pos _) (two_pow_le_toNat ys htop)
    rw [trim_eq_nil_iff] at h
    exact ⟨fun _ => by simpa using h, fun _ => hpos⟩

/-- A dividend with fewer limbs than the divisor is the remainder. -/
theorem divide_of_length_lt {dividend divisor lower : Numeral w} {top : Limb w} (htop : top ≠ 0)
    (hdivisor : divisor.trim = lower ++ [top]) (hlen : dividend.trim.length < lower.length + 1) :
    divide dividend divisor = .ok ⟨[], dividend.trim⟩ ∧ dividend.trim.toNat < toNat (lower ++ [top]) := by
  have hne : lower ++ [top] ≠ [] := List.append_ne_nil_of_right_ne_nil lower (List.cons_ne_nil top [])
  have hshort : dividend.trim.length < (lower ++ [top]).length := by
    rw [List.length_append, List.length_singleton]
    exact hlen
  constructor
  · unfold divide
    simp only [hdivisor, if_neg hne, if_pos hshort]
  · refine lt_of_lt_of_le dividend.trim.toNat_lt (le_trans ?_ (two_pow_le_toNat lower htop))
    exact Nat.pow_le_pow_right (by decide) (Nat.mul_le_mul_left w (Nat.le_of_lt_succ hlen))

/-- A divisor of one limb goes through its reciprocal. -/
theorem divide_eq_divideByLimb {dividend divisor : Numeral w} {limb : Limb w} (hdivisor : divisor.trim = [limb])
    (hlen : 1 ≤ dividend.trim.length) : divide dividend divisor = divideByLimb dividend.trim limb := by
  have hlong : ¬ dividend.trim.length < [limb].length := Nat.not_lt.mpr hlen
  unfold divide
  simp only [hdivisor, if_neg hlong, if_neg (List.cons_ne_nil limb [])]

/-- A divisor of two limbs or more that is not too long for the dividend goes through all steps. -/
theorem divide_eq_divideLong {dividend divisor lower : Numeral w} {next top : Limb w}
    (hdivisor : divisor.trim = lower ++ [next, top]) (hlen : lower.length + 2 ≤ dividend.trim.length) :
    divide dividend divisor = divideLong dividend.trim (lower ++ [next, top]) := by
  have hne : lower ++ [next, top] ≠ [] := List.append_ne_nil_of_right_ne_nil lower (List.cons_ne_nil next [top])
  have hlong : ¬ dividend.trim.length < (lower ++ [next, top]).length := by
    rw [List.length_append]
    exact Nat.not_lt.mpr hlen
  unfold divide
  simp only [hdivisor, if_neg hne, if_neg hlong]
  split
  · rename_i limb hone
    have hlength := congrArg List.length hone
    rw [List.length_append] at hlength
    simp at hlength
  · rfl

/-- Any numeral by any other that is not zero: too short a dividend is the remainder, and otherwise the number of limbs
that are left of the divisor decides between the two ways. -/
theorem divide_of_pos (dividend : Numeral w) {divisor : Numeral w} (h : 0 < divisor.toNat) :
    ∃ q r : Numeral w, divide dividend divisor = .ok ⟨q, r⟩ ∧ q.toNat = dividend.toNat / divisor.toNat ∧
      r.toNat = dividend.toNat % divisor.toNat := by
  rw [← toNat_trim divisor] at h ⊢
  rw [← toNat_trim dividend]
  have htrim : divisor.trim ≠ [] := fun hnil => by
    rw [hnil] at h
    exact lt_irrefl 0 h
  obtain ⟨lower, top, hdivisor, htop⟩ := exists_trim_eq_concat htrim
  rw [hdivisor]
  rcases Nat.lt_or_ge dividend.trim.length (lower.length + 1) with hshort | hlong
  · obtain ⟨hdivide, hlt⟩ := divide_of_length_lt htop hdivisor hshort
    exact ⟨[], dividend.trim, hdivide, (Nat.div_eq_of_lt hlt).symm, (Nat.mod_eq_of_lt hlt).symm⟩
  rcases List.eq_nil_or_concat' lower with rfl | ⟨lower, next, rfl⟩
  · have hlimb : toNat [top] = top.toNat := by simp
    rw [divide_eq_divideByLimb hdivisor hlong, List.nil_append, hlimb]
    exact divideByLimb_exact dividend.trim ⟨top, htop⟩
  · rw [List.length_append, List.length_singleton] at hlong
    rw [List.append_assoc, List.singleton_append] at hdivisor ⊢
    rw [divide_eq_divideLong hdivisor hlong]
    exact divideLong_exact htop hlong

/-- **Long division is exact.**  By a divisor with a nonzero limb, in any place, every dividend of any length is divided
without a fault: no step reads past a limb that is there, and no division of two limbs by one is out of range.  The
quotient times the divisor and the remainder are the dividend, and the remainder is below the divisor.  A divisor whose
limbs are all zero, or that has none, is refused, whatever the dividend. -/
theorem divide_exact (dividend divisor : Numeral w) :
    ((∃ limb ∈ divisor, limb ≠ 0) → ∃ q r : Numeral w, divide dividend divisor = .ok ⟨q, r⟩ ∧
      dividend.toNat = q.toNat * divisor.toNat + r.toNat ∧ r.toNat < divisor.toNat) ∧
    ((∀ limb ∈ divisor, limb = 0) → divide dividend divisor = .error .divisionByZero) := by
  constructor
  · intro h
    have hpos : 0 < divisor.toNat := toNat_pos_iff.mpr h
    obtain ⟨q, r, hdivide, hq, hr⟩ := divide_of_pos dividend hpos
    refine ⟨q, r, hdivide, ?_, ?_⟩
    · rw [hq, hr, Nat.mul_comm, Nat.div_add_mod]
    · rw [hr]
      exact Nat.mod_lt _ hpos
  · intro h
    exact if_pos (trim_eq_nil_iff.mpr h)

end Numeral

end TwosComplement
