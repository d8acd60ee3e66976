import TwosComplement.Conversion
import TwosComplement.Proofs.FixedConversion
import TwosComplement.Proofs.SignedDivision

/-!
# Proofs/OneWordDivision — dividing through the reciprocal of a word is dividing by the word

The two divisions share nothing but their signs: one keeps the body of the magnitude and divides it in place, the
other trims both magnitudes and chooses a method by their lengths. Both results are numerals of one number, and
a numeral of a number, of whatever length, is one integer: `Unbounded.withSign_eq`.

* `Unbounded.ofWord`: the divisor as an unbounded integer.
* `Unbounded.divideMagnitudes_ofWord`: the finite dividends.
* `Unbounded.divideBy_eq_divide`: all dividends, infinite ones with their flag.
-/

namespace TwosComplement

namespace Unbounded

variable {s : Signedness}

/-! ## The divisor -/

/-- A word as an unbounded integer. -/
def ofWord (w : Word) : Unbounded s := @IntType.convertMasking (.unbounded s) (.fixed .unsigned 64) ⟨w⟩

theorem toInt_ofWord (w : Word) : (ofWord w : Unbounded s).toInt = w.toNat :=
  (toInt_ofStream _).trans (Fixed.toInt_toStream (⟨w⟩ : Fixed .unsigned 64))

theorem ofWord_ne_zero (w : Nonzero Word) : (ofWord w.val : Unbounded s) ≠ 0 := by
  intro h
  have hw := w.toNat_pos
  have hzero : (ofWord w.val : Unbounded s).toInt = 0 := by rw [h, toInt_zero]
  rw [toInt_ofWord] at hzero
  omega

/-- A divisor of one word as an unbounded integer. -/
def wordDivisor (w : Nonzero Word) : Nonzero (Unbounded s) := ⟨ofWord w.val, ofWord_ne_zero w⟩

theorem fill_ofWord (w : Word) : (ofWord w : Unbounded s).fill = false := by
  rw [WordStream.fill_eq_false_iff, toInt_ofWord]
  omega

/-! ## Magnitudes -/

theorem infinite_of_fill {x : Unbounded s} (h : x.fill = false) : x.infinite = false := by
  unfold infinite
  rw [h, Bool.and_false]

theorem toNat_magnitude_ofWord (w : Word) :
    Numeral.toNat (ofWord w : Unbounded s).magnitude.body = w.toNat := by
  rw [toNat_magnitude (infinite_of_fill (fill_ofWord w)), toInt_ofWord, Int.natAbs_natCast]

/-- An integer with a sign does not depend on how long its magnitude is written. -/
theorem withSign_eq {p q : Numeral 64} (h : p.toNat = q.toNat) (negative : Bool) :
    (withSign p negative : Unbounded s) = withSign q negative := by
  refine toInt_injective ?_
  rw [toInt_withSign, toInt_withSign, h]

/-! ## The two divisions -/

/-- Dividing the magnitudes and dividing in place give the same numbers. -/
theorem divideMagnitudes_ofWord (x : Unbounded s) {w : Nonzero Word} {r : LimbReciprocal 64} (hr : r.Exact)
    (hw : r.divisor = w.val) : ∃ (q : Numeral 64) (rem : Word), r.divideAll x.magnitude.body = .ok ⟨q, rem⟩ ∧
      divideMagnitudes x (ofWord w.val) = .ok ⟨withSign q x.fill, withSign [rem] x.fill⟩ := by
  have hvalue := toNat_magnitude_ofWord (s := s) w.val
  obtain ⟨q, rem, hall, -, hq, hrem⟩ := hr.divideAll x.magnitude.body
  obtain ⟨q', rem', hdivide, hq', hrem'⟩ :=
    Numeral.divide_of_pos x.magnitude.body (by rw [hvalue]; exact w.toNat_pos)
  rw [hw] at hq hrem
  rw [hvalue] at hq' hrem'
  refine ⟨q, rem, hall, ?_⟩
  have hquotient : (withSign q' x.fill : Unbounded s) = withSign q x.fill := withSign_eq (hq'.trans hq.symm) _
  have hremainder : (withSign rem' x.fill : Unbounded s) = withSign [rem] x.fill := by
    refine withSign_eq ?_ _
    rw [hrem', ← hrem, Numeral.toNat_cons, Numeral.toNat_nil, Nat.mul_zero, Nat.add_zero]
  unfold divideMagnitudes
  rw [hdivide, fill_ofWord, Bool.bne_false, ← hquotient, ← hremainder]
  rfl

/-- One is the only word that is a bit and a divisor. -/
theorem isBit_ofWord_iff (w : Nonzero Word) : (ofWord w.val : Unbounded s).isBit = true ↔ w.val = 1 := by
  have hpos := w.toNat_pos
  rw [isBit_iff, toInt_ofWord, ← BitVec.toNat_inj]
  show _ ↔ w.val.toNat = 1
  omega

/-! ## The cases of a division by a finite divisor -/

theorem divide_of_finite {x : Unbounded s} {d : Nonzero (Unbounded s)} (hx : x.infinite = false)
    (hd : d.val.fill = false) : x.divide d = (divideMagnitudes x d.val).map .ok :=
  divide_eq_divideMagnitudes hx (infinite_of_fill hd)

theorem divide_of_infinite {x : Unbounded .unsigned} {d : Nonzero (Unbounded .unsigned)} (hx : x.fill = true)
    (hd : d.val.fill = false) : x.divide d = .ok ⟨⟨x, 0⟩, !d.val.isBit⟩ := by
  unfold divide
  simp only [hx, hd]
  rfl

/-- **Dividing through the reciprocal of a word is dividing by the word.**  Every nonzero word has a reciprocal,
and for every dividend of either kind, negative, infinite or shorter than a word, the two divisions both answer,
with the same quotient, remainder and flag. -/
theorem divideBy_eq_divide (x : Unbounded s) (w : Nonzero Word) :
    ∃ r result, LimbReciprocal.ofDivisor w = .ok r ∧ x.divideBy r = .ok result ∧
      x.divide (wordDivisor w) = .ok result := by
  obtain ⟨r, hr, hw, hexact⟩ := LimbReciprocal.ofDivisor_exact w
  cases hinfinite : x.infinite with
  | false =>
    obtain ⟨q, rem, hall, hmagnitudes⟩ := divideMagnitudes_ofWord x hexact hw
    refine ⟨r, .ok ⟨withSign q x.fill, withSign [rem] x.fill⟩, hr, ?_, ?_⟩
    · unfold divideBy
      rw [hinfinite, hall]
      rfl
    · rw [divide_of_finite hinfinite (fill_ofWord w.val)]
      show (divideMagnitudes x (ofWord w.val)).map _ = _
      rw [hmagnitudes]
      rfl
  | true =>
    cases s with
    | signed => cases hinfinite
    | unsigned =>
      -- an infinite dividend is its own quotient, and only the flags are computed differently
      have hflag : (!(ofWord w.val : Unbounded .unsigned).isBit) = decide (r.divisor ≠ 1) := by
        rw [Bool.eq_iff_iff, Bool.not_eq_true', ← Bool.not_eq_true, isBit_ofWord_iff, decide_eq_true_iff, hw]
      refine ⟨r, ⟨⟨x, 0⟩, decide (r.divisor ≠ 1)⟩, hr, if_pos hinfinite, ?_⟩
      rw [divide_of_infinite hinfinite (fill_ofWord w.val), ← hflag]
      rfl

end Unbounded

end TwosComplement
