import TwosComplement.Conversion
import TwosComplement.Fixed.Operations
import TwosComplement.Proofs.FixedRange
import TwosComplement.Proofs.UnboundedValue

/-!
# Proofs/FixedConversion — fixed-width values as unbounded ones, and back

The word view keeps the value, so that conversions between the two are what `Fixed.wrap` and `Saturating.clamp` do
with an integer.

* `Fixed.toInt_toStream`, `Fixed.ofStream_eq_ofInt`: the word view by value.
* `IntType.sameMeaning_iff`: what the exact conversion compares.
* `Fixed.wide`, `Fixed.narrow`, `Fixed.narrowSat`, with `Fixed.toInt_wide`, `Fixed.narrow_eq_wrap` and
  `Fixed.narrowSat_eq_clamp`.
* `Fixed.saturate_wrap`: a bound chosen by signs is the nearest one.
-/

namespace TwosComplement

/-! ## The word view -/

namespace Fixed

variable {s : Signedness} {w : ℕ}

theorem two_pow_dvd_words (w : ℕ) : (2 : ℤ) ^ w ∣ 2 ^ (64 * wordCount w) :=
  pow_dvd_pow 2 (by unfold wordCount; omega)

theorem toInt_bounds_width (a : Fixed s w) : -2 ^ w ≤ a.toInt ∧ a.toInt < 2 ^ w := by
  have hlt : (a.bits.toNat : ℤ) < 2 ^ w := by exact_mod_cast a.bits.isLt
  cases s with
  | unsigned =>
    show -2 ^ w ≤ (a.bits.toNat : ℤ) ∧ (a.bits.toNat : ℤ) < 2 ^ w
    omega
  | signed =>
    show -2 ^ w ≤ a.bits.toInt ∧ a.bits.toInt < 2 ^ w
    rw [BitVec.toInt_eq_toNat_cond]
    push_cast
    split <;> omega

@[simp] theorem toInt_toStream (a : Fixed s w) : (toStream a).toInt = a.toInt := by
  have hle : (2 : ℤ) ^ w ≤ 2 ^ (64 * wordCount w) := Int.le_of_dvd (by positivity) (two_pow_dvd_words w)
  have hb := a.toInt_bounds_width
  have hneg : a.negative = decide (a.toInt < 0) := by rw [Bool.eq_iff_iff, negative_iff, decide_eq_true_iff]
  show (⟨WordStream.wordsOf (wordCount w) a.toInt, a.negative⟩ : WordStream).toInt = a.toInt
  rw [hneg]
  exact WordStream.toInt_wordsOf (by omega)

theorem ofStream_eq_ofInt (x : WordStream) : (ofStream x : Fixed s w) = ofInt x.toInt := by
  refine Fixed.ext (BitVec.eq_of_toNat_eq ?_)
  have h := x.toNat_words (wordCount w)
  show (BitVec.ofNat w (Numeral.toNat ((List.range (wordCount w)).map x.word))).toNat =
    (BitVec.ofInt w x.toInt).toNat
  rw [BitVec.toNat_ofNat, BitVec.toNat_ofInt]
  refine Int.natCast_inj.mp ?_
  push_cast
  rw [h, Int.emod_emod_of_dvd _ (two_pow_dvd_words w), Int.toNat_of_nonneg (Int.emod_nonneg _ (by positivity))]

end Fixed

namespace IntType

/-- Streams have one meaning when they have one value, and a set fill is read alike. -/
theorem sameMeaning_iff {x y : WordStream} {s t : Signedness} :
    sameMeaning x y s t = true ↔ x.toInt = y.toInt ∧ (y.fill = true → s = t) := by
  have hwords : ((List.range (max x.body.length y.body.length)).all fun i => x.word i == y.word i) = true ↔
      ∀ i < max x.body.length y.body.length, x.word i = y.word i := by simp
  have hfill : (!y.fill || s == t) = true ↔ (y.fill = true → s = t) := by
    cases y.fill <;> simp
  unfold sameMeaning
  rw [Bool.and_eq_true, Bool.and_eq_true, hwords, hfill, beq_iff_eq]
  constructor
  · rintro ⟨⟨h1, h2⟩, h3⟩
    exact ⟨WordStream.toInt_eq_of_words (le_max_left _ _) (le_max_right _ _) h3 h1, h2⟩
  · rintro ⟨h1, h2⟩
    exact ⟨⟨WordStream.fill_eq_of_toInt_eq h1, h2⟩, fun i _ => WordStream.word_eq_of_toInt_eq h1 i⟩

end IntType

/-! ## Conversions -/

namespace Fixed

variable {s : Signedness} {w : ℕ}

/-- A value as a signed unbounded integer. -/
def wide (a : Fixed s w) : Unbounded .signed := @IntType.convertMasking (.unbounded .signed) (.fixed s w) a

/-- A signed unbounded integer as a value, flagged when it does not fit. -/
def narrow (x : Unbounded .signed) : Flagged (Fixed s w) :=
  @IntType.convertExact (.fixed s w) (.unbounded .signed) x

/-- A signed unbounded integer as a value, or as the bound on its side. -/
def narrowSat (x : Unbounded .signed) : Fixed s w :=
  @IntType.convertClamping (.fixed s w) ⟨least, greatest⟩ (.unbounded .signed) x

@[simp] theorem toInt_wide (a : Fixed s w) : a.wide.toInt = a.toInt :=
  (Unbounded.toInt_ofStream _).trans (toInt_toStream a)

theorem narrow_eq_wrap (x : Unbounded .signed) : (narrow x : Flagged (Fixed s w)) = wrap x.toInt := by
  have hvalue : (narrow x : Flagged (Fixed s w)).value = ofInt x.toInt := ofStream_eq_ofInt x.toWordStream
  refine Flagged.ext hvalue ?_
  have hflag : (narrow x : Flagged (Fixed s w)).flag =
      !IntType.sameMeaning (toStream (narrow x : Flagged (Fixed s w)).value) x.toWordStream .signed s := rfl
  rw [hflag, hvalue]
  show _ = decide ((ofInt x.toInt : Fixed s w).toInt ≠ x.toInt)
  rw [Bool.eq_iff_iff, Bool.not_eq_true', ← Bool.not_eq_true, IntType.sameMeaning_iff, toInt_toStream,
    decide_eq_true_iff, not_iff_not]
  refine ⟨fun h => h.1, fun h => ⟨h, fun hfill => ?_⟩⟩
  -- a value that stands for a negative integer is signed
  rw [x.fill_iff, ← h, ← negative_iff] at hfill
  cases s with
  | unsigned => simp [negative, Signedness.isSigned] at hfill
  | signed => rfl

theorem zero_bounds : (least : Fixed s w).toInt ≤ 0 ∧ 0 ≤ (greatest : Fixed s w).toInt := by
  have h := (0 : Fixed s w).toInt_bounds
  rwa [toInt_zero] at h

/-- A flagged result gives way to the nearest bound, when the bound is chosen by the side that the result is on. -/
theorem saturate_wrap {n : ℤ} {downward : Bool} (hlow : n < (least : Fixed s w).toInt → downward = true)
    (hhigh : (greatest : Fixed s w).toInt < n → downward = false) :
    saturate (wrap n : Flagged (Fixed s w)) downward = Saturating.clamp n := by
  have hflag := flag_wrap_iff (s := s) (w := w) n
  unfold saturate Saturating.clamp
  by_cases h1 : n < (least : Fixed s w).toInt
  · rw [if_pos (hflag.mpr (.inl h1)), if_pos (hlow h1), if_pos h1]
  by_cases h2 : (greatest : Fixed s w).toInt < n
  · rw [if_pos (hflag.mpr (.inr h2)), hhigh h2, if_neg h1, if_pos h2]
    rfl
  · rw [if_neg (mt hflag.mp (not_or.mpr ⟨h1, h2⟩)), if_neg h1, if_neg h2]
    rfl

theorem narrowSat_eq_clamp (x : Unbounded .signed) : (narrowSat x : Fixed s w) = Saturating.clamp x.toInt := by
  have h0 := zero_bounds (s := s) (w := w)
  have hdef : (narrowSat x : Fixed s w) = if !(narrow x : Flagged (Fixed s w)).flag then (narrow x).value
      else if x.negative then least else greatest := rfl
  have hsat : (narrowSat x : Fixed s w) = saturate (wrap x.toInt) x.negative := by
    rw [hdef, narrow_eq_wrap]
    unfold saturate
    cases (wrap x.toInt : Flagged (Fixed s w)).flag <;> rfl
  rw [hsat]
  refine saturate_wrap (fun h => ?_) (fun h => ?_)
  · rw [x.negative_iff]
    omega
  · rw [← Bool.not_eq_true, x.negative_iff]
    omega

/-! ## Saturation by default -/

theorem saturate_add (a b : Fixed s w) : saturate (a.add b) b.negative = Saturating.clamp (a.toInt + b.toInt) := by
  have ha := a.toInt_bounds
  refine saturate_wrap (fun h => ?_) (fun h => ?_)
  · rw [negative_iff]
    omega
  · rw [← Bool.not_eq_true, negative_iff]
    omega

theorem saturate_sub (a b : Fixed s w) :
    saturate (a.sub b) (!b.negative) = Saturating.clamp (a.toInt - b.toInt) := by
  have ha := a.toInt_bounds
  refine saturate_wrap (fun h => ?_) (fun h => ?_)
  · rw [Bool.not_eq_true', ← Bool.not_eq_true, negative_iff]
    omega
  · rw [Bool.not_eq_false', negative_iff]
    omega

theorem saturate_mul (a b : Fixed s w) :
    saturate (a.mul b) (a.negative != b.negative) = Saturating.clamp (a.toInt * b.toInt) := by
  have h0 := zero_bounds (s := s) (w := w)
  have hsigns : (a.negative != b.negative) = true ↔ ¬(a.toInt < 0 ↔ b.toInt < 0) := by
    rw [bne_iff_ne, ne_eq, Bool.eq_iff_iff, negative_iff, negative_iff]
  refine saturate_wrap (fun h => hsigns.mpr fun h1 => ?_) (fun h => ?_)
  · have h2 : 0 ≤ a.toInt * b.toInt := by
      rcases lt_or_ge a.toInt 0 with ha | ha
      · exact (mul_pos_of_neg_of_neg ha (h1.mp ha)).le
      · exact mul_nonneg ha (not_lt.mp (mt h1.mpr (not_lt.mpr ha)))
    omega
  · rw [← Bool.not_eq_true, hsigns, not_not]
    have h2 : 0 < a.toInt * b.toInt := by omega
    rcases mul_pos_iff.mp h2 with h3 | h3 <;> omega

theorem saturate_neg (a : Fixed s w) : saturate a.neg (!a.negative) = Saturating.clamp (-a.toInt) := by
  have h0 := zero_bounds (s := s) (w := w)
  refine saturate_wrap (fun h => ?_) (fun h => ?_)
  · rw [Bool.not_eq_true', ← Bool.not_eq_true, negative_iff]
    omega
  · rw [Bool.not_eq_false', negative_iff]
    omega

end Fixed

end TwosComplement
