import TwosComplement.Proofs.MaskingConversion
import TwosComplement.Proofs.UnsignedReadings

/-!
# Proofs/ClampingConversion — the clamping conversion goes to the nearest value of the target

Between the bounds of a type every meaning is that of some value. What the exact conversion flags is therefore beyond
one of them, and as zero lies between the bounds, the sign tells which.

* `IntType.le_meaning_iff`, `IntType.meaning_le_iff`: what a value stands for against an integer.
* `IntType.exists_meaning_iff`: the values of a bounded type fill its range.
* `IntType.meaning_convertClamping`: the projection onto that range.
* `IntType.isLE_compare_iff`: the order of every type is that of the meanings, which makes the projection monotone.
* `Representation.clamping_projects`: the same for the types of the library, each with its own words and order.
-/

namespace TwosComplement

namespace IntType

variable {t u : IntType}

/-! ## Meanings against integers -/

/-- Infinite values lie above every integer. -/
theorem le_meaning_iff {a : t.Value} {n : ℤ} :
    toLex (0, n) ≤ meaning a ↔ infinite a = true ∨ n ≤ (toStream a).toInt := by
  rw [meaning_eq, Prod.Lex.toLex_le_toLex]
  cases infinite a <;> simp

theorem meaning_le_iff {a : t.Value} {n : ℤ} :
    meaning a ≤ toLex (0, n) ↔ infinite a = false ∧ (toStream a).toInt ≤ n := by
  rw [meaning_eq, Prod.Lex.toLex_le_toLex]
  cases infinite a <;> simp

/-- Above every value is one less than an infinity, which is the greatest unsigned value. -/
theorem meaning_le_greatest (a : t.Value) : meaning a ≤ toLex (1, -1) := by
  rw [meaning_eq, Prod.Lex.toLex_le_toLex]
  cases hinf : infinite a with
  | true =>
    have hneg := (toStream a).fill_iff.mp (Bool.and_eq_true_iff.mp hinf).2
    exact .inr ⟨rfl, Int.le_sub_one_of_lt hneg⟩
  | false => exact .inl Int.zero_lt_one

/-- Negative values are those below zero; infinite ones are not among them. -/
theorem negative_iff (a : t.Value) : negative a = true ↔ meaning a < toLex (0, 0) := by
  rw [← not_le, le_meaning_iff, not_or, not_le, ← WordStream.fill_iff]
  unfold negative infinite
  cases t.signedness.isSigned <;> cases (toStream a).fill <;> decide

@[simp] theorem meaning_zero : meaning (0 : t.Value) = toLex (0, 0) := by
  cases t with
  | fixed s w => exact congrArg (fun n => toLex (0, n)) Fixed.toInt_zero
  | unbounded s => cases s <;> rfl

/-! ## The range of a type -/

variable {bounds : Bounds u.Value}

theorem meaning_bounds (h : u.bounds? = some bounds) (b : u.Value) :
    meaning bounds.least ≤ meaning b ∧ meaning b ≤ meaning bounds.greatest := by
  cases u with
  | fixed s w =>
    cases h
    have hb := Fixed.toInt_bounds b
    rw [← Fixed.toInt_toStream b] at hb
    exact ⟨le_meaning_iff.mpr (.inr hb.1), meaning_le_iff.mpr ⟨infinite_fixed b, hb.2⟩⟩
  | unbounded s =>
    cases s with
    | signed => cases h
    | unsigned =>
      cases h
      refine ⟨le_meaning_iff.mpr ?_, meaning_le_greatest b⟩
      cases hfill : (toStream b).fill with
      | true => exact .inl hfill
      | false => exact .inr ((toStream b).fill_eq_false_iff.mp hfill)

/-- Between the bounds of a type every meaning, of whatever type, is that of one of its values. -/
theorem exists_meaning_iff (h : u.bounds? = some bounds) (a : t.Value) :
    (∃ b : u.Value, meaning b = meaning a) ↔
      meaning bounds.least ≤ meaning a ∧ meaning a ≤ meaning bounds.greatest := by
  constructor
  · rintro ⟨b, hb⟩
    rw [← hb]
    exact meaning_bounds h b
  · rintro ⟨hleast, hgreatest⟩
    cases u with
    | fixed s w =>
      cases h
      obtain ⟨hfinite, hle⟩ := meaning_le_iff.mp hgreatest
      have hge := (le_meaning_iff.mp hleast).resolve_left (Bool.eq_false_iff.mp hfinite)
      refine ⟨Fixed.ofInt (toStream a).toInt, meaning_eq_iff.mpr ⟨?_, ?_⟩⟩
      · exact (Fixed.toInt_toStream _).trans ((Fixed.toInt_ofInt_eq_iff _).mpr ⟨hge, hle⟩)
      · rw [infinite_fixed, hfinite]
    | unbounded s =>
      cases s with
      | signed => cases h
      | unsigned =>
        cases h
        refine ⟨Unbounded.ofStream (toStream a), meaning_eq_iff.mpr ⟨Unbounded.toInt_ofStream _, ?_⟩⟩
        -- a set fill stands for an infinity in the target, and so it does in the source, which is not negative
        show (toStream a).fill = infinite a
        obtain hinf | hpos := le_meaning_iff.mp hleast
        · rw [hinf]
          exact (Bool.and_eq_true_iff.mp hinf).2
        · unfold infinite
          rw [(toStream a).fill_eq_false_iff.mpr hpos, Bool.and_false]

/-! ## The projection -/

theorem convertClamping_eq (a : t.Value) : u.convertClamping bounds a =
    if (u.convertExact a).flag then (if negative a then bounds.least else bounds.greatest)
    else u.convertMasking a := by
  show (if !(u.convertExact a).flag then u.convertMasking a
    else if negative a then bounds.least else bounds.greatest) = _
  cases (u.convertExact a).flag <;> rfl

theorem convertClamping_eq_of_meaning_eq {a : t.Value} {b : u.Value} (h : meaning b = meaning a) :
    u.convertClamping bounds a = b := by
  have hexact := (convertExact_eq_ok_iff a b).mpr h
  have hflag : (u.convertExact a).flag = false := by rw [hexact, Flagged.flag_ok]
  rw [convertClamping_eq, hflag, if_neg Bool.false_ne_true]
  exact congrArg Flagged.value hexact

/-- What the target does not represent lies beyond the bound on the side of its sign. -/
theorem meaning_convertClamping (h : u.bounds? = some bounds) (a : t.Value) :
    meaning (u.convertClamping bounds a) = max (meaning bounds.least) (min (meaning bounds.greatest) (meaning a)) := by
  obtain ⟨hleast, hgreatest⟩ := meaning_bounds h (0 : u.Value)
  rw [meaning_zero] at hleast hgreatest
  -- zero is between the bounds, so that the sign tells which of them a value is beyond
  by_cases hin : ∃ b : u.Value, meaning b = meaning a
  · obtain ⟨h1, h2⟩ := (exists_meaning_iff h a).mp hin
    obtain ⟨b, hb⟩ := hin
    rw [convertClamping_eq_of_meaning_eq hb, hb, min_eq_right h2, max_eq_right h1]
  · have hflag : (u.convertExact a).flag = true := by
      rw [← Bool.not_eq_false, flag_convertExact_iff]
      exact fun hmasked => hin ⟨_, hmasked⟩
    rw [exists_meaning_iff h, not_and_or, not_le, not_le] at hin
    rw [convertClamping_eq, if_pos hflag]
    by_cases hneg : negative a = true
    · have hbelow := (negative_iff a).mp hneg
      have hlt : meaning a < meaning bounds.least := hin.resolve_right (hbelow.le.trans hgreatest).not_gt
      rw [if_pos hneg, min_eq_right (hbelow.le.trans hgreatest), max_eq_left hlt.le]
    · have habove := not_lt.mp (mt (negative_iff a).mpr hneg)
      have hlt : meaning bounds.greatest < meaning a := hin.resolve_left (hleast.trans habove).not_gt
      rw [if_neg hneg, min_eq_left hlt.le, max_eq_right (hleast.trans hgreatest)]

/-! ## The order -/

theorem isLE_compare_iff (a b : t.Value) : (compare a b).isLE = true ↔ meaning a ≤ meaning b := by
  rw [Ordering.isLE_iff_ne_gt]
  cases t with
  | fixed s w =>
    show compare (Fixed.toInt a) (Fixed.toInt b) ≠ .gt ↔ toLex (0, Fixed.toInt a) ≤ toLex (0, Fixed.toInt b)
    rw [compare_le_iff_le, Prod.Lex.toLex_le_toLex]
    simp
  | unbounded s =>
    cases s with
    | signed =>
      show compare a b ≠ .gt ↔ toLex ((0 : ℤ), a.toInt) ≤ toLex (0, b.toInt)
      rw [Unbounded.compare_signed, compare_le_iff_le, Prod.Lex.toLex_le_toLex]
      simp
    | unsigned =>
      have hle : compare a b ≠ .gt ↔ compare a b = .lt ∨ compare a b = .eq := by
        cases compare a b <;> decide
      show compare a b ≠ .gt ↔ toLex ((if a.fill then (1 : ℤ) else 0), a.toInt) ≤ toLex (if b.fill then 1 else 0, b.toInt)
      have hfill (x : Unbounded .unsigned) : (x.fill = true) = (x.toInt < 0) := propext x.fill_iff
      rw [hle, Unbounded.compare_unsigned_lt, Unbounded.compare_unsigned_eq, Prod.Lex.toLex_le_toLex]
      simp only [hfill]
      split_ifs <;> omega

end IntType

/-! ## The contract -/

namespace Representation

theorem convertExact_eq (target source : Representation) (a : source.Value) :
    target.view.convertExact source.view a = @IntType.convertExact target.intType source.intType a := by
  have hmasked := convertMasking_eq target source a
  rw [target.view_eq, source.view_eq] at hmasked ⊢
  unfold WordView.convertExact
  rw [hmasked]
  rfl

theorem convertClamping_eq (target source : Representation) (bounds : Bounds target.Value) (a : source.Value) :
    target.view.convertClamping bounds source.view a =
      @IntType.convertClamping target.intType bounds source.intType a := by
  unfold WordView.convertClamping
  rw [convertExact_eq, source.view_eq]
  rfl

open IntType (meaning)

variable {source target : Representation} {bounds : Bounds target.Value}

/-- **The clamping conversion is the monotone projection onto the range of its target.**  From any type to any type
with bounds, infinite unsigned values lying above every integer, it gives the nearest value of the target: the meaning
of the source, or the bound that it is beyond.  Values in the order of the source's type go to values in the order of
the target's, and a value that the target represents is kept. -/
theorem clamping_projects (h : target.view.bounds? = some bounds) :
    (∀ x : source.Value, meaning (target.view.convertClamping bounds source.view x) =
      max (meaning bounds.least) (min (meaning bounds.greatest) (meaning x))) ∧
    (∀ x y : source.Value, (source.view.order x y).isLE = true →
      (target.view.order (target.view.convertClamping bounds source.view x)
        (target.view.convertClamping bounds source.view y)).isLE = true) ∧
    (∀ (x : source.Value) (b : target.Value), meaning b = meaning x →
      target.view.convertClamping bounds source.view x = b) ∧
    ∀ b : target.Value, meaning bounds.least ≤ meaning b ∧ meaning b ≤ meaning bounds.greatest := by
  have hbounds : target.intType.bounds? = some bounds := by
    rw [target.view_eq] at h
    exact h
  have hmeaning (x : source.Value) : meaning (target.view.convertClamping bounds source.view x) =
      max (meaning bounds.least) (min (meaning bounds.greatest) (meaning x)) := by
    rw [convertClamping_eq]
    exact IntType.meaning_convertClamping hbounds x
  have horder (r : Representation) (x y : r.Value) : (r.view.order x y).isLE = true ↔ meaning x ≤ meaning y := by
    rw [r.view_eq]
    exact IntType.isLE_compare_iff x y
  refine ⟨hmeaning, ?_, ?_, IntType.meaning_bounds hbounds⟩
  · intro x y hxy
    rw [horder] at hxy ⊢
    rw [hmeaning, hmeaning]
    exact max_le_max le_rfl (min_le_min le_rfl hxy)
  · intro x b hb
    rw [convertClamping_eq]
    exact IntType.convertClamping_eq_of_meaning_eq hb

/-- The signed type of one bit has minus one and zero as its bounds. The greatest unsigned value, beyond all integers,
goes to zero, and so does every value from zero on. -/
theorem clamping_projects_bit :
    let bit := (fixed (.oneBit .signed)).view
    let wide := (unbounded .unsigned).view
    bit.bounds? = some ⟨.ofInt (-1), .ofInt 0⟩ ∧
      bit.convertClamping ⟨.ofInt (-1), .ofInt 0⟩ wide 0 = .ofInt 0 ∧
      (bit.order (.ofInt 0) (bit.convertClamping ⟨.ofInt (-1), .ofInt 0⟩ wide Unbounded.greatest)).isLE = true ∧
      meaning (t := .fixed .signed 1) (bit.convertClamping ⟨.ofInt (-1), .ofInt 0⟩ wide Unbounded.greatest) ≤
        meaning (t := .fixed .signed 1) (.ofInt 0) := by
  have hbounds : (fixed (.oneBit .signed)).view.bounds? = some ⟨.ofInt (-1), .ofInt 0⟩ := rfl
  have h := @clamping_projects (unbounded .unsigned) (fixed (.oneBit .signed)) _ hbounds
  have hzero := h.2.2.1 (0 : Unbounded .unsigned) (.ofInt 0) (by decide)
  have hle := h.2.1 (0 : Unbounded .unsigned) Unbounded.greatest (by decide)
  rw [hzero] at hle
  exact ⟨hbounds, hzero, hle, (h.2.2.2 _).2⟩

end Representation

end TwosComplement
