import TwosComplement.Proofs.DoubleWidth

/-!
# Proofs/WideDivision — products into, and divisions out of, twice the width are exact

Both are computed in double words, which hold every integer of twice a machine width. So products and dividends are
exact there, and remainders and most quotients too. The one quotient that wraps around, that of the least double word by
minus one, wraps to an integer that no machine width holds, and is flagged like every other quotient that is too large.

* `Fixed.inRange_mul`, `Fixed.inRange_tmod`: what products and remainders fit into.
* `Fixed.mulWide_eq`, `Fixed.toInt_joined`, `Fixed.tdivWide_eq`: the computations in double words, by value.
* `FixedType.wide_exact`: the contract.
-/

namespace TwosComplement

namespace Fixed

variable {s : Signedness} {w v : ℕ}

/-! ## Ranges -/

theorem InRange.of_le (hw : 0 < w) (hle : w ≤ v) {n : ℤ} (h : InRange s w n) : InRange s v n := by
  cases s with
  | unsigned =>
    have hpow : (2 : ℤ) ^ w ≤ 2 ^ v := pow_le_pow_right₀ (by norm_num) hle
    rw [inRange_unsigned_iff] at h ⊢
    omega
  | signed =>
    have hpow : (2 : ℤ) ^ (w - 1) ≤ 2 ^ (v - 1) := pow_le_pow_right₀ (by norm_num) (by omega)
    rw [inRange_signed_iff hw] at h
    rw [inRange_signed_iff (by omega)]
    omega

/-- Products fit into twice the width. -/
theorem inRange_mul (hw : 0 < w) (a b : Fixed s w) : InRange s (2 * w) (a.toInt * b.toInt) := by
  have ha := a.toInt_bounds
  have hb := b.toInt_bounds
  cases s with
  | unsigned =>
    rw [toInt_least_unsigned, toInt_greatest_unsigned] at ha hb
    rw [inRange_unsigned_iff, two_mul, pow_add, Int.le_sub_one_iff]
    exact ⟨mul_nonneg ha.1 hb.1, mul_lt_mul'' (by omega) (by omega) ha.1 hb.1⟩
  | signed =>
    rw [toInt_least_signed hw, toInt_greatest_signed] at ha hb
    have hsquare : (2 : ℤ) ^ (2 * w - 1) = 2 * (2 ^ (w - 1) * 2 ^ (w - 1)) := by
      rw [← pow_add, ← pow_succ', show 2 * w - 1 = w - 1 + (w - 1) + 1 by omega]
    have habs : |a.toInt * b.toInt| ≤ 2 ^ (w - 1) * 2 ^ (w - 1) := by
      rw [abs_mul]
      exact mul_le_mul (abs_le.mpr ⟨by omega, by omega⟩) (abs_le.mpr ⟨by omega, by omega⟩) (abs_nonneg _) (by positivity)
    have hpos : (0 : ℤ) < 2 ^ (w - 1) * 2 ^ (w - 1) := by positivity
    rw [inRange_signed_iff (by omega), hsquare]
    have := abs_le.mp habs
    omega

/-- Remainders fit into the type of the divisor. -/
theorem inRange_tmod {n : ℤ} (hn : s = .unsigned → 0 ≤ n) (d : Nonzero (Fixed s w)) :
    InRange s w (n.tmod d.val.toInt) := by
  have hd := d.val.toInt_bounds
  have hlt : (n.tmod d.val.toInt).natAbs < d.val.toInt.natAbs := by
    rw [Int.natAbs_tmod]
    exact Nat.mod_lt _ (Int.natAbs_pos.mpr (toInt_ne_zero d))
  cases s with
  | unsigned =>
    rw [toInt_least_unsigned, toInt_greatest_unsigned] at hd
    have hr := Int.tmod_nonneg d.val.toInt (hn rfl)
    rw [inRange_unsigned_iff]
    omega
  | signed =>
    have hw := pos_width d
    rw [toInt_least_signed hw, toInt_greatest_signed] at hd
    rw [inRange_signed_iff hw]
    omega

/-! ## Changing the width -/

theorem toInt_resize {a : Fixed s w} (h : InRange s v a.toInt) : (a.resize v).toInt = a.toInt :=
  (toInt_ofInt_eq_iff _).mpr h

theorem toInt_resize_of_le (hw : 0 < w) (hle : w ≤ v) (a : Fixed s w) : (a.resize v).toInt = a.toInt :=
  toInt_resize (InRange.of_le hw hle a.toInt_bounds)

theorem resize_ofInt (hle : w ≤ v) (n : ℤ) : (ofInt n : Fixed s v).resize w = ofInt n :=
  ofInt_eq_iff.mpr ((toInt_ofInt_modEq n).of_dvd (pow_dvd_pow 2 hle))

theorem shiftRight_eq_ediv (n : ℤ) (k : ℕ) : n >>> k = n / 2 ^ k := by
  rw [Int.shiftRight_eq_div_pow]
  push_cast
  rfl

theorem toInt_shiftRight (a : Fixed s w) {k : ℕ} (hk : k < w) : (a.shiftRight k).value.toInt = a.toInt / 2 ^ k := by
  cases s with
  | unsigned =>
    show ((a.bits >>> (k % w)).toNat : ℤ) = a.bits.toNat / 2 ^ k
    rw [Nat.mod_eq_of_lt hk, BitVec.toNat_ushiftRight, Nat.shiftRight_eq_div_pow]
    push_cast
    rfl
  | signed =>
    show (a.bits.sshiftRight (k % w)).toInt = a.bits.toInt / 2 ^ k
    rw [Nat.mod_eq_of_lt hk, BitVec.toInt_sshiftRight, shiftRight_eq_ediv]

end Fixed

namespace DoubleWidth

variable {s : Signedness} {w : ℕ}

theorem toInt_nonneg (x : DoubleWidth s w) (h : s = .unsigned) : 0 ≤ x.toInt := by
  subst h
  rw [toInt_eq_toNat]
  positivity

/-! ## Products -/

theorem toInt_ofInt (hw : 0 < w) {n : ℤ} (h : Fixed.InRange s (2 * w) n) :
    (DoubleWidth.ofInt n : DoubleWidth s w).toInt = n := by
  have hlow : ((BitVec.ofInt w n).toNat : ℤ) = n % 2 ^ w := by
    rw [BitVec.toNat_ofInt]
    push_cast
    exact Int.toNat_of_nonneg (Int.emod_nonneg n (by positivity))
  have hsplit := Int.emod_add_mul_ediv n (2 ^ w)
  have hhigh : (Fixed.ofInt (n / 2 ^ w) : Fixed s w).toInt = n / 2 ^ w := by
    refine (Fixed.toInt_ofInt_eq_iff _).mpr ((inRange_iff hw (BitVec.ofInt w n) _).mp ?_)
    rw [hlow, hsplit]
    exact h
  show ((BitVec.ofInt w n).toNat : ℤ) + 2 ^ w * (Fixed.ofInt (n >>> w) : Fixed s w).toInt = n
  rw [Fixed.shiftRight_eq_ediv, hhigh, hlow, hsplit]

end DoubleWidth

namespace Fixed

variable {s : Signedness} {w : ℕ}

section MachineWidth

variable (hw : 0 < w) (hle : w ≤ 64)

include hw hle

/-- The product of two widened factors is exact, and its halves are those of the integer. -/
theorem mulWide_eq (a b : Fixed s w) : mulWide a b = DoubleWidth.ofInt (a.toInt * b.toInt) := by
  have hfits : (ofInt (a.toInt * b.toInt) : Fixed s 128).toInt = a.toInt * b.toInt :=
    (toInt_ofInt_eq_iff _).mpr (InRange.of_le (by omega) (by omega) (inRange_mul hw a b))
  have hproduct : ((a.resize 128).mul (b.resize 128)).value = ofInt (a.toInt * b.toInt) := by
    show ofInt ((a.resize 128).toInt * (b.resize 128).toInt) = _
    rw [toInt_resize_of_le hw (by omega), toInt_resize_of_le hw (by omega)]
  unfold mulWide
  rw [hproduct]
  show (⟨((ofInt _ : Fixed s 128).resize w).bits, (ofInt _ : Fixed s w).bits⟩ : DoubleWidth s w) = _
  rw [resize_ofInt (by omega), toInt_shiftRight _ (by omega), hfits, ← shiftRight_eq_ediv]
  rfl

theorem toInt_mulWide (a b : Fixed s w) : (mulWide a b).toInt = a.toInt * b.toInt := by
  rw [mulWide_eq hw hle, DoubleWidth.toInt_ofInt hw (inRange_mul hw a b)]

/-! ## Quotients and remainders -/

/-- The halves of a dividend make up its integer. -/
theorem joined_eq (x : DoubleWidth s w) : joined x = ofInt x.toInt := by
  have hhigh : ((x.highPart.resize 128).shiftLeft w).value = ofInt (x.highPart.toInt * 2 ^ w) := by
    rw [ofInt_mul_two_pow]
    show (⟨(x.highPart.resize 128).bits <<< (w % 128)⟩ : Fixed s 128) = _
    rw [Nat.mod_eq_of_lt (by omega)]
    rfl
  have hlow : x.low.setWidth 128 = BitVec.ofInt 128 x.low.toNat := by
    rw [BitVec.ofInt_natCast, BitVec.ofNat_toNat]
  -- the high half is shifted clear of the low one, so that their union is their sum
  have hdisjoint : (ofInt (x.highPart.toInt * 2 ^ w) : Fixed s 128).bits &&& x.low.setWidth 128 = 0 := by
    rw [ofInt_mul_two_pow]
    refine BitVec.eq_of_getLsbD_eq ?_
    intro i _
    rw [BitVec.getLsbD_and, BitVec.getLsbD_shiftLeft, BitVec.getLsbD_setWidth]
    by_cases hi : i < w
    · simp [hi]
    · simp [BitVec.getLsbD_of_ge x.low i (by omega)]
  refine Fixed.ext ?_
  unfold joined
  rw [hhigh]
  show (ofInt (x.highPart.toInt * 2 ^ w) : Fixed s 128).bits ||| x.low.setWidth 128 = BitVec.ofInt 128 x.toInt
  rw [← BitVec.add_eq_or_of_and_eq_zero _ _ hdisjoint, hlow]
  show BitVec.ofInt 128 (x.highPart.toInt * 2 ^ w) + BitVec.ofInt 128 x.low.toNat = _
  rw [← BitVec.ofInt_add]
  congr 1
  unfold DoubleWidth.toInt
  ring

theorem toInt_joined (x : DoubleWidth s w) : (joined x).toInt = x.toInt := by
  rw [joined_eq hw hle]
  exact (toInt_ofInt_eq_iff _).mpr (InRange.of_le (by omega) (by omega) (DoubleWidth.inRange_toInt hw x))

/-- The least double word by minus one is the one quotient that wraps around, to an integer that no machine width holds:
what is in the range of one is the exact quotient. -/
theorem inRange_toInt_tdiv_iff (a : Fixed s 128) (d : Nonzero (Fixed s 128)) :
    InRange s w (a.tdiv d).value.toInt ↔ InRange s w (a.toInt.tdiv d.val.toInt) := by
  by_cases hflag : (a.tdiv d).flag = true
  · obtain ⟨rfl, rfl, hminus⟩ := (flag_tdiv_iff a d).mp hflag
    have hpow : (2 : ℤ) ^ (w - 1) ≤ 2 ^ 63 := pow_le_pow_right₀ (by norm_num) (by omega)
    -- the quotient is the power of two above the range, and wraps to the one below it
    have hquotient : (least : Fixed .signed 128).toInt.tdiv d.val.toInt = 2 ^ 127 := by
      rw [hminus, Int.tdiv_neg, Int.tdiv_one, toInt_least_signed (by omega), neg_neg]
    have hvalue : ((least : Fixed .signed 128).tdiv d).value.toInt = -2 ^ 127 := by
      show (ofInt ((least : Fixed .signed 128).toInt.tdiv d.val.toInt) : Fixed .signed 128).toInt = _
      rw [hquotient, toInt_ofInt_of_above ((inRange_signed_iff (by omega)).mpr (by norm_num))]
      norm_num
    rw [hvalue, hquotient, inRange_signed_iff hw, inRange_signed_iff hw]
    omega
  · rw [show (a.tdiv d).value.toInt = a.toInt.tdiv d.val.toInt from
      (flag_wrap_eq_false_iff _).mp (Bool.eq_false_iff.mpr hflag)]

/-- The quotient is cut to the width, and flagged just when it does not fit; the remainder is exact. -/
theorem tdivWide_eq (x : DoubleWidth s w) (d : Nonzero (Fixed s w)) : tdivWide x d =
    .ok ((wrap (x.toInt.tdiv d.val.toInt)).map fun q => ⟨q, ofInt (x.toInt.tmod d.val.toInt)⟩) := by
  have hd : (d.val.resize 128).toInt = d.val.toInt := toInt_resize_of_le hw (by omega) d.val
  have hne : d.val.resize 128 ≠ 0 := by
    intro h
    rw [h, toInt_zero] at hd
    exact toInt_ne_zero d hd.symm
  have hx := toInt_joined hw hle x
  obtain ⟨q, hq⟩ : ∃ q, q = x.toInt.tdiv d.val.toInt := ⟨_, rfl⟩
  have hquotient : ((joined x).tdiv ⟨d.val.resize 128, hne⟩).value = ofInt q := by
    rw [hq, ← hx, ← hd]
    rfl
  have hremainder : (joined x).tmod ⟨d.val.resize 128, hne⟩ = ofInt (x.toInt.tmod d.val.toInt) := by
    rw [← hx, ← hd]
    rfl
  have hrange := inRange_toInt_tdiv_iff hw hle (joined x) ⟨d.val.resize 128, hne⟩
  rw [hquotient, hx, hd, ← hq] at hrange
  -- cut and widened again, a quotient comes back just when it fits
  have hflag : (ofInt q : Fixed s w).resize 128 ≠ (ofInt q : Fixed s 128) ↔ (ofInt q : Fixed s w).toInt ≠ q := by
    refine not_congr ⟨?_, congrArg ofInt⟩
    intro h
    have hsame : (ofInt q : Fixed s w).toInt = (ofInt q : Fixed s 128).toInt := by
      rw [← h, toInt_resize_of_le hw (by omega)]
    refine (toInt_ofInt_eq_iff q).mpr (hrange.mp ?_)
    rw [← hsame]
    exact toInt_bounds _
  unfold tdivWide
  rw [Nonzero.ofValue_of_ne_zero hne]
  show Except.ok _ = _
  rw [hquotient, hremainder, resize_ofInt (by omega), resize_ofInt (by omega), decide_eq_decide.mpr hflag, ← hq]
  rfl

end MachineWidth

/-- A product divided by one factor gives the other. -/
theorem exact_tdiv_mul (a : Fixed s w) (d : Nonzero (Fixed s w)) :
    ((wrap ((a.toInt * d.val.toInt).tdiv d.val.toInt)).map fun q =>
      (⟨q, ofInt ((a.toInt * d.val.toInt).tmod d.val.toInt)⟩ : QuotRem (Fixed s w) (Fixed s w))) = .ok ⟨a, 0⟩ := by
  have hzero : (ofInt 0 : Fixed s w) = 0 := by
    rw [← toInt_zero (s := s) (w := w), ofInt_toInt]
  rw [Int.mul_tdiv_cancel _ (toInt_ne_zero d), Int.mul_tmod_left, wrap_toInt, hzero]
  rfl

end Fixed

/-! ## The contract -/

/-- **Wide products and wide divisions are exact, and undo each other.** In every type, of one bit by its tables or of a
machine width, the wide product is that of the integers. A double-width dividend is divided by any divisor but zero
without a fault: the quotient is that of the integers cut to the width, flagged just when it does not fit, and the
remainder is exact. Hence a wide product divided by one factor gives the other, without remainder and without a flag. -/
theorem FixedType.wide_exact (t : FixedType) :
    (∀ a b, (t.operations.mulWide a b).toInt = a.toInt * b.toInt) ∧
    (∀ x d, ∃ q r flag, t.operations.tdivWide x d = .ok ⟨⟨q, r⟩, flag⟩ ∧
      q.toInt ≡ x.toInt.tdiv d.val.toInt [ZMOD 2 ^ t.width] ∧
      r.toInt = x.toInt.tmod d.val.toInt ∧
      (flag = true ↔ ¬ Fixed.InRange t.signedness t.width (x.toInt.tdiv d.val.toInt))) ∧
    ∀ a d, t.operations.tdivWide (t.operations.mulWide a d.val) d = .ok (.ok ⟨a, 0⟩) := by
  have hw := t.width_pos
  have hle := t.width_le
  rw [t.operations_eq_machine]
  have hproduct := Fixed.toInt_mulWide (s := t.signedness) hw hle
  have hdivision := Fixed.tdivWide_eq (s := t.signedness) hw hle
  refine ⟨hproduct, ?_, ?_⟩
  · intro x d
    refine ⟨_, _, _, hdivision x d, Fixed.toInt_ofInt_modEq _, ?_, ?_⟩
    · exact (Fixed.toInt_ofInt_eq_iff _).mpr (Fixed.inRange_tmod x.toInt_nonneg d)
    · rw [Fixed.flag_wrap_iff, Fixed.InRange]
      omega
  · intro a d
    refine (hdivision _ d).trans ?_
    rw [show (Operations.machine.mulWide a d.val).toInt = a.toInt * d.val.toInt from hproduct a d.val,
      Fixed.exact_tdiv_mul a d]

-- the least double word by minus one wraps around to itself, and its low half is flagged
example : Fixed.tdivWide (⟨0, BitVec.intMin 64⟩ : DoubleWidth .signed 64) ⟨.ofInt (-1), by decide⟩ =
    .ok ⟨⟨0, 0⟩, true⟩ := by
  rfl

end TwosComplement
