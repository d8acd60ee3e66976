import Mathlib.Algebra.Order.Group.Unbundled.Abs
import Mathlib.Tactic.LinearCombination
import TwosComplement.Proofs.StreamValue

/-!
# Proofs/StreamArithmetic — sums, differences and products of streams are exact

Every operation computes its words modulo a power of the base, and leaves so much room above both bodies that the
top bit of the guard word is the sign of the exact result: `WordStream.toInt_ofGuarded`.

* `WordStream.toInt_add`, `WordStream.toInt_sub`: the carry chain over padded bodies.
* `WordStream.toInt_complement`: the other fill, and the body that is missing from a power of the base.
* `WordStream.toInt_mul`: the product of the bodies, each set fill corrected for by one subtraction.
-/

namespace TwosComplement

namespace Numeral

variable {w : ℕ}

theorem toNat_map_not (xs : Numeral w) : toNat (xs.map (~~~ ·)) + toNat xs + 1 = 2 ^ (w * xs.length) := by
  induction xs with
  | nil => simp
  | cons x xs ih =>
    have hx := x.isLt
    have scaled := congrArg (2 ^ w * ·) ih
    simp only [Nat.mul_add] at scaled
    rw [List.map_cons, toNat_cons, toNat_cons, List.length_cons, Nat.mul_succ, Nat.add_comm _ w, Nat.pow_add,
      BitVec.toNat_not]
    omega

theorem toNat_rightpad_zero (n : ℕ) (xs : Numeral w) : toNat (xs.rightpad n 0) = toNat xs := by
  unfold List.rightpad
  rw [toNat_append, toNat_replicate_zero, Nat.mul_zero, Nat.add_zero]

/-- The top bit of a numeral tells whether it reaches half of its range. -/
theorem msb_getLastD {xs : Numeral 64} (h : xs ≠ []) :
    (xs.getLastD 0).msb = true ↔ 2 ^ (64 * xs.length) ≤ 2 * toNat xs := by
  obtain ⟨ys, y, rfl⟩ : ∃ ys y, xs = ys ++ [y] :=
    ⟨xs.dropLast, xs.getLast h, (List.dropLast_append_getLast h).symm⟩
  have hlt := toNat_lt ys
  have hy : y.msb = true ↔ 2 ^ 64 ≤ 2 * y.toNat := BitVec.msb_eq_true_iff_two_mul_ge
  have hp := Nat.two_pow_pos (64 * ys.length)
  rw [List.getLastD_concat, hy, toNat_append, List.length_append, List.length_singleton, Nat.mul_succ, Nat.pow_add,
    toNat_cons, toNat_nil, Nat.mul_zero, Nat.add_zero]
  generalize 2 ^ (64 * ys.length) = p at hlt hp
  constructor
  · intro h1
    have h2 := Nat.mul_le_mul_left p h1
    rw [Nat.mul_left_comm] at h2
    omega
  · intro h1
    by_contra h2
    have h3 : p * (2 * y.toNat + 2) ≤ p * 2 ^ 64 := Nat.mul_le_mul_left p (by omega)
    rw [Nat.mul_add, Nat.mul_left_comm] at h3
    omega

/-- One more in the limb at a place adds that power of the base, up to a carry out of the top limb. -/
theorem toNat_modify_modEq {xs : Numeral w} {i : ℕ} (h : xs.length = i + 1) :
    (toNat (xs.modify i (· + 1)) : ℤ) ≡ toNat xs + 2 ^ (w * i) [ZMOD 2 ^ (w * xs.length)] := by
  obtain ⟨ys, y, zs, rfl, rfl, hmod⟩ := List.exists_of_modify (· + 1) (show i < xs.length by omega)
  have hzs : zs = [] := by
    rw [← List.length_eq_zero_iff]
    rw [List.length_append, List.length_cons] at h
    omega
  have hy : ((y + 1).toNat : ℤ) ≡ y.toNat + 1 [ZMOD 2 ^ w] := by
    rw [BitVec.toNat_add, Int.natCast_mod]
    refine (Int.mod_modEq _ _).trans ?_
    simpa using (Int.mod_modEq 1 (2 ^ w)).add_left (y.toNat : ℤ)
  rw [hmod, h, hzs, Nat.mul_succ, pow_add, toNat_append, toNat_append]
  have h1 := (hy.mul_left' (c := 2 ^ (w * ys.length))).add_left (toNat ys : ℤ)
  simpa [mul_add, add_assoc] using h1

end Numeral

namespace WordStream

/-! ## The guard word -/

/-- A numeral congruent to an integer that it has room for, sign bit included, is that integer. -/
theorem toInt_ofGuarded {words : Numeral 64} {n : ℤ} (h0 : words ≠ [])
    (hmod : (words.toNat : ℤ) ≡ n [ZMOD 2 ^ (64 * words.length)])
    (hn : -2 ^ (64 * words.length) ≤ 2 * n ∧ 2 * n < 2 ^ (64 * words.length)) : (ofGuarded words).toInt = n := by
  have hlt := words.cast_toNat_lt
  have hmsb : (words.getLastD 0).msb = true ↔ (2 : ℤ) ^ (64 * words.length) ≤ 2 * words.toNat := by
    rw [Numeral.msb_getLastD h0]
    exact_mod_cast Iff.rfl
  -- modulo the power, a negative integer is the power less
  have hval : (words.toNat : ℤ) = n + if n < 0 then 2 ^ (64 * words.length) else 0 := by
    rw [← emod_eq_of_sign (by omega), ← hmod, Int.emod_eq_of_lt (by omega) hlt]
  show (words.toNat : ℤ) - (if (words.getLastD 0).msb then 2 ^ (64 * words.length) else 0) = n
  by_cases hneg : n < 0
  · rw [if_pos hneg] at hval
    rw [if_pos (hmsb.mpr (by omega))]
    omega
  · rw [if_neg hneg] at hval
    rw [if_neg (mt hmsb.mp (by omega))]
    omega

theorem toNat_pad_modEq {x : WordStream} {k : ℕ} (h : x.body.length ≤ k) :
    ((x.pad k).toNat : ℤ) ≡ x.toInt [ZMOD 2 ^ (64 * k)] := by
  rw [pad_eq_wordsOf h, toNat_wordsOf]
  exact Int.mod_modEq _ _

theorem four_mul_base_lt (k : ℕ) : (4 : ℤ) * 2 ^ (64 * k) < 2 ^ (64 * (k + 1)) := by
  have hp : (0 : ℤ) < 2 ^ (64 * k) := by positivity
  rw [Nat.mul_succ, pow_add]
  omega

/-! ## Sums and differences -/

/-- A carry chain computes an integer that its words have room for. -/
theorem toInt_addCarry {xs ys : Numeral 64} {carry : Bool} {k : ℕ} {n : ℤ} (hxs : xs.length = k + 1)
    (hys : ys.length = k + 1)
    (hmod : (xs.toNat + ys.toNat + carry.toNat : ℤ) ≡ n [ZMOD 2 ^ (64 * (k + 1))])
    (hn : -2 ^ (64 * (k + 1)) ≤ 2 * n ∧ 2 * n < 2 ^ (64 * (k + 1))) :
    (ofGuarded (Numeral.addCarry xs ys carry).1).toInt = n := by
  have hlen : xs.length = ys.length := hxs.trans hys.symm
  have hsum := Numeral.addCarry_recompose hlen carry
  have hwords := (Numeral.length_addCarry hlen carry).trans hxs
  rw [hxs] at hsum
  refine toInt_ofGuarded (List.ne_nil_of_length_eq_add_one hwords) ?_ ?_
  · rw [hwords]
    refine Int.ModEq.trans ?_ hmod
    refine Int.modEq_iff_dvd.mpr ⟨(Numeral.addCarry xs ys carry).2.toNat, ?_⟩
    rw [sub_eq_iff_eq_add']
    exact_mod_cast hsum.symm
  · rw [hwords]
    exact hn

theorem toInt_add (x y : WordStream) : (x.add y).toInt = x.toInt + y.toInt := by
  unfold add
  generalize hk : max x.body.length y.body.length = k
  have hx := toInt_bounds_of_le (x := x) (k := k) (by omega)
  have hy := toInt_bounds_of_le (x := y) (k := k) (by omega)
  have hroom := four_mul_base_lt k
  refine toInt_addCarry (length_pad (by omega)) (length_pad (by omega)) ?_ (by omega)
  have h1 := (toNat_pad_modEq (x := x) (k := k + 1) (by omega)).add (toNat_pad_modEq (x := y) (by omega))
  simpa using h1

theorem toInt_sub (x y : WordStream) : (x.sub y).toInt = x.toInt - y.toInt := by
  unfold sub
  generalize hk : max x.body.length y.body.length = k
  have hx := toInt_bounds_of_le (x := x) (k := k) (by omega)
  have hy := toInt_bounds_of_le (x := y) (k := k) (by omega)
  have hroom := four_mul_base_lt k
  have hly : (y.pad (k + 1)).length = k + 1 := length_pad (by omega)
  refine toInt_addCarry (length_pad (by omega)) ((List.length_map _).trans hly) ?_ (by omega)
  -- a difference is the sum with the complement and a carry
  have hnot := Numeral.toNat_map_not (y.pad (k + 1))
  rw [hly] at hnot
  calc ((x.pad (k + 1)).toNat + Numeral.toNat ((y.pad (k + 1)).map (~~~ ·)) + true.toNat : ℤ)
      = (x.pad (k + 1)).toNat - (y.pad (k + 1)).toNat + 2 ^ (64 * (k + 1)) * 1 := by
        have h1 : (Numeral.toNat ((y.pad (k + 1)).map (~~~ ·)) : ℤ) + (y.pad (k + 1)).toNat + 1 =
          2 ^ (64 * (k + 1)) := by exact_mod_cast hnot
        simp only [Bool.toNat_true, Nat.cast_one]
        omega
    _ ≡ (x.pad (k + 1)).toNat - (y.pad (k + 1)).toNat [ZMOD 2 ^ (64 * (k + 1))] := Int.modEq_add_fac_self
    _ ≡ x.toInt - y.toInt [ZMOD 2 ^ (64 * (k + 1))] :=
        (toNat_pad_modEq (by omega)).sub (toNat_pad_modEq (by omega))

/-! ## Complement -/

/-- Flipping every bit negates the value and takes one away. -/
theorem toInt_complement (x : WordStream) : x.complement.toInt = -x.toInt - 1 := by
  have hnot : (Numeral.toNat (x.body.map (~~~ ·)) : ℤ) + x.body.toNat + 1 = 2 ^ (64 * x.body.length) := by
    exact_mod_cast Numeral.toNat_map_not x.body
  show (Numeral.toNat (x.body.map (~~~ ·)) : ℤ) - (if !x.fill then 2 ^ (64 * (x.body.map (~~~ ·)).length) else 0) =
    -(x.body.toNat - if x.fill then 2 ^ (64 * x.body.length) else 0) - 1
  rw [List.length_map]
  cases x.fill with
  | false =>
    simp only [Bool.not_false, if_true, Bool.false_eq_true, if_false]
    omega
  | true =>
    simp only [Bool.not_true, if_true, Bool.false_eq_true, if_false]
    omega

/-! ## Products -/

theorem length_subtractAt {offset : ℕ} {xs ys : Numeral 64} (h : offset + ys.length ≤ xs.length) :
    (subtractAt offset xs ys).length = xs.length := by
  unfold subtractAt
  have hpad : (xs.drop offset).length = (ys.rightpad (xs.drop offset).length 0).length := by
    rw [List.length_rightpad, List.length_drop]
    omega
  rw [List.length_append, Numeral.length_subBorrow hpad, List.length_take, List.length_drop]
  omega

/-- A subtraction some places up is exact up to a borrow out of the top. -/
theorem toNat_subtractAt_modEq {offset : ℕ} {xs ys : Numeral 64} (h : offset + ys.length ≤ xs.length) :
    (Numeral.toNat (subtractAt offset xs ys) : ℤ) ≡ xs.toNat - 2 ^ (64 * offset) * ys.toNat
      [ZMOD 2 ^ (64 * xs.length)] := by
  have hpad : (xs.drop offset).length = (ys.rightpad (xs.drop offset).length 0).length := by
    rw [List.length_rightpad, List.length_drop]
    omega
  have htake : (xs.take offset).length = offset := by
    rw [List.length_take]
    omega
  have hdrop : offset + (xs.drop offset).length = xs.length := by
    rw [List.length_drop]
    omega
  have hsub := Numeral.subBorrow_recompose hpad false
  have hxs := Numeral.toNat_take_add_drop (show offset ≤ xs.length by omega)
  rw [Numeral.toNat_rightpad_zero] at hsub
  unfold subtractAt
  rw [Numeral.toNat_append, htake, ← hxs, ← hdrop, Nat.mul_add, pow_add]
  generalize Numeral.subBorrow (xs.drop offset) (ys.rightpad (xs.drop offset).length 0) false = result at hsub ⊢
  -- the words below are untouched, and the borrow out of the top is a multiple of the power
  have hup : (Numeral.toNat result.1 : ℤ) + ys.toNat =
      Numeral.toNat (xs.drop offset) + 2 ^ (64 * (xs.drop offset).length) * result.2.toNat := by
    exact_mod_cast hsub
  refine Int.modEq_iff_dvd.mpr ⟨-result.2.toNat, ?_⟩
  push_cast
  linear_combination -2 ^ (64 * offset) * hup

/-- What a set fill of one factor takes from the product of the bodies. -/
theorem correct_fill (fill : Bool) (offset : ℕ) {xs ys : Numeral 64} (h : offset + ys.length ≤ xs.length) :
    (if fill then subtractAt offset xs ys else xs).length = xs.length ∧
      (Numeral.toNat (if fill then subtractAt offset xs ys else xs) : ℤ) ≡
        xs.toNat - (if fill then 2 ^ (64 * offset) else 0) * ys.toNat [ZMOD 2 ^ (64 * xs.length)] := by
  cases fill
  · simp
  · exact ⟨length_subtractAt h, toNat_subtractAt_modEq h⟩

/-- What two set fills give back to it. -/
theorem correct_fills (p q : Bool) {n m : ℕ} {xs : Numeral 64} (h : xs.length = n + m + 1) :
    (if p && q then xs.modify (n + m) (· + 1) else xs).length = xs.length ∧
      (Numeral.toNat (if p && q then xs.modify (n + m) (· + 1) else xs) : ℤ) ≡
        xs.toNat + (if p then 2 ^ (64 * n) else 0) * (if q then 2 ^ (64 * m) else 0)
          [ZMOD 2 ^ (64 * xs.length)] := by
  have h1 := Numeral.toNat_modify_modEq h
  rw [Nat.mul_add, pow_add] at h1
  cases p <;> cases q
  · simp
  · simp
  · simp
  · exact ⟨List.length_modify .., h1⟩

theorem abs_mul_le (x y : WordStream) :
    |x.toInt * y.toInt| ≤ 2 ^ (64 * (x.body.length + y.body.length)) := by
  have hx := x.toInt_bounds
  have hy := y.toInt_bounds
  rw [abs_mul, Nat.mul_add, pow_add]
  exact mul_le_mul (abs_le.mpr (by omega)) (abs_le.mpr (by omega)) (abs_nonneg _) (by positivity)

/-- The product is read off words that are as many as those of both bodies and one guard word, and that are congruent to
it: what the corrections borrow from beyond the top, one from the other, is a multiple of the power above. -/
theorem exists_mul_eq_ofGuarded (x y : WordStream) : ∃ words : Numeral 64, x.mul y = ofGuarded words ∧
    words.length = x.body.length + y.body.length + 1 ∧
      (words.toNat : ℤ) ≡ x.toInt * y.toInt [ZMOD 2 ^ (64 * words.length)] := by
  obtain ⟨xs, p⟩ := x
  obtain ⟨ys, q⟩ := y
  refine ⟨_, rfl, ?_⟩
  simp only
  have hlen : (Numeral.mul xs ys ++ [0]).length = xs.length + ys.length + 1 := by
    rw [List.length_append, Numeral.length_mul, List.length_singleton]
  have hvalue : Numeral.toNat (Numeral.mul xs ys ++ [0]) = xs.toNat * ys.toNat := by
    rw [Numeral.toNat_append, Numeral.toNat_mul]
    simp
  generalize Numeral.mul xs ys ++ [0] = product at hlen hvalue ⊢
  -- one correction after the other, each on the words that the one before it leaves
  obtain ⟨hlen1, hvalue1⟩ := correct_fill p xs.length (show xs.length + ys.length ≤ product.length by omega)
  generalize (if p then subtractAt xs.length product ys else product) = product1 at hlen1 hvalue1 ⊢
  obtain ⟨hlen2, hvalue2⟩ := correct_fill q ys.length (show ys.length + xs.length ≤ product1.length by omega)
  generalize (if q then subtractAt ys.length product1 xs else product1) = product2 at hlen2 hvalue2 ⊢
  obtain ⟨hlen3, hvalue3⟩ := correct_fills p q (show product2.length = xs.length + ys.length + 1 by omega)
  generalize (if p && q then product2.modify (xs.length + ys.length) (· + 1) else product2) = words
    at hlen3 hvalue3 ⊢
  refine ⟨by omega, ?_⟩
  rw [hlen1] at hvalue2
  rw [hlen2, hlen1] at hvalue3
  rw [hlen3, hlen2, hlen1]
  refine (hvalue3.trans ((hvalue2.trans (hvalue1.sub_right _)).add_right _)).trans (congrArg (· % _) ?_)
  rw [hvalue]
  unfold toInt
  push_cast
  ring

theorem length_body_mul (x y : WordStream) :
    (x.mul y).body.length = x.body.length + y.body.length + 1 := by
  obtain ⟨words, hmul, hlen, -⟩ := exists_mul_eq_ofGuarded x y
  rw [hmul]
  exact hlen

theorem toInt_mul (x y : WordStream) : (x.mul y).toInt = x.toInt * y.toInt := by
  have hbound := abs_le.mp (abs_mul_le x y)
  have hroom := four_mul_base_lt (x.body.length + y.body.length)
  obtain ⟨words, hmul, hlen, hmod⟩ := exists_mul_eq_ofGuarded x y
  rw [hmul]
  refine toInt_ofGuarded (List.ne_nil_of_length_eq_add_one hlen) hmod ?_
  rw [hlen]
  omega

end WordStream

end TwosComplement
