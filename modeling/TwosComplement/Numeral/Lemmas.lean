import TwosComplement.Numeral.Basic

/-!
# Numeral/Lemmas — the limb chains compute exactly

* `toNat_append`, `toNat_lt`, `toNat_trim`: the number of a numeral by its limbs.
* `exists_trim_eq_concat`: a trimmed numeral is empty or ends in a nonzero limb.
* `addCarry_recompose`, `subBorrow_recompose`: limbs and the last carry together are the exact result.
* `toNat_mulAddRow`, `toNat_mul`: products lose nothing, since they are as long as their factors together.
* `compare_eq_compare_toNat`: comparing from the top limb down compares the numbers.
-/

namespace TwosComplement

-- powers are those of the core library, whatever else is imported
attribute [local instance (high)] instPowNat instNatPowNat Int.instNatPow

namespace Numeral

variable {w : Nat}

/-! ## Limbs and numbers -/

@[simp] theorem toNat_nil : toNat ([] : Numeral w) = 0 := rfl

@[simp] theorem toNat_cons (x : Limb w) (xs : Numeral w) : toNat (x :: xs) = x.toNat + 2 ^ w * toNat xs := rfl

theorem toNat_append (xs ys : Numeral w) :
    toNat (xs ++ ys) = toNat xs + 2 ^ (w * xs.length) * toNat ys := by
  induction xs with
  | nil => simp
  | cons x xs ih =>
    rw [List.cons_append, toNat_cons, ih, toNat_cons, List.length_cons, Nat.mul_succ, Nat.pow_add,
      Nat.mul_add, Nat.add_assoc, Nat.mul_comm (2 ^ (w * xs.length)) (2 ^ w), Nat.mul_assoc]

theorem toNat_concat (xs : Numeral w) (x : Limb w) :
    toNat (xs ++ [x]) = toNat xs + 2 ^ (w * xs.length) * x.toNat := by
  rw [toNat_append, toNat_cons, toNat_nil, Nat.mul_zero, Nat.add_zero]

theorem toNat_take_add_drop {xs : Numeral w} {n : Nat} (h : n ≤ xs.length) :
    toNat (xs.take n) + 2 ^ (w * n) * toNat (xs.drop n) = toNat xs := by
  have split := toNat_append (xs.take n) (xs.drop n)
  rw [List.take_append_drop, List.length_take, Nat.min_eq_left h] at split
  exact split.symm

theorem toNat_lt (xs : Numeral w) : toNat xs < 2 ^ (w * xs.length) := by
  induction xs with
  | nil => simp
  | cons x xs ih =>
    rw [toNat_cons, List.length_cons, Nat.mul_succ, Nat.pow_add, Nat.mul_comm (2 ^ (w * xs.length))]
    exact x.toNat_add_mul_lt ih

/-- A number that fits into the first limbs is in them. -/
theorem toNat_take_of_lt {xs : Numeral w} {n : Nat} (h : n ≤ xs.length) (lt : toNat xs < 2 ^ (w * n)) :
    toNat (xs.take n) = toNat xs := by
  have split := toNat_take_add_drop h
  cases upper : toNat (xs.drop n) with
  | zero => rw [← split, upper, Nat.mul_zero, Nat.add_zero]
  | succ k =>
    rw [upper, Nat.mul_succ] at split
    omega

theorem toNat_replicate_zero (n : Nat) : toNat (List.replicate n (0 : Limb w)) = 0 := by
  induction n with
  | zero => rfl
  | succ n ih => rw [List.replicate_succ, toNat_cons, ih]; simp

theorem toNat_trim (xs : Numeral w) : toNat xs.trim = toNat xs := by
  unfold trim
  induction xs with
  | nil => rfl
  | cons y ys ih =>
    unfold dropTop
    cases rest : dropTop 0 ys with
    | nil =>
      rw [rest] at ih
      show toNat (if y = 0 then [] else [y]) = toNat (y :: ys)
      rw [toNat_cons, ← ih]
      by_cases h : y = 0
      · rw [if_pos h, h]
        simp
      · rw [if_neg h]
        simp
    | cons z zs =>
      show toNat (y :: z :: zs) = toNat (y :: ys)
      rw [toNat_cons, ← rest, ih, toNat_cons]

theorem dropTop_eq_nil_iff {x : Limb w} {ys : Numeral w} : dropTop x ys = [] ↔ ∀ y ∈ ys, y = x := by
  induction ys with
  | nil => simp [dropTop]
  | cons y ys ih =>
    unfold dropTop
    cases rest : dropTop x ys with
    | nil =>
      rw [rest, eq_self, true_iff] at ih
      by_cases h : y = x
      · simpa [h] using ih
      · simp [h]
    | cons z zs =>
      rw [rest] at ih
      simp only [reduceCtorEq, false_iff] at ih ⊢
      exact fun all => ih fun a ha => all a (List.mem_cons_of_mem y ha)

/-- What is left does not end in the limb that is dropped. -/
theorem getLast?_dropTop_ne (x : Limb w) (ys : Numeral w) : (dropTop x ys).getLast? ≠ some x := by
  induction ys with
  | nil => simp [dropTop]
  | cons y ys ih =>
    unfold dropTop
    cases rest : dropTop x ys with
    | nil =>
      by_cases h : y = x
      · simp [h]
      · simp [h]
    | cons z zs =>
      rw [rest] at ih
      simpa [List.getLast?_cons_cons] using ih

/-- A trimmed numeral is empty or ends in a nonzero limb. -/
theorem exists_trim_eq_concat {xs : Numeral w} (h : xs.trim ≠ []) :
    ∃ (ys : Numeral w) (top : Limb w), xs.trim = ys ++ [top] ∧ top ≠ 0 := by
  refine ⟨xs.trim.dropLast, xs.trim.getLast h, (List.dropLast_concat_getLast h).symm, fun zero => ?_⟩
  exact getLast?_dropTop_ne 0 xs ((List.getLast?_eq_some_getLast h).trans (congrArg some zero))

/-! ## Sums and differences -/

theorem length_addCarry {xs ys : Numeral w} (h : xs.length = ys.length) (carry : Bool) :
    (addCarry xs ys carry).1.length = xs.length := by
  induction xs generalizing ys carry with
  | nil => rfl
  | cons x xs ih =>
    cases ys with
    | nil => cases h
    | cons y ys => simp [addCarry, ih (Nat.succ.inj h)]

theorem length_subBorrow {xs ys : Numeral w} (h : xs.length = ys.length) (borrow : Bool) :
    (subBorrow xs ys borrow).1.length = xs.length := by
  induction xs generalizing ys borrow with
  | nil => rfl
  | cons x xs ih =>
    cases ys with
    | nil => cases h
    | cons y ys => simp [subBorrow, ih (Nat.succ.inj h)]

/-- One limb of a chain, when the limbs above it already compute exactly. -/
theorem chain_step {b P h t x X y Y c u o : Nat} (head : h + b * u = x + y + c)
    (tail : t + P * o = X + Y + u) : h + b * t + P * b * o = x + b * X + (y + b * Y) + c := by
  have scaled := congrArg (b * ·) tail
  simp only [Nat.mul_add] at scaled
  rw [Nat.mul_comm P b, Nat.mul_assoc]
  omega

theorem addCarry_recompose {xs ys : Numeral w} (h : xs.length = ys.length) (carry : Bool) :
    toNat (addCarry xs ys carry).1 + 2 ^ (w * xs.length) * (addCarry xs ys carry).2.toNat =
      toNat xs + toNat ys + carry.toNat := by
  induction xs generalizing ys carry with
  | nil =>
    cases ys with
    | nil => simp [addCarry]
    | cons y ys => cases h
  | cons x xs ih =>
    cases ys with
    | nil => cases h
    | cons y ys =>
      rw [List.length_cons, Nat.mul_succ, Nat.pow_add]
      exact chain_step (Limb.addCarry_recompose x y carry) (ih (Nat.succ.inj h) _)

theorem subBorrow_recompose {xs ys : Numeral w} (h : xs.length = ys.length) (borrow : Bool) :
    toNat (subBorrow xs ys borrow).1 + toNat ys + borrow.toNat =
      toNat xs + 2 ^ (w * xs.length) * (subBorrow xs ys borrow).2.toNat := by
  induction xs generalizing ys borrow with
  | nil =>
    cases ys with
    | nil => simp [subBorrow]
    | cons y ys => cases h
  | cons x xs ih =>
    cases ys with
    | nil => cases h
    | cons y ys =>
      have head := Limb.subBorrow_recompose x y borrow
      have tail := congrArg (2 ^ w * ·) (ih (Nat.succ.inj h) (Limb.subBorrow x y borrow).2)
      simp only [Nat.mul_add] at tail
      show (Limb.subBorrow x y borrow).1.toNat +
        2 ^ w * toNat (subBorrow xs ys (Limb.subBorrow x y borrow).2).1 +
          (y.toNat + 2 ^ w * toNat ys) + borrow.toNat = x.toNat + 2 ^ w * toNat xs +
            2 ^ (w * (xs.length + 1)) * (subBorrow xs ys (Limb.subBorrow x y borrow).2).2.toNat
      rw [Nat.mul_succ w, Nat.pow_add, Nat.mul_comm (2 ^ (w * xs.length)), Nat.mul_assoc]
      omega

theorem toNat_addCarry {xs ys : Numeral w} (h : xs.length = ys.length) (carry : Bool) :
    toNat (addCarry xs ys carry).1 = (toNat xs + toNat ys + carry.toNat) % 2 ^ (w * xs.length) := by
  have fits := toNat_lt (addCarry xs ys carry).1
  rw [length_addCarry h] at fits
  rw [← addCarry_recompose h, Nat.add_mul_mod_self_left, Nat.mod_eq_of_lt fits]

/-- A difference borrows just when it drops below zero. -/
theorem subBorrow_borrow {xs ys : Numeral w} (h : xs.length = ys.length) :
    (subBorrow xs ys false).2 = decide (toNat xs < toNat ys) := by
  have whole := subBorrow_recompose h false
  have fits := toNat_lt (subBorrow xs ys false).1
  rw [length_subBorrow h] at fits
  cases borrow : (subBorrow xs ys false).2 with
  | false =>
    rw [borrow, Bool.toNat_false, Nat.mul_zero] at whole
    exact (decide_eq_false (by omega)).symm
  | true =>
    rw [borrow, Bool.toNat_true, Bool.toNat_false, Nat.mul_one] at whole
    exact (decide_eq_true (by omega)).symm

theorem toNat_subBorrow_of_le {xs ys : Numeral w} (h : xs.length = ys.length) (le : toNat ys ≤ toNat xs) :
    toNat (subBorrow xs ys false).1 = toNat xs - toNat ys := by
  have whole := subBorrow_recompose h false
  rw [subBorrow_borrow h, decide_eq_false (Nat.not_lt.2 le), Bool.toNat_false, Nat.mul_zero] at whole
  omega

theorem toNat_subBorrow_of_lt {xs ys : Numeral w} (h : xs.length = ys.length) (lt : toNat xs < toNat ys) :
    toNat (subBorrow xs ys false).1 = toNat xs + 2 ^ (w * xs.length) - toNat ys := by
  have whole := subBorrow_recompose h false
  rw [subBorrow_borrow h, decide_eq_true lt, Bool.toNat_true, Bool.toNat_false, Nat.mul_one] at whole
  omega

/-! ## Products -/

theorem length_mulAddRow (a : Limb w) {ys acc : Numeral w} (h : acc.length = ys.length) (carry : Limb w) :
    (mulAddRow a ys acc carry).length = ys.length + 1 := by
  induction ys generalizing acc carry with
  | nil => rfl
  | cons y ys ih =>
    cases acc with
    | nil => cases h
    | cons t ts => simp [mulAddRow, ih (Nat.succ.inj h)]

theorem toNat_mulAddRow (a : Limb w) {ys acc : Numeral w} (h : acc.length = ys.length) (carry : Limb w) :
    toNat (mulAddRow a ys acc carry) = a.toNat * toNat ys + toNat acc + carry.toNat := by
  induction ys generalizing acc carry with
  | nil =>
    cases acc with
    | nil => simp [mulAddRow]
    | cons t ts => cases h
  | cons y ys ih =>
    cases acc with
    | nil => cases h
    | cons t ts =>
      have head := Limb.toNat_mulAdd a y t carry
      unfold DoubleWidth.toNat at head
      show (Limb.mulAdd a y t carry).low.toNat +
        2 ^ w * toNat (mulAddRow a ys ts (Limb.mulAdd a y t carry).high) = _
      rw [ih (Nat.succ.inj h), toNat_cons, toNat_cons]
      simp only [Nat.mul_add]
      rw [Nat.mul_left_comm a.toNat (2 ^ w)]
      omega

theorem toNat_zeros (ys : Numeral w) : toNat (ys.map fun _ => (0 : Limb w)) = 0 := by
  rw [List.map_const', toNat_replicate_zero]

theorem toNat_mulRow (a : Limb w) (ys : Numeral w) : toNat (mulRow a ys) = a.toNat * toNat ys := by
  unfold mulRow
  rw [toNat_mulAddRow a (List.length_map _), toNat_zeros]
  simp

theorem length_mulRow (a : Limb w) (ys : Numeral w) : (mulRow a ys).length = ys.length + 1 :=
  length_mulAddRow a (List.length_map _) 0

theorem length_mulAdd (xs ys : Numeral w) {acc : Numeral w} (h : acc.length = ys.length) :
    (mulAdd ys xs acc).length = xs.length + ys.length := by
  induction xs generalizing acc with
  | nil => simpa [mulAdd] using h
  | cons x xs ih =>
    have length := length_mulAddRow x h 0
    unfold mulAdd
    cases row : mulAddRow x ys acc 0 with
    | nil => rw [row] at length; cases length
    | cons z zs =>
      rw [row] at length
      simp only [List.length_cons, ih (Nat.succ.inj length)]
      omega

theorem toNat_mulAdd (xs ys : Numeral w) {acc : Numeral w} (h : acc.length = ys.length) :
    toNat (mulAdd ys xs acc) = toNat xs * toNat ys + toNat acc := by
  induction xs generalizing acc with
  | nil => simp [mulAdd]
  | cons x xs ih =>
    have length := length_mulAddRow x h 0
    have value := toNat_mulAddRow x h 0
    unfold mulAdd
    cases row : mulAddRow x ys acc 0 with
    | nil => rw [row] at length; cases length
    | cons z zs =>
      rw [row] at length value
      rw [toNat_cons] at value
      simp only [BitVec.ofNat_eq_ofNat, BitVec.toNat_zero] at value
      show z.toNat + 2 ^ w * toNat (mulAdd ys xs zs) = _
      rw [ih (Nat.succ.inj length), toNat_cons, Nat.mul_add, Nat.add_mul, Nat.mul_assoc]
      omega

theorem length_mul (xs ys : Numeral w) : (mul xs ys).length = xs.length + ys.length :=
  length_mulAdd xs ys (List.length_map _)

theorem toNat_mul (xs ys : Numeral w) : toNat (mul xs ys) = toNat xs * toNat ys := by
  unfold mul
  rw [toNat_mulAdd xs ys (List.length_map _), toNat_zeros, Nat.add_zero]

/-! ## Shifts and order -/

/-- By nothing, the limb below would lose all its bits. -/
theorem shiftLeft_cons (shift : Nat) (below x : Limb w) (xs : Numeral w) :
    shiftLeft shift below (x :: xs) = (x <<< shift ||| below >>> (w - shift)) :: shiftLeft shift x xs := by
  rw [shiftLeft]
  split
  case isTrue h =>
    rw [h, BitVec.shiftLeft_zero, Nat.sub_zero, BitVec.ushiftRight_eq_zero (Nat.le_refl w), BitVec.or_zero]
  case isFalse => rfl

theorem shiftRight_cons (shift : Nat) (above x : Limb w) (xs : Numeral w) :
    shiftRight shift above (x :: xs) =
      (x >>> shift ||| xs.headD above <<< (w - shift)) :: shiftRight shift above xs := by
  rw [shiftRight]
  split
  case isTrue h =>
    rw [h, BitVec.ushiftRight_zero, Nat.sub_zero, BitVec.shiftLeft_eq_zero (Nat.le_refl w), BitVec.or_zero]
  case isFalse => rfl

@[simp] theorem length_shiftLeft (shift : Nat) (below : Limb w) (xs : Numeral w) :
    (shiftLeft shift below xs).length = xs.length := by
  induction xs generalizing below with
  | nil => rfl
  | cons x xs ih => simp [shiftLeft, ih]

@[simp] theorem length_shiftRight (shift : Nat) (above : Limb w) (xs : Numeral w) :
    (shiftRight shift above xs).length = xs.length := by
  induction xs with
  | nil => rfl
  | cons x xs ih => simp [shiftRight, ih]

/-- The limbs above decide, whatever the limbs below. -/
theorem toNat_cons_lt {xs ys : Numeral w} (x y : Limb w) (h : toNat xs < toNat ys) :
    toNat (x :: xs) < toNat (y :: ys) := by
  rw [toNat_cons y]
  exact Nat.lt_add_left _ (x.toNat_add_mul_lt h)

theorem compare_eq_compare_toNat {xs ys : Numeral w} (h : xs.length = ys.length) :
    compare xs ys = Ord.compare (toNat xs) (toNat ys) := by
  induction xs generalizing ys with
  | nil =>
    cases ys with
    | nil => rfl
    | cons y ys => cases h
  | cons x xs ih =>
    cases ys with
    | nil => cases h
    | cons y ys =>
      unfold compare
      rw [ih (Nat.succ.inj h)]
      rcases Nat.lt_trichotomy (toNat xs) (toNat ys) with l | l | l
      · rw [Nat.compare_eq_lt.2 l, Nat.compare_eq_lt.2 (toNat_cons_lt x y l)]
        rfl
      · rw [toNat_cons, toNat_cons, l, Nat.compare_eq_eq.2 rfl]
        show Ord.compare x.toNat y.toNat = _
        rcases Nat.lt_trichotomy x.toNat y.toNat with k | k | k
        · rw [Nat.compare_eq_lt.2 k, Nat.compare_eq_lt.2 (Nat.add_lt_add_right k _)]
        · rw [k, Nat.compare_eq_eq.2 rfl, Nat.compare_eq_eq.2 rfl]
        · rw [Nat.compare_eq_gt.2 k, Nat.compare_eq_gt.2 (Nat.add_lt_add_right k _)]
      · rw [Nat.compare_eq_gt.2 l, Nat.compare_eq_gt.2 (toNat_cons_lt y x l)]
        rfl

end Numeral

end TwosComplement
