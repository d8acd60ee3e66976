import TwosComplement.Count
import TwosComplement.Proofs.FixedRange

/-!
# Proofs/CountSteps — counts move within their half

The packed word of a count moves by as much as the count does, in either half: a smaller deficit is a larger word. So one
law holds for both: a step adds to the packed word, and stops at the ends of the half that the word is in. What the count
says, what many steps do, the order and the undoing of a step all follow from that law.

* `Count.extent_eq_finite_iff`, `Count.extent_eq_infinite_iff`: what a count says, by its packed word.
* `Count.infinityMinus_stopsAt`, `Count.up_stopsAt`, `Count.down_stopsAt`, `Count.step_stopsAt`: where a step stops.
* `Count.settles_step`, `Count.moved_last`: a step by what the counts say, and a run of steps.
* `Count.isLE_compare_iff`: the order, by half and packed word.
* `Count.step_back`: an unflagged step is undone.
* `Count.steps_exact`: the contract.
-/

namespace TwosComplement

namespace Count

variable {c : Count}

/-! ## The packed word -/

/-- The least packed word of the half that a count is in. -/
def lowest (c : Count) : ℤ := if c.isInfinite then -2 ^ 63 else 0

/-- The greatest packed word of the half that a count is in. -/
def highest (c : Count) : ℤ := if c.isInfinite then -1 else 2 ^ 63 - 1

/-- The two halves, and the words in them. -/
theorem half_cases (c : Count) :
    (c.isInfinite = false ∧ c.lowest = 0 ∧ c.highest = 2 ^ 63 - 1 ∧ 0 ≤ c.packed.toInt ∧ c.packed.toInt ≤ 2 ^ 63 - 1) ∨
    (c.isInfinite = true ∧ c.lowest = -2 ^ 63 ∧ c.highest = -1 ∧ -2 ^ 63 ≤ c.packed.toInt ∧ c.packed.toInt ≤ -1) := by
  have hbounds := c.packed.toInt_bounds
  rw [Fixed.toInt_least_signed (by omega), Fixed.toInt_greatest_signed] at hbounds
  have hhalf : c.isInfinite = true ↔ c.packed.toInt < 0 := c.packed.negative_iff
  unfold lowest highest
  cases hinf : c.isInfinite with
  | false =>
    rw [hinf] at hhalf
    exact .inl ⟨rfl, rfl, rfl, Int.not_lt.mp (mt hhalf.mpr (by simp)), hbounds.2⟩
  | true => exact .inr ⟨rfl, rfl, rfl, hbounds.1, Int.le_sub_one_of_lt (hhalf.mp hinf)⟩

theorem bounds_of_finite (h : c.isInfinite = false) : 0 ≤ c.packed.toInt ∧ c.packed.toInt ≤ 2 ^ 63 - 1 := by
  rcases half_cases c with ⟨-, -, -, hc⟩ | ⟨hinf, -⟩
  · exact hc
  · exact absurd (h.symm.trans hinf) Bool.false_ne_true

theorem bounds_of_infinite (h : c.isInfinite = true) : -2 ^ 63 ≤ c.packed.toInt ∧ c.packed.toInt ≤ -1 := by
  rcases half_cases c with ⟨hinf, -⟩ | ⟨-, -, -, hc⟩
  · exact absurd (hinf.symm.trans h) Bool.false_ne_true
  · exact hc

theorem ends_congr {a b : Count} (h : a.isInfinite = b.isInfinite) : a.lowest = b.lowest ∧ a.highest = b.highest := by
  rw [lowest, highest, h]
  exact ⟨rfl, rfl⟩

theorem toInt_mem_half (c : Count) : c.lowest ≤ c.packed.toInt ∧ c.packed.toInt ≤ c.highest := by
  rcases half_cases c with h | h <;> omega

/-- The half of a count is that of any number in it. -/
theorem isInfinite_eq_of_mem_half {c next : Count}
    (h : c.lowest ≤ next.packed.toInt ∧ next.packed.toInt ≤ c.highest) : next.isInfinite = c.isInfinite := by
  rcases half_cases c with ⟨hinf, hc⟩ | ⟨hinf, hc⟩ <;> rcases half_cases next with ⟨hinf', hn⟩ | ⟨hinf', hn⟩ <;>
    rw [hinf, hinf'] <;> omega

/-- The word read unsigned, by which counts are ordered. -/
theorem toNat_packed (c : Count) : (c.packed.bits.toNat : ℤ) = c.packed.toInt + if c.isInfinite then 2 ^ 64 else 0 := by
  have hread : c.packed.toInt = c.packed.bits.toInt := rfl
  have hbits := c.packed.bits.isLt
  rw [BitVec.toInt_eq_toNat_cond] at hread
  rcases half_cases c with ⟨hinf, -, -, hc⟩ | ⟨hinf, -, -, hc⟩
  · rw [hinf, if_neg Bool.false_ne_true]
    split at hread <;> omega
  · rw [hinf, if_pos rfl]
    split at hread <;> omega

theorem toNat_of_finite (h : c.isInfinite = false) : (c.packed.bits.toNat : ℤ) = c.packed.toInt := by
  rw [toNat_packed, h, if_neg Bool.false_ne_true, add_zero]

theorem finite_of_nonneg (h : 0 ≤ c.packed.toInt) : c.isInfinite = false := by
  refine Bool.eq_false_of_not_eq_true fun hinf => ?_
  have hc := bounds_of_infinite hinf
  omega

theorem infinite_of_neg (h : c.packed.toInt < 0) : c.isInfinite = true := by
  refine Bool.eq_true_of_not_eq_false fun hinf => ?_
  have hc := bounds_of_finite hinf
  omega

theorem toInt_ofBits {x : Word} (h : x.toNat < 2 ^ 63) : (⟨x⟩ : Fixed .signed 64).toInt = x.toNat := by
  show x.toInt = x.toNat
  rw [BitVec.toInt_eq_toNat_cond, if_pos (by omega)]

theorem toInt_complement (a : Fixed .signed 64) : (~~~a).toInt = -1 - a.toInt := by
  have ha := a.bits.isLt
  show (~~~a.bits).toInt = -1 - a.bits.toInt
  rw [BitVec.toInt_eq_toNat_cond, BitVec.toInt_eq_toNat_cond, BitVec.toNat_not]
  split <;> split <;> omega

/-- The deficit of an infinite count, as the complement of its word. -/
theorem toNat_complement (h : c.isInfinite = true) : ((~~~c.packed).bits.toNat : ℤ) = -1 - c.packed.toInt := by
  have hword := toNat_packed c
  have hbits := c.packed.bits.isLt
  rw [h, if_pos rfl] at hword
  show ((~~~c.packed.bits).toNat : ℤ) = _
  rw [BitVec.toNat_not]
  omega

/-! ## What a count says -/

theorem extent_of_finite (h : c.isInfinite = false) : c.extent = .finite c.packed.bits.toNat := by
  rw [extent, deficit?, h]
  rfl

theorem extent_of_infinite (h : c.isInfinite = true) : c.extent = .infinite (~~~c.packed).bits.toNat := by
  rw [extent, deficit?, h]
  rfl

theorem extent_eq_finite_iff {n : ℕ} : c.extent = .finite n ↔ c.packed.toInt = n := by
  rcases half_cases c with ⟨hinf, -, -, hc⟩ | ⟨hinf, -, -, hc⟩
  · have hword := toNat_of_finite hinf
    rw [extent_of_finite hinf, Extent.finite.injEq]
    omega
  · rw [extent_of_infinite hinf]
    exact iff_of_false nofun (by omega)

theorem extent_eq_infinite_iff {d : ℕ} : c.extent = .infinite d ↔ c.packed.toInt = -1 - d := by
  rcases half_cases c with ⟨hinf, -, -, hc⟩ | ⟨hinf, -, -, hc⟩
  · rw [extent_of_finite hinf]
    exact iff_of_false nofun (by omega)
  · have hdeficit := toNat_complement hinf
    rw [extent_of_infinite hinf, Extent.infinite.injEq]
    omega

/-! ## One step -/

/-- A result of a step: the word it stops at, and when it is flagged. -/
structure StopsAt (next : Flagged Count) (n : ℤ) (short : Prop) : Prop where
  toInt_eq : next.value.packed.toInt = n
  flag_iff : next.flag = true ↔ short

theorem exists_wrap_eq_ok {n : ℤ} (h : -2 ^ 63 ≤ n ∧ n ≤ 2 ^ 63 - 1) :
    ∃ a : Fixed .signed 64, Fixed.wrap n = .ok a ∧ a.toInt = n := by
  have hn := (Fixed.toInt_ofInt_signed_iff (w := 64) (by omega) n).mpr h
  exact ⟨Fixed.ofInt n, Flagged.ext rfl ((Fixed.flag_wrap_eq_false_iff n).mpr hn), hn⟩

/-- The room above a finite count is what the word of the largest one has more. -/
theorem exists_room (h : c.isInfinite = false) : ∃ room : Fixed .signed 64,
    Fixed.greatest.sub c.packed = .ok room ∧ (room.bits.toNat : ℤ) = 2 ^ 63 - 1 - c.packed.toInt := by
  have hc := bounds_of_finite h
  have hgreatest : (Fixed.greatest : Fixed .signed 64).toInt = 2 ^ 63 - 1 := Fixed.toInt_greatest_signed
  obtain ⟨room, hroom, hvalue⟩ := exists_wrap_eq_ok (n := 2 ^ 63 - 1 - c.packed.toInt) (by omega)
  have hfinite : isInfinite ⟨room⟩ = false := finite_of_nonneg (hvalue ▸ by omega)
  refine ⟨room, ?_, (toNat_of_finite hfinite).trans hvalue⟩
  rw [Fixed.sub, hgreatest, hroom]

theorem exists_add {k : Word} (h : c.isInfinite = false) (hk : c.packed.toInt + k.toNat ≤ 2 ^ 63 - 1) :
    ∃ a : Fixed .signed 64, c.packed.add ⟨k⟩ = .ok a ∧ a.toInt = c.packed.toInt + k.toNat := by
  have hc := bounds_of_finite h
  rw [Fixed.add, toInt_ofBits (x := k) (by omega)]
  exact exists_wrap_eq_ok (by omega)

theorem exists_sub {k : Word} (hk : 0 ≤ c.packed.toInt - k.toNat) :
    ∃ a : Fixed .signed 64, c.packed.sub ⟨k⟩ = .ok a ∧ a.toInt = c.packed.toInt - k.toNat := by
  have hbounds := half_cases c
  rw [Fixed.sub, toInt_ofBits (x := k) (by omega)]
  exact exists_wrap_eq_ok (by omega)

theorem infinityMinus_stopsAt (deficit : Word) :
    StopsAt (infinityMinus deficit) (max (-1 - deficit.toNat) (-2 ^ 63)) (2 ^ 63 - 1 < deficit.toNat) := by
  have hgreatest : (Fixed.greatest : Fixed .signed 64).bits.toNat = 2 ^ 63 - 1 := by decide
  unfold infinityMinus
  by_cases h : (Fixed.greatest : Fixed .signed 64).bits < deficit
  · rw [if_pos h]
    rw [BitVec.lt_def, hgreatest] at h
    exact ⟨(Fixed.toInt_least_signed (by omega)).trans (by omega), iff_of_true rfl h⟩
  · rw [if_neg h]
    rw [BitVec.lt_def, hgreatest] at h
    refine ⟨(toInt_complement _).trans ?_, iff_of_false (by simp) h⟩
    rw [toInt_ofBits (by omega)]
    omega

/-- A finite count that has room for the step is added to, and stops at the largest one otherwise. -/
theorem up_stopsAt_of_finite (h : c.isInfinite = false) (k : Word) :
    StopsAt (c.up k) (min (c.packed.toInt + k.toNat) (2 ^ 63 - 1)) (2 ^ 63 - 1 < c.packed.toInt + k.toNat) := by
  obtain ⟨room, hroom, htoNat⟩ := exists_room h
  have hup : c.up k = if k ≤ room.bits then .ok ⟨(c.packed.add ⟨k⟩).value⟩ else .inexact ⟨Fixed.greatest⟩ := by
    rw [up, deficit?, h, hroom]
    rfl
  rw [hup]
  by_cases hk : k ≤ room.bits
  · rw [if_pos hk]
    rw [BitVec.le_def] at hk
    obtain ⟨a, ha, hvalue⟩ := exists_add h (k := k) (by omega)
    rw [ha]
    exact ⟨hvalue.trans (by omega), iff_of_false (by simp) (by omega)⟩
  · rw [if_neg hk]
    rw [BitVec.le_def] at hk
    exact ⟨Fixed.toInt_greatest_signed.trans (by omega), iff_of_true rfl (by omega)⟩

/-- The step is taken off the deficit of an infinite count. -/
theorem up_stopsAt_of_infinite (h : c.isInfinite = true) (k : Word) :
    StopsAt (c.up k) (min (c.packed.toInt + k.toNat) (-1)) (-1 < c.packed.toInt + k.toNat) := by
  have hc := bounds_of_infinite h
  have hdeficit := toNat_complement h
  have hleft := Limb.subBorrow_recompose (~~~c.packed).bits k false
  rcases hsub : Limb.subBorrow (~~~c.packed).bits k false with ⟨left, borrow⟩
  simp only [hsub, Bool.toNat_false] at hleft
  cases borrow with
  | false =>
    have hup : c.up k = infinityMinus left := by simp only [up, deficit?, h, reduceIte, hsub]
    obtain ⟨hvalue, hflag⟩ := infinityMinus_stopsAt left
    rw [Bool.toNat_false] at hleft
    rw [hup]
    exact ⟨hvalue.trans (by omega), hflag.trans (iff_of_false (by omega) (by omega))⟩
  | true =>
    -- the borrow tells that infinity is passed
    have hup : c.up k = .inexact infinity := by simp only [up, deficit?, h, reduceIte, hsub]
    have hvalue : (infinity : Count).packed.toInt = -1 := by decide
    rw [Bool.toNat_true] at hleft
    rw [hup]
    exact ⟨hvalue.trans (by omega), iff_of_true rfl (by omega)⟩

theorem up_stopsAt (c : Count) (k : Word) :
    StopsAt (c.up k) (min (c.packed.toInt + k.toNat) c.highest) (c.highest < c.packed.toInt + k.toNat) := by
  rcases half_cases c with ⟨hinf, -, hhigh, -⟩ | ⟨hinf, -, hhigh, -⟩ <;> rw [hhigh]
  · exact up_stopsAt_of_finite hinf k
  · exact up_stopsAt_of_infinite hinf k

/-- A finite count that is no smaller than the step is subtracted from, and stops at zero otherwise. -/
theorem down_stopsAt_of_finite (h : c.isInfinite = false) (k : Word) :
    StopsAt (c.down k) (max (c.packed.toInt - k.toNat) 0) (c.packed.toInt - k.toNat < 0) := by
  have hword := toNat_of_finite h
  have hdown : c.down k = if k ≤ c.packed.bits then .ok ⟨(c.packed.sub ⟨k⟩).value⟩ else .inexact zero := by
    rw [down, deficit?, h]
    rfl
  rw [hdown]
  by_cases hk : k ≤ c.packed.bits
  · rw [if_pos hk]
    rw [BitVec.le_def] at hk
    obtain ⟨a, ha, hvalue⟩ := exists_sub (c := c) (k := k) (by omega)
    rw [ha]
    exact ⟨hvalue.trans (by omega), iff_of_false (by simp) (by omega)⟩
  · rw [if_neg hk]
    rw [BitVec.le_def] at hk
    exact ⟨Fixed.toInt_zero.trans (by omega), iff_of_true rfl (by omega)⟩

/-- The step is added to the deficit of an infinite count. -/
theorem down_stopsAt_of_infinite (h : c.isInfinite = true) (k : Word) :
    StopsAt (c.down k) (max (c.packed.toInt - k.toNat) (-2 ^ 63)) (c.packed.toInt - k.toNat < -2 ^ 63) := by
  have hc := bounds_of_infinite h
  have hdeficit := toNat_complement h
  have htotal := Limb.addCarry_recompose (~~~c.packed).bits k false
  rcases hadd : Limb.addCarry (~~~c.packed).bits k false with ⟨total, carry⟩
  simp only [hadd, Bool.toNat_false] at htotal
  cases carry with
  | false =>
    have hdown : c.down k = infinityMinus total := by simp only [down, deficit?, h, reduceIte, hadd]
    obtain ⟨hvalue, hflag⟩ := infinityMinus_stopsAt total
    rw [Bool.toNat_false] at htotal
    rw [hdown]
    exact ⟨hvalue.trans (by omega), hflag.trans (by omega)⟩
  | true =>
    -- a carry is beyond the largest deficit as well
    have hdown : c.down k = .inexact ⟨Fixed.least⟩ := by simp only [down, deficit?, h, reduceIte, hadd]
    rw [Bool.toNat_true] at htotal
    rw [hdown]
    exact ⟨(Fixed.toInt_least_signed (by omega)).trans (by omega), iff_of_true rfl (by omega)⟩

theorem down_stopsAt (c : Count) (k : Word) :
    StopsAt (c.down k) (max (c.packed.toInt - k.toNat) c.lowest) (c.packed.toInt - k.toNat < c.lowest) := by
  rcases half_cases c with ⟨hinf, hlow, -, -⟩ | ⟨hinf, hlow, -, -⟩ <;> rw [hlow]
  · exact down_stopsAt_of_finite hinf k
  · exact down_stopsAt_of_infinite hinf k

/-- By how much a step moves a count that it does not stop. -/
def Step.shift : Step → ℤ
  | .up k => k.toNat
  | .down k => -k.toNat

/-- A step of either direction stops at the ends of the half. -/
theorem step_stopsAt (c : Count) (step : Step) :
    StopsAt (c.step step) (max c.lowest (min (c.packed.toInt + step.shift) c.highest))
      (¬ (c.lowest ≤ c.packed.toInt + step.shift ∧ c.packed.toInt + step.shift ≤ c.highest)) := by
  have hc := toInt_mem_half c
  cases step with
  | up k =>
    obtain ⟨hvalue, hflag⟩ := up_stopsAt c k
    rw [Step.shift]
    exact ⟨hvalue.trans (by omega), hflag.trans (by omega)⟩
  | down k =>
    obtain ⟨hvalue, hflag⟩ := down_stopsAt c k
    rw [Step.shift]
    exact ⟨hvalue.trans (by omega), hflag.trans (by omega)⟩

/-- No step leaves the half. -/
theorem isInfinite_step (c : Count) (step : Step) : (c.step step).value.isInfinite = c.isInfinite := by
  have hc := toInt_mem_half c
  apply isInfinite_eq_of_mem_half
  rw [(step_stopsAt c step).toInt_eq]
  omega

theorem toInt_step {step : Step} (h : (c.step step).flag = false) :
    (c.step step).value.packed.toInt = c.packed.toInt + step.shift := by
  obtain ⟨hvalue, hflag⟩ := step_stopsAt c step
  have hinside := not_not.mp (mt hflag.mpr (by rw [h]; exact Bool.false_ne_true))
  rw [hvalue]
  omega

/-! ## A step by what the counts say -/

/-- The largest number that a count can say. -/
def limit : ℤ := 2 ^ 63 - 1

/-- The number between zero and the limit that is nearest to `n`. -/
def nearest (n : ℤ) : ℕ := (min n limit).toNat

/-- A step by `amount` moves a number up and a deficit down; it stops at the nearest end and is flagged when the exact
number or deficit would leave the range from zero to the limit. -/
structure Settles (c : Count) (amount : ℤ) (next : Flagged Count) : Prop where
  finite (n : ℕ) : c.extent = .finite n →
    (next.flag = true ↔ ¬ (0 ≤ n + amount ∧ n + amount ≤ limit)) ∧ next.value.extent = .finite (nearest (n + amount))
  infinite (d : ℕ) : c.extent = .infinite d →
    (next.flag = true ↔ ¬ (0 ≤ d - amount ∧ d - amount ≤ limit)) ∧ next.value.extent = .infinite (nearest (d - amount))

theorem settles_step (c : Count) (step : Step) : Settles c step.shift (c.step step) := by
  obtain ⟨hvalue, hflag⟩ := step_stopsAt c step
  constructor
  · intro n hn
    rw [extent_eq_finite_iff] at hn ⊢
    rcases half_cases c with ⟨-, hlow, hhigh, -⟩ | ⟨-, -, -, hc⟩
    · rw [hflag, hvalue, hlow, hhigh, hn, nearest, limit]
      omega
    · omega
  · intro d hd
    rw [extent_eq_infinite_iff] at hd ⊢
    rcases half_cases c with ⟨-, -, -, hc⟩ | ⟨-, hlow, hhigh, -⟩
    · omega
    · rw [hflag, hvalue, hlow, hhigh, hd, nearest, limit]
      omega

/-! ## Many steps -/

/-- By how much a run moves a count that no step of it stops. -/
def total (steps : List Step) : ℤ := (steps.map Step.shift).sum

/-- The count after the last step. -/
def last (c : Count) (steps : List Step) : Count := ((c.trace steps).getLastD (.ok c)).value

theorem last_cons (c : Count) (step : Step) (steps : List Step) :
    last c (step :: steps) = last (c.step step).value steps := by
  show ((c.step step :: trace (c.step step).value steps).getLastD (.ok c)).value = _
  rw [List.getLastD_cons]
  cases steps <;> rfl

theorem isInfinite_trace (c : Count) (steps : List Step) :
    ∀ next ∈ c.trace steps, next.value.isInfinite = c.isInfinite := by
  induction steps generalizing c with
  | nil => exact List.forall_mem_nil _
  | cons step steps ih =>
    refine List.forall_mem_cons.mpr ⟨isInfinite_step c step, ?_⟩
    intro next hnext
    rw [ih _ next hnext, isInfinite_step]

theorem isInfinite_last (c : Count) (steps : List Step) : (last c steps).isInfinite = c.isInfinite := by
  induction steps generalizing c with
  | nil => rfl
  | cons step steps ih => rw [last_cons, ih, isInfinite_step]

/-- An unflagged run moves by the sum of its steps. -/
theorem toInt_last {steps : List Step} (h : ∀ next ∈ c.trace steps, next.flag = false) :
    (last c steps).packed.toInt = c.packed.toInt + total steps := by
  induction steps generalizing c with
  | nil => exact (add_zero _).symm
  | cons step steps ih =>
    obtain ⟨hstep, hrest⟩ := List.forall_mem_cons.mp h
    rw [last_cons, ih hrest, toInt_step hstep, total, total, List.map_cons, List.sum_cons, add_assoc]

/-- A run that moves by `amount` moves a number up by it and a deficit down by it. -/
structure Moved (c : Count) (amount : ℤ) (next : Count) : Prop where
  finite (n : ℕ) : c.extent = .finite n → ∃ m : ℕ, next.extent = .finite m ∧ (m : ℤ) = n + amount
  infinite (d : ℕ) : c.extent = .infinite d → ∃ e : ℕ, next.extent = .infinite e ∧ (e : ℤ) = d - amount

theorem moved_last {steps : List Step} (h : ∀ next ∈ c.trace steps, next.flag = false) :
    Moved c (total steps) (last c steps) := by
  have hhalf := isInfinite_last c steps
  have hword := toInt_last h
  constructor
  · intro n hn
    rw [extent_eq_finite_iff] at hn
    have hfinite := hhalf.trans (finite_of_nonneg (by omega))
    refine ⟨(last c steps).packed.bits.toNat, extent_of_finite hfinite, ?_⟩
    rw [toNat_of_finite hfinite, hword, hn]
  · intro d hd
    rw [extent_eq_infinite_iff] at hd
    have hinfinite := hhalf.trans (infinite_of_neg (by omega))
    refine ⟨(~~~(last c steps).packed).bits.toNat, extent_of_infinite hinfinite, ?_⟩
    rw [toNat_complement hinfinite]
    omega

/-! ## Order and undoing -/

/-- The order, by half and packed word. -/
theorem isLE_compare_iff (a b : Count) : (compare a b).isLE = true ↔
    a.isInfinite = b.isInfinite ∧ a.packed.toInt ≤ b.packed.toInt ∨ a.isInfinite = false ∧ b.isInfinite = true := by
  have ha := toNat_packed a
  have hb := toNat_packed b
  show (compare a.packed.bits.toNat b.packed.bits.toNat).isLE = true ↔ _
  rw [Nat.isLE_compare, ← Int.ofNat_le, ha, hb]
  -- the words of infinite counts, read unsigned, come after those of finite ones
  rcases half_cases a with ⟨hinf, -, -, hc⟩ | ⟨hinf, -, -, hc⟩ <;>
    rcases half_cases b with ⟨hinf', -, -, hc'⟩ | ⟨hinf', -, -, hc'⟩ <;>
    simp only [hinf, hinf', reduceIte, reduceCtorEq, Bool.false_eq_true, true_and, and_true, false_and, or_false,
      false_or, iff_true, iff_false] <;> omega

/-- A step that moves both counts by the same distance keeps their order. -/
theorem isLE_compare_step {a b : Count} (h : (compare a b).isLE = true) (step : Step) :
    (compare (a.step step).value (b.step step).value).isLE = true := by
  rw [isLE_compare_iff] at h ⊢
  rw [isInfinite_step, isInfinite_step, (step_stopsAt a step).toInt_eq, (step_stopsAt b step).toInt_eq]
  rcases h with ⟨hhalf, hle⟩ | hhalf
  · obtain ⟨hlow, hhigh⟩ := ends_congr hhalf
    rw [hlow, hhigh]
    exact .inl ⟨hhalf, by omega⟩
  · exact .inr hhalf

/-- The step of the same distance in the other direction. -/
def Step.back : Step → Step
  | .up k => .down k
  | .down k => .up k

theorem Step.shift_back (step : Step) : step.back.shift = -step.shift := by
  cases step with
  | up k => rfl
  | down k => exact (neg_neg _).symm

/-- An unflagged step is undone by the step back, which is unflagged too. -/
theorem step_back {step : Step} (h : (c.step step).flag = false) : (c.step step).value.step step.back = .ok c := by
  have hc := toInt_mem_half c
  obtain ⟨hlow, hhigh⟩ := ends_congr (isInfinite_step c step)
  obtain ⟨hvalue, hflag⟩ := step_stopsAt (c.step step).value step.back
  rw [hlow, hhigh, toInt_step h, Step.shift_back] at hvalue hflag
  have hword : ((c.step step).value.step step.back).value.packed = c.packed :=
    Fixed.toInt_injective (hvalue.trans (by omega))
  have hclear : ¬ ((c.step step).value.step step.back).flag = true := by
    rw [hflag]
    omega
  exact Flagged.ext (congrArg mk hword) (Bool.not_eq_true _ ▸ hclear)

/-- The words that a finite count computes with do not overflow: the room above it, and the word it moves to. -/
theorem words_exact (h : c.isInfinite = false) (k : Word) :
    (Fixed.greatest.sub c.packed).flag = false ∧
    (k ≤ (Fixed.greatest.sub c.packed).value.bits → (c.packed.add ⟨k⟩).flag = false) ∧
    (k ≤ c.packed.bits → (c.packed.sub ⟨k⟩).flag = false) := by
  have hword := toNat_of_finite h
  obtain ⟨room, hroom, htoNat⟩ := exists_room h
  rw [hroom]
  refine ⟨rfl, ?_, ?_⟩
  · intro hk
    replace hk : k.toNat ≤ room.bits.toNat := hk
    obtain ⟨a, ha, -⟩ := exists_add h (k := k) (by omega)
    rw [ha]
    rfl
  · intro hk
    replace hk : k.toNat ≤ c.packed.bits.toNat := hk
    obtain ⟨a, ha, -⟩ := exists_sub (c := c) (k := k) (by omega)
    rw [ha]
    rfl

/-- **Counts stay in their half, stop at its ends and keep their order, over any run.** No step of a run makes a finite
count infinite or an infinite one finite, and a run without a flag moves the count by the sum of its steps. Each step, from
any count, is flagged just when the exact number or deficit would leave the range from zero to the limit, and then stops at
the nearest end of it. Steps keep the order of counts, and an unflagged step is undone by the step back, without a flag.
No word that a finite count computes on the way overflows. -/
theorem steps_exact :
    (∀ (c : Count) (steps : List Step),
      (∀ next ∈ c.trace steps, next.value.isInfinite = c.isInfinite) ∧
      ((∀ next ∈ c.trace steps, next.flag = false) → Moved c (total steps) (last c steps))) ∧
    (∀ (c : Count) (step : Step), Settles c step.shift (c.step step)) ∧
    (∀ (a b : Count) (k : Word), (compare a b).isLE = true →
      (compare (a.up k).value (b.up k).value).isLE = true ∧ (compare (a.down k).value (b.down k).value).isLE = true) ∧
    (∀ (c : Count) (k : Word),
      ((c.up k).flag = false → (c.up k).value.down k = .ok c) ∧
      ((c.down k).flag = false → (c.down k).value.up k = .ok c)) ∧
    ∀ (c : Count) (k : Word), c.isInfinite = false →
      (Fixed.greatest.sub c.packed).flag = false ∧
      (k ≤ (Fixed.greatest.sub c.packed).value.bits → (c.packed.add ⟨k⟩).flag = false) ∧
      (k ≤ c.packed.bits → (c.packed.sub ⟨k⟩).flag = false) := by
  refine ⟨?_, settles_step, ?_, ?_, ?_⟩
  · intro c steps
    exact ⟨isInfinite_trace c steps, moved_last⟩
  · intro a b k h
    exact ⟨isLE_compare_step h (.up k), isLE_compare_step h (.down k)⟩
  · intro c k
    exact ⟨@step_back c (.up k), @step_back c (.down k)⟩
  · intro c k h
    exact words_exact h k

/-- One step beyond the largest deficit stops there. -/
example : infinity.down (BitVec.ofNat 64 (2 ^ 63)) = .inexact ⟨Fixed.least⟩ := by decide

end Count

end TwosComplement
