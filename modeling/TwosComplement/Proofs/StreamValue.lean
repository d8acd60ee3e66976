import Mathlib.Algebra.Order.Ring.Int
import Mathlib.Data.Int.ModEq
import Mathlib.Data.List.GetD
import Mathlib.Tactic.Positivity
import Mathlib.Tactic.Ring
import TwosComplement.Unbounded.Basic
import TwosComplement.WordStream.Lemmas

/-!
# Proofs/StreamValue — the words of a stream are those of its value

A stream is its first word and, one place up, the rest of it; this gives its words from its value alone.

* `WordStream.toInt_eq_word_add`, `WordStream.toInt_tail`, `WordStream.toInt_bounds`, `WordStream.fill_iff`.
* `WordStream.word_eq_ofInt`: every word of a stream is read off the value.
* `WordStream.toNat_words`, `WordStream.toInt_wordsOf`: back, the first words are the value modulo a power of
  the base, and enough of them with the sign are the value.
* `Unbounded.toInt_injective`: a trimmed stream is determined by its value.
-/

namespace TwosComplement

/-- The remainder by a product, low part first. -/
theorem emod_mul_eq (n : ℤ) {a b : ℤ} (ha : 0 < a) (hb : 0 < b) : n % (a * b) = n % a + a * (n / a % b) := by
  have h1 := Int.mul_ediv_add_emod n a
  have h2 := Int.mul_ediv_add_emod (n / a) b
  have h3 := Int.emod_nonneg n ha.ne'
  have h4 := Int.emod_lt_of_pos n ha
  have h5 := Int.emod_nonneg (n / a) hb.ne'
  have h6 := Int.emod_lt_of_pos (n / a) hb
  refine ((Int.ediv_emod_unique (q := n / a / b) (mul_pos ha hb)).mpr ⟨?_, by positivity, ?_⟩).2
  · calc n % a + a * (n / a % b) + a * b * (n / a / b) = a * (b * (n / a / b) + n / a % b) + n % a := by ring
      _ = n := by rw [h2, h1]
  · have h7 : a * (n / a % b + 1) ≤ a * b := mul_le_mul_of_nonneg_left (by omega) ha.le
    rw [mul_add] at h7
    omega

theorem Numeral.cast_toNat_lt {w : ℕ} (xs : Numeral w) : (xs.toNat : ℤ) < 2 ^ (w * xs.length) := by
  exact_mod_cast xs.toNat_lt

namespace WordStream

/-! ## The first word and the rest -/

/-- The stream without its first word. -/
def tail (x : WordStream) : WordStream := ⟨x.body.tail, x.fill⟩

theorem word_succ (x : WordStream) (i : ℕ) : x.word (i + 1) = x.tail.word i := by
  rcases x with ⟨_ | ⟨y, ys⟩, fill⟩
  · rfl
  · rfl

/-- The value of a stream from its first word and the rest. -/
theorem toInt_eq_word_add (x : WordStream) : x.toInt = (x.word 0).toNat + 2 ^ 64 * x.tail.toInt := by
  rcases x with ⟨_ | ⟨y, ys⟩, fill⟩
  · cases fill <;> rfl
  · show ((y.toNat + 2 ^ 64 * Numeral.toNat ys : ℕ) : ℤ) - (if fill then 2 ^ (64 * (ys.length + 1)) else 0) =
      y.toNat + 2 ^ 64 * (Numeral.toNat ys - if fill then 2 ^ (64 * ys.length) else 0)
    rw [Nat.mul_succ, pow_add]
    push_cast
    split <;> ring

/-- The rest of a stream is its value divided by the base. -/
theorem toInt_tail (x : WordStream) : x.tail.toInt = x.toInt / 2 ^ 64 := by
  have h0 := (x.word 0).isLt
  have hx := x.toInt_eq_word_add
  omega

theorem toInt_bounds (x : WordStream) :
    -2 ^ (64 * x.body.length) ≤ x.toInt ∧ x.toInt < 2 ^ (64 * x.body.length) := by
  have h := x.body.cast_toNat_lt
  have hp : (0 : ℤ) < 2 ^ (64 * x.body.length) := by positivity
  unfold toInt
  split <;> omega

/-- The fill is the sign of the value. -/
theorem fill_iff (x : WordStream) : x.fill = true ↔ x.toInt < 0 := by
  have h := x.body.cast_toNat_lt
  unfold toInt
  cases x.fill
  · simp
  · simp only [if_true, true_iff]
    omega

theorem fill_eq_false_iff (x : WordStream) : x.fill = false ↔ 0 ≤ x.toInt := by
  rw [← Bool.not_eq_true, fill_iff, not_lt]

/-! ## Words from the value -/

/-- The first `k` words of the two's complement of an integer. -/
def wordsOf (k : ℕ) (n : ℤ) : Numeral 64 := (List.range k).map fun i : ℕ => BitVec.ofInt 64 (n >>> (64 * i))

theorem shiftRight_word_succ (n : ℤ) (i : ℕ) : n >>> (64 * (i + 1)) = (n / 2 ^ 64) >>> (64 * i) := by
  rw [Nat.mul_succ, Nat.add_comm, Int.shiftRight_add, Int.shiftRight_eq_div_pow n 64]
  norm_num

theorem wordsOf_succ (k : ℕ) (n : ℤ) : wordsOf (k + 1) n = BitVec.ofInt 64 n :: wordsOf k (n / 2 ^ 64) := by
  unfold wordsOf
  rw [List.range_succ_eq_map, List.map_cons, List.map_map]
  rw [Nat.mul_zero, Int.shiftRight_zero]
  refine congrArg _ (List.map_congr_left fun i _ => ?_)
  exact congrArg _ (shiftRight_word_succ n i)

theorem toNat_wordsOf (k : ℕ) (n : ℤ) : ((wordsOf k n).toNat : ℤ) = n % 2 ^ (64 * k) := by
  induction k generalizing n with
  | zero => simp [wordsOf]
  | succ k ih =>
    have hb : (BitVec.ofInt 64 n).toNat = (n % 2 ^ 64).toNat := BitVec.toNat_ofInt n
    rw [wordsOf_succ, Numeral.toNat_cons, show 64 * (k + 1) = 64 + 64 * k by ring, pow_add,
      emod_mul_eq n (by positivity) (by positivity), ← ih, hb, Nat.cast_add,
      Int.toNat_of_nonneg (Int.emod_nonneg _ (by norm_num)), Nat.cast_mul]
    norm_num

/-- Every word of a stream is read off its value. -/
theorem word_eq_ofInt (x : WordStream) (i : ℕ) : x.word i = BitVec.ofInt 64 (x.toInt >>> (64 * i)) := by
  induction i generalizing x with
  | zero =>
    rw [toInt_eq_word_add]
    refine BitVec.eq_of_toNat_eq ?_
    have := (x.word 0).isLt
    rw [Nat.mul_zero, Int.shiftRight_zero, BitVec.toNat_ofInt]
    push_cast
    omega
  | succ i ih => rw [word_succ, ih, toInt_tail, shiftRight_word_succ]

theorem map_word_range (x : WordStream) (k : ℕ) : (List.range k).map x.word = wordsOf k x.toInt :=
  List.map_congr_left fun i _ => x.word_eq_ofInt i

/-- The first words of a stream are its value modulo a power of the base. -/
theorem toNat_words (x : WordStream) (k : ℕ) :
    ((Numeral.toNat ((List.range k).map x.word) : ℕ) : ℤ) = x.toInt % 2 ^ (64 * k) := by
  rw [map_word_range, toNat_wordsOf]

theorem emod_eq_of_sign {n m : ℤ} (h : -m ≤ n ∧ n < m) : n % m = n + if n < 0 then m else 0 := by
  split
  · rw [← Int.add_emod_right]
    exact Int.emod_eq_of_lt (by omega) (by omega)
  · rw [Int.emod_eq_of_lt (by omega) h.2, add_zero]

/-- The words of a body that is long enough, with the sign for ever after, have the value they are taken from. -/
theorem toInt_wordsOf {k : ℕ} {n : ℤ} (h : -2 ^ (64 * k) ≤ n ∧ n < 2 ^ (64 * k)) :
    (⟨wordsOf k n, decide (n < 0)⟩ : WordStream).toInt = n := by
  unfold toInt
  have hlen : (wordsOf k n).length = k := by simp [wordsOf]
  rw [toNat_wordsOf, emod_eq_of_sign h, hlen]
  simp

theorem pad_eq_wordsOf {x : WordStream} {k : ℕ} (h : x.body.length ≤ k) : x.pad k = wordsOf k x.toInt := by
  rw [← map_word_range]
  refine List.ext_getElem? fun i => ?_
  rw [getElem?_pad h, List.getElem?_map]
  by_cases hi : i < k
  · rw [if_pos hi, List.getElem?_range hi]
    rfl
  · rw [if_neg hi, List.getElem?_eq_none (by rw [List.length_range]; omega)]
    rfl

/-! ## The value determines the stream -/

theorem toInt_bounds_of_le {x : WordStream} {k : ℕ} (h : x.body.length ≤ k) :
    -2 ^ (64 * k) ≤ x.toInt ∧ x.toInt < 2 ^ (64 * k) := by
  have hp : (2 : ℤ) ^ (64 * x.body.length) ≤ 2 ^ (64 * k) := pow_le_pow_right₀ (by norm_num) (by omega)
  have hb := x.toInt_bounds
  omega

/-- Streams of one fill that agree in the words of both bodies have one value. -/
theorem toInt_eq_of_words {x y : WordStream} {k : ℕ} (hx : x.body.length ≤ k) (hy : y.body.length ≤ k)
    (hw : ∀ i < k, x.word i = y.word i) (hf : x.fill = y.fill) : x.toInt = y.toInt := by
  -- as many words as either body has give the value modulo their power, and the fill its sign
  have hmod : x.toInt % 2 ^ (64 * k) = y.toInt % 2 ^ (64 * k) := by
    rw [← toNat_words, ← toNat_words, List.map_congr_left fun i hi => hw i (List.mem_range.mp hi)]
  have hsign : x.toInt < 0 ↔ y.toInt < 0 := by rw [← fill_iff, ← fill_iff, hf]
  rw [emod_eq_of_sign (toInt_bounds_of_le hx), emod_eq_of_sign (toInt_bounds_of_le hy)] at hmod
  by_cases h : x.toInt < 0
  · rw [if_pos h, if_pos (hsign.mp h)] at hmod
    omega
  · rw [if_neg h, if_neg (mt hsign.mpr h)] at hmod
    omega

theorem fill_eq_of_toInt_eq {x y : WordStream} (h : x.toInt = y.toInt) : x.fill = y.fill := by
  rw [Bool.eq_iff_iff, fill_iff, fill_iff, h]

theorem word_eq_of_toInt_eq {x y : WordStream} (h : x.toInt = y.toInt) (i : ℕ) : x.word i = y.word i := by
  rw [word_eq_ofInt, word_eq_ofInt, h]

/-- A trimmed body is no longer than any other body of the same value. -/
theorem Trimmed.length_le {x y : WordStream} (hy : y.Trimmed) (h : x.toInt = y.toInt) :
    y.body.length ≤ x.body.length := by
  -- a longer body would end in a word of the fill
  refine Nat.le_of_not_lt fun hlt => hy ?_
  obtain ⟨n, hn⟩ : ∃ n, y.body.length = n + 1 := ⟨y.body.length - 1, by omega⟩
  have hword := word_eq_of_toInt_eq h n
  unfold word at hword
  rw [List.getD_eq_default _ _ (by omega), List.getD_eq_getElem _ _ (by omega)] at hword
  rw [List.getLast?_eq_getElem?, hn, Nat.add_sub_cancel, List.getElem?_eq_getElem (by omega), ← hword]
  unfold fillWord
  rw [fill_eq_of_toInt_eq h]

end WordStream

namespace Unbounded

variable {s : Signedness}

/-- The value determines an unbounded integer. -/
theorem toInt_injective {x y : Unbounded s} (h : x.toInt = y.toInt) : x = y := by
  have hlen : x.body.length = y.body.length :=
    Nat.le_antisymm (x.trimmed.length_le h.symm) (y.trimmed.length_le h)
  refine ext (List.ext_getElem hlen fun i hi hi' => ?_) (WordStream.fill_eq_of_toInt_eq h)
  have hword := WordStream.word_eq_of_toInt_eq h i
  unfold WordStream.word at hword
  rwa [List.getD_eq_getElem _ _ hi, List.getD_eq_getElem _ _ hi'] at hword

@[simp] theorem toInt_ofStream (x : WordStream) : (ofStream x : Unbounded s).toInt = x.toInt := x.toInt_trim

end Unbounded

end TwosComplement
