import Mathlib.Tactic.LinearCombination
import TwosComplement.Proofs.LimbShift
import TwosComplement.Proofs.StreamValue

/-!
# Proofs/StreamShift — shifting a stream multiplies or divides by a power of two

Upwards, whole words of zeros move the body; the bits that spill out of the one word of the fill above it are fill
bits, so that the fill of the result stands for them. Downwards, whole words are dropped, and the bits that come in
above the rest are fill bits.

* `WordStream.toInt_replicate_append`, `WordStream.toInt_drop`: the whole words.
* `WordStream.toInt_shiftLeft_body`, `WordStream.toInt_shiftRight_body`: the rest, by less than a word.
* `WordStream.toInt_shiftLeft`, `WordStream.toInt_shiftRight`: any distance, zero included.
-/

namespace TwosComplement

variable {k : ℕ}

namespace WordStream

/-! ## The fill -/

theorem toNat_fillWord (x : WordStream) : x.fillWord.toNat = if x.fill then 2 ^ 64 - 1 else 0 := toNat_filled x.fill

/-- A word of ones is made of ones on either side of a cut. -/
theorem ones_eq (hk : k ≤ 64) : 2 ^ 64 - 1 = (2 ^ k - 1) + 2 ^ k * (2 ^ (64 - k) - 1) := by
  have h1 := Nat.two_pow_pos (64 - k)
  have h2 := Nat.two_pow_pos k
  rw [Limb.two_pow_eq_mul hk, Nat.mul_sub, Nat.mul_one, Nat.mul_comm]
  have h3 := Nat.mul_le_mul_left (2 ^ k) h1
  omega

theorem spill_fillWord (hk : k ≤ 64) (x : WordStream) : Limb.spill k x.fillWord = if x.fill then 2 ^ k - 1 else 0 := by
  rw [Limb.spill_eq, toNat_fillWord]
  cases x.fill with
  | false => simp
  | true =>
    have hcut := ones_eq (Nat.sub_le 64 k)
    rw [Nat.sub_sub_self hk] at hcut
    have hpos := Nat.two_pow_pos (64 - k)
    show (2 ^ 64 - 1) / 2 ^ (64 - k) = 2 ^ k - 1
    rw [hcut, Nat.add_mul_div_left _ _ hpos, Nat.div_eq_of_lt (Nat.sub_lt hpos one_pos), Nat.zero_add]

theorem toNat_fillWord_mod (hk : k ≤ 64) (x : WordStream) :
    x.fillWord.toNat % 2 ^ k = if x.fill then 2 ^ k - 1 else 0 := by
  rw [toNat_fillWord]
  cases x.fill with
  | false => simp
  | true =>
    show (2 ^ 64 - 1) % 2 ^ k = 2 ^ k - 1
    rw [ones_eq hk, Nat.add_mul_mod_self_left, Nat.mod_eq_of_lt (Nat.sub_lt (Nat.two_pow_pos k) one_pos)]

/-! ## Up -/

theorem toInt_replicate_append (n : ℕ) (words : Numeral 64) (fill : Bool) :
    (⟨List.replicate n 0 ++ words, fill⟩ : WordStream).toInt = 2 ^ (64 * n) * (⟨words, fill⟩ : WordStream).toInt := by
  unfold toInt
  rw [Numeral.toNat_append, Numeral.toNat_replicate_zero, List.length_append, List.length_replicate, Nat.mul_add,
    pow_add]
  cases fill with
  | false => simp
  | true =>
    rw [if_pos rfl, if_pos rfl]
    push_cast
    ring

/-- The body and one word of the fill, shifted by less than a word: the top bits that are lost are fill bits. -/
theorem toInt_shiftLeft_body (hk : k ≤ 64) (x : WordStream) :
    (⟨Numeral.shiftLeft k 0 (x.body ++ [x.fillWord]), x.fill⟩ : WordStream).toInt = x.toInt * 2 ^ k := by
  have hshift := Numeral.shiftLeft_recompose hk 0 (x.body ++ [x.fillWord])
  rw [List.getLastD_concat, spill_fillWord hk, Limb.spill_zero, Numeral.toNat_append, List.length_append,
    List.length_singleton, Numeral.toNat_cons, Numeral.toNat_nil, toNat_fillWord] at hshift
  unfold toInt
  rw [Numeral.length_shiftLeft, List.length_append, List.length_singleton]
  cases hf : x.fill with
  | false =>
    rw [hf] at hshift
    have h1 : Numeral.toNat (Numeral.shiftLeft k 0 (x.body ++ [x.fillWord])) = x.body.toNat * 2 ^ k := by
      simpa using hshift
    rw [h1]
    simp
  | true =>
    -- the spill falls short of a whole power by one unit, which is what the fill above it stands for
    rw [hf, if_pos rfl, if_pos rfl] at hshift
    have h1 := congrArg (Nat.cast : ℕ → ℤ) hshift
    push_cast [Nat.cast_sub (Nat.one_le_two_pow (n := k))] at h1
    rw [if_pos rfl, if_pos rfl]
    -- one word more of body is one factor of the base
    rw [Nat.mul_succ, pow_add] at h1 ⊢
    linear_combination h1

/-- **Shifting up multiplies by a power of two**, whatever the fill. -/
theorem toInt_shiftLeft (x : WordStream) (d : ℕ) : (x.shiftLeft d).toInt = x.toInt * 2 ^ d := by
  unfold shiftLeft
  by_cases h : x = ⟨[], false⟩
  · rw [if_pos h, h]
    simp [toInt]
  · rw [if_neg h, toInt_replicate_append, toInt_shiftLeft_body (Nat.mod_lt d (by decide)).le]
    calc 2 ^ (64 * (d / 64)) * (x.toInt * 2 ^ (d % 64))
        = x.toInt * 2 ^ (64 * (d / 64) + d % 64) := by
          rw [pow_add]
          ring
      _ = x.toInt * 2 ^ d := by rw [Nat.div_add_mod]

/-- The words that shifting up makes: zero needs none, whatever the distance. -/
theorem length_body_shiftLeft (x : WordStream) (d : ℕ) :
    (x.shiftLeft d).body.length = if x = ⟨[], false⟩ then 0 else d / 64 + x.body.length + 1 := by
  unfold shiftLeft
  split_ifs with h
  · rw [h]
    rfl
  · simp [Nat.add_assoc]

/-! ## Down -/

theorem toInt_drop (x : WordStream) (n : ℕ) :
    (⟨x.body.drop n, x.fill⟩ : WordStream).toInt = x.toInt / 2 ^ (64 * n) := by
  -- word by word: the tail of a stream is its value divided by the base
  induction n generalizing x with
  | zero => simp
  | succ n ih =>
    have htail := ih x.tail
    rw [toInt_tail, Int.ediv_ediv_of_nonneg (by norm_num), ← pow_add, Nat.add_comm, ← Nat.mul_succ] at htail
    rw [← htail]
    simp [tail]

/-- The body, shifted by less than a word: what comes in above it are fill bits, and what it loses is the remainder. -/
theorem toInt_shiftRight_body (hk : k ≤ 64) (x : WordStream) :
    (⟨Numeral.shiftRight k x.fillWord x.body, x.fill⟩ : WordStream).toInt = x.toInt / 2 ^ k := by
  have hshift := Numeral.shiftRight_recompose hk x.fillWord x.body
  have hlow := Nat.mod_lt (x.body.headD x.fillWord).toNat (Nat.two_pow_pos k)
  -- the bits that are lost are the remainder
  generalize (x.body.headD x.fillWord).toNat % 2 ^ k = low at hshift hlow
  rw [toNat_fillWord_mod hk] at hshift
  refine ((Int.ediv_emod_unique (r := low) (by positivity)).mpr ⟨?_, by omega, by exact_mod_cast hlow⟩).1.symm
  unfold toInt
  rw [Numeral.length_shiftRight]
  cases hf : x.fill with
  | false =>
    rw [hf] at hshift
    have h1 : (Numeral.shiftRight k x.fillWord x.body).toNat * 2 ^ k + low = x.body.toNat := by simpa using hshift
    have h2 := congrArg (Nat.cast : ℕ → ℤ) h1
    push_cast at h2
    simp only [Bool.false_eq_true, if_false]
    linear_combination h2
  | true =>
    -- as upwards, the bits that come in fall short of a whole power by the unit that the fill stands for
    rw [hf, if_pos rfl] at hshift
    have h1 := congrArg (Nat.cast : ℕ → ℤ) hshift
    push_cast [Nat.cast_sub (Nat.one_le_two_pow (n := k))] at h1
    rw [if_pos rfl]
    linear_combination h1

/-- **Shifting down divides by a power of two and rounds down**, whatever the fill. -/
theorem toInt_shiftRight (x : WordStream) (d : ℕ) : (x.shiftRight d).toInt = x.toInt / 2 ^ d := by
  have hbody := toInt_shiftRight_body (Nat.mod_lt d (by decide)).le ⟨x.body.drop (d / 64), x.fill⟩
  rw [toInt_drop, Int.ediv_ediv_of_nonneg (by positivity), ← pow_add, Nat.div_add_mod] at hbody
  exact hbody

end WordStream

end TwosComplement
