import TwosComplement.Proofs.StreamValue

/-!
# Proofs/StreamBits — a stream is its bits

The bits of a stream, those past its body included, determine its words, its fill and its value. A trimmed stream
is determined altogether, so that equality of the parts is equality of the bit sequences.

* `Numeral.testBit_toNat`: the bits of a numeral, limb by limb.
* `WordStream.getLsbD_word`, `WordStream.bit_map_word`: the bits of a word, and those of a stream from its words.
* `WordStream.bit_eq_decide`: a bit is a binary digit of the value.
* `WordStream.toInt_eq_iff_bits`: values are equal just when all bits are.
* `WordStream.Trimmed.eq_iff_bits`, `WordStream.Trimmed.trim_eq`: one trimmed stream for each sequence of bits.
* `Unbounded.ofStream_toWordStream`: an integer is that of its own stream.
-/

namespace TwosComplement

/-! ## Numerals -/

namespace Numeral

variable {w : ℕ}

theorem testBit_toNat (xs : Numeral w) (i : ℕ) : (toNat xs).testBit i = (xs.getD (i / w) 0).getLsbD (i % w) := by
  induction xs generalizing i with
  | nil => simp
  | cons x xs ih =>
    rw [toNat_cons, Nat.add_comm, Nat.testBit_two_pow_mul_add _ x.isLt]
    rcases Nat.lt_or_ge i w with h | h
    · rw [if_pos h, Nat.div_eq_of_lt h, Nat.mod_eq_of_lt h, BitVec.testBit_toNat]
      rfl
    · rw [if_neg (Nat.not_lt.mpr h), ih]
      rcases Nat.eq_zero_or_pos w with rfl | hw
      · simp
      · rw [Nat.mod_eq_sub_mod h, Nat.div_eq_sub_div hw h]
        rfl

end Numeral

namespace WordStream

variable {x y : WordStream}

/-! ## Bits and words -/

theorem getLsbD_word (x : WordStream) (i : ℕ) {j : ℕ} (h : j < 64) : (x.word i).getLsbD j = x.bit (64 * i + j) := by
  unfold bit
  rw [Nat.mul_add_div (by omega), Nat.mul_add_mod, Nat.div_eq_of_lt h, Nat.mod_eq_of_lt h, Nat.add_zero]

theorem bit_of_lt (x : WordStream) {n : ℕ} (h : n < 64) : x.bit n = (x.word 0).getLsbD n := by
  rw [getLsbD_word x 0 h, Nat.mul_zero, Nat.zero_add]

theorem word_of_length_le {i : ℕ} (h : x.body.length ≤ i) : x.word i = Limb.filled 64 x.fill :=
  List.getD_eq_default _ _ h

/-- The words of a stream, as many as its body has or more, and its fill after them are that stream. -/
theorem bit_map_word (x : WordStream) {k : ℕ} (h : x.body.length ≤ k) (n : ℕ) :
    (⟨(List.range k).map x.word, x.fill⟩ : WordStream).bit n = x.bit n := by
  have hword (i : ℕ) : (⟨(List.range k).map x.word, x.fill⟩ : WordStream).word i = x.word i := by
    by_cases hi : i < k
    · show ((List.range k).map x.word).getD i _ = x.word i
      rw [List.getD_eq_getElem _ _ (by simpa using hi), List.getElem_map, List.getElem_range]
    · have hlength : ((List.range k).map x.word).length ≤ i := by simpa using hi
      rw [word_of_length_le hlength, word_of_length_le (by omega)]
  unfold bit
  rw [hword]

/-- The bits of a stream are the binary digits of its value. -/
theorem bit_eq_decide (x : WordStream) (n : ℕ) : x.bit n = decide (x.toInt / 2 ^ n % 2 = 1) := by
  -- the words up to the one of the bit are the value modulo a power that is above the digit
  obtain ⟨m, hm⟩ : ∃ m, 64 * (n / 64 + 1) = n + (m + 1) := ⟨64 * (n / 64 + 1) - n - 1, by omega⟩
  have hwords := x.toNat_words (n / 64 + 1)
  have hbit := Numeral.testBit_toNat ((List.range (n / 64 + 1)).map x.word) n
  rw [List.getD_eq_getElem _ _ (by simp), List.getElem_map, List.getElem_range,
    Nat.testBit_eq_decide_div_mod_eq] at hbit
  refine hbit.symm.trans (decide_eq_decide.mpr ?_)
  generalize Numeral.toNat ((List.range (n / 64 + 1)).map x.word) = low at hwords
  have hdigit : (low : ℤ) / 2 ^ n % 2 = x.toInt / 2 ^ n % 2 := by
    have hsmall : x.toInt % 2 ^ n / 2 ^ n = 0 :=
      Int.ediv_eq_zero_of_lt (Int.emod_nonneg _ (by positivity)) (Int.emod_lt_of_pos _ (by positivity))
    rw [hwords, hm, pow_add, emod_mul_eq _ (by positivity) (by positivity),
      Int.add_mul_ediv_left _ _ (by positivity), hsmall, zero_add,
      Int.emod_emod_of_dvd _ (Dvd.intro_left _ (pow_succ 2 m).symm)]
  rw [← hdigit]
  exact_mod_cast Iff.rfl

/-! ## From the bits to the value -/

theorem word_eq_of_bits (h : ∀ n, x.bit n = y.bit n) (i : ℕ) : x.word i = y.word i := by
  refine BitVec.eq_of_getLsbD_eq fun j hj => ?_
  rw [getLsbD_word x i hj, getLsbD_word y i hj, h]

/-- Past both bodies the words are the fills. -/
theorem fill_eq_of_bits (h : ∀ n, x.bit n = y.bit n) : x.fill = y.fill := by
  have hword := word_eq_of_bits h (max x.body.length y.body.length)
  rw [word_of_length_le (Nat.le_max_left _ _), word_of_length_le (Nat.le_max_right _ _)] at hword
  have hbit : (Limb.filled 64 x.fill).getLsbD 0 = (Limb.filled 64 y.fill).getLsbD 0 := by rw [hword]
  rw [Limb.getLsbD_filled, Limb.getLsbD_filled] at hbit
  simpa using hbit

/-- Values are equal just when all bits are. -/
theorem toInt_eq_iff_bits : x.toInt = y.toInt ↔ ∀ n, x.bit n = y.bit n := by
  constructor
  · intro h n
    unfold bit
    rw [word_eq_of_toInt_eq h]
  · intro h
    exact toInt_eq_of_words (Nat.le_max_left _ _) (Nat.le_max_right _ _) (fun i _ => word_eq_of_bits h i)
      (fill_eq_of_bits h)

/-! ## Trimmed streams -/

theorem Trimmed.eq_of_toInt_eq (hx : x.Trimmed) (hy : y.Trimmed) (h : x.toInt = y.toInt) : x = y := by
  have hxy : (⟨x, hx⟩ : Unbounded .signed) = ⟨y, hy⟩ := Unbounded.toInt_injective h
  exact congrArg Unbounded.toWordStream hxy

/-- Trimmed streams are equal just when all their bits are. -/
theorem Trimmed.eq_iff_bits (hx : x.Trimmed) (hy : y.Trimmed) : x = y ↔ ∀ n, x.bit n = y.bit n := by
  constructor
  · intro h n
    rw [h]
  · intro h
    exact hx.eq_of_toInt_eq hy (toInt_eq_iff_bits.mpr h)

/-- Trimming leaves a trimmed stream as it is. -/
theorem Trimmed.trim_eq (hx : x.Trimmed) : x.trim = x :=
  x.trimmed_trim.eq_of_toInt_eq hx x.toInt_trim

end WordStream

namespace Unbounded

variable {s : Signedness}

theorem toWordStream_injective {x y : Unbounded s} (h : x.toWordStream = y.toWordStream) : x = y :=
  ext (congrArg WordStream.body h) (congrArg WordStream.fill h)

/-- An integer is that of its own stream. -/
theorem ofStream_toWordStream (x : Unbounded s) : ofStream x.toWordStream = x :=
  toWordStream_injective x.trimmed.trim_eq

end Unbounded

end TwosComplement
