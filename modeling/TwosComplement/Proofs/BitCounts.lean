import Mathlib.Data.Nat.Count
import Mathlib.Data.Set.Card
import Mathlib.Order.ConditionallyCompleteLattice.Basic
import TwosComplement.Unbounded.Arithmetic
import TwosComplement.Unbounded.Counting
import TwosComplement.Proofs.CountSteps
import TwosComplement.Proofs.LimbRuns
import TwosComplement.Proofs.StreamBits

/-!
# Proofs/BitCounts — runs and populations of the infinite sequence of bits

The loops look at the words of a body and at the fill. What they find is told by the bits alone: the first bit that is
not the one asked for, the place from which on all bits are, and the number of bits that are or are not. So two values
with the same sequence, or with opposite sequences and opposite questions, are answered alike.

* `WordStream.bit_cons_of_lt`, `WordStream.bit_cons_add`, `WordStream.bit_of_length_le`: bits by the words of the body.
* `WordStream.runFrom_of_isLeast`, `WordStream.runFrom_of_forall`: the run at the bottom.
* `Unbounded.isLeast_belowRun`: the run at the top.
* `Numeral.bitCount_eq_count`, `Unbounded.finite_setOf_bit`: the population.
* `Unbounded.trailingRun_congr`, `Unbounded.leadingRun_congr`, `Unbounded.bitCount_congr`: sequences that answer alike.
* `Unbounded.bit_counts_exact`: the contract.
-/

namespace TwosComplement

/-! ## The bits of a body, word by word -/

namespace WordStream

variable {i : ℕ}

theorem bit_cons_of_lt (word : Word) (words : Numeral 64) (fill : Bool) (h : i < 64) :
    (⟨word :: words, fill⟩ : WordStream).bit i = word.getLsbD i := bit_of_lt _ h

theorem bit_cons_add (word : Word) (words : Numeral 64) (fill : Bool) (i : ℕ) :
    (⟨word :: words, fill⟩ : WordStream).bit (64 + i) = (⟨words, fill⟩ : WordStream).bit i := by
  have hword : (64 + i) / 64 = i / 64 + 1 := by omega
  have hplace : (64 + i) % 64 = i % 64 := by omega
  unfold WordStream.bit
  rw [hword, hplace]
  rfl

theorem bit_of_length_le (x : WordStream) (h : 64 * x.body.length ≤ i) : x.bit i = x.fill := by
  unfold WordStream.bit
  rw [word_of_length_le (by omega), Limb.getLsbD_filled, decide_eq_true (Nat.mod_lt i (by omega)), Bool.true_and]

end WordStream

/-! ## The run at the bottom -/

namespace WordStream

variable {fill bit : Bool}

theorem trailingRun_le_of_bit_ne {word : Word} {words : Numeral 64} {n : ℕ}
    (h : (⟨word :: words, fill⟩ : WordStream).bit n ≠ bit) : word.trailingRun bit ≤ n := by
  by_contra hlt
  have hle := Limb.trailingRun_le word bit
  refine h ?_
  rw [bit_cons_of_lt word words fill (by omega)]
  exact Limb.getLsbD_of_lt_trailingRun (Nat.lt_of_not_le hlt)

/-- The loop stops at the first bit that is not the one asked for. -/
theorem runFrom_of_isLeast {words : Numeral 64} {n : ℕ} (run : ℕ)
    (h : IsLeast {i | (⟨words, fill⟩ : WordStream).bit i ≠ bit} n) : runFrom fill bit run words = .ofNat (run + n) := by
  obtain ⟨hn, hleast⟩ := h
  induction words generalizing run n with
  | nil =>
    have hfill (i : ℕ) : (⟨[], fill⟩ : WordStream).bit i = fill := bit_of_length_le _ (Nat.zero_le _)
    have hne : fill ≠ bit := hfill n ▸ hn
    have hzero : n = 0 := Nat.le_zero.mp (hleast (show (⟨[], fill⟩ : WordStream).bit 0 ≠ bit from (hfill 0).symm ▸ hne))
    rw [runFrom, if_neg (by simpa using hne), hzero, Nat.add_zero]
  | cons word words ih =>
    rw [runFrom]
    have hge := trailingRun_le_of_bit_ne hn
    by_cases hfull : word.trailingRun bit = 64
    · -- the word is all of the run, so the first other bit is in the words that follow
      rw [hfull] at hge
      obtain ⟨m, rfl⟩ := Nat.exists_eq_add_of_le hge
      have hm : (⟨words, fill⟩ : WordStream).bit m ≠ bit := bit_cons_add word words fill m ▸ hn
      have hrest : m ∈ lowerBounds {i | (⟨words, fill⟩ : WordStream).bit i ≠ bit} := by
        intro i hi
        have hnext : (⟨word :: words, fill⟩ : WordStream).bit (64 + i) ≠ bit := bit_cons_add word words fill i ▸ hi
        exact Nat.le_of_add_le_add_left (hleast hnext)
      rw [if_pos hfull, ih _ hm hrest, hfull, Nat.add_assoc]
    · have hshort : word.trailingRun bit < 64 := Nat.lt_of_le_of_ne (Limb.trailingRun_le word bit) hfull
      have hstop : (⟨word :: words, fill⟩ : WordStream).bit (word.trailingRun bit) ≠ bit := by
        rw [bit_cons_of_lt word words fill hshort]
        exact Limb.getLsbD_trailingRun_ne hshort
      rw [if_neg hfull, Nat.le_antisymm (hleast hstop) hge]

/-- The loop runs through all words and into the fill when no bit is another. -/
theorem runFrom_of_forall {words : Numeral 64} (run : ℕ) (h : ∀ i, (⟨words, fill⟩ : WordStream).bit i = bit) :
    runFrom fill bit run words = .infinity := by
  induction words generalizing run with
  | nil =>
    have hfill : fill = bit := h 0 ▸ (bit_of_length_le ⟨[], fill⟩ (Nat.zero_le _)).symm
    rw [runFrom, if_pos (beq_iff_eq.mpr hfill)]
  | cons word words ih =>
    have hfull : word.trailingRun bit = 64 := by
      refine le_antisymm (Limb.trailingRun_le word bit) (Nat.le_of_not_lt ?_)
      intro hlt
      exact Limb.getLsbD_trailingRun_ne hlt (bit_cons_of_lt word words fill hlt ▸ h _)
    rw [runFrom, if_pos hfull]
    refine ih _ ?_
    intro i
    rw [← h (64 + i), bit_cons_add]

end WordStream

namespace Unbounded

variable {s : Signedness} {x : Unbounded s} {bit : Bool}

/-! ## The run at the top -/

theorem belowRun_le (x : Unbounded s) (bit : Bool) : x.belowRun bit ≤ 64 * x.body.length := by
  unfold belowRun
  cases x.body.getLast? with
  | none => exact Nat.zero_le _
  | some top =>
    show x.body.length * 64 - top.leadingRun bit ≤ _
    omega

/-- A body of a value does not end in a word of the fill, so the run in its last word is shorter than the word. -/
theorem leadingRun_last_lt {top : Word} (hlast : x.body.getLast? = some top) (h : x.fill = bit) :
    top.leadingRun bit < 64 := by
  refine Nat.lt_of_le_of_ne (Limb.leadingRun_le top bit) ?_
  intro hfull
  have htop : top = x.fillWord := by
    refine BitVec.eq_of_getMsbD_eq ?_
    intro i hi
    rw [Limb.getMsbD_of_lt_leadingRun (hfull ▸ hi), WordStream.fillWord, h, BitVec.getMsbD_eq_getLsbD,
      Limb.getLsbD_filled, decide_eq_true hi, decide_eq_true (show 64 - 1 - i < 64 by omega)]
    rfl
  exact x.trimmed (htop ▸ hlast)

theorem bit_last {top : Word} (hlast : x.body.getLast? = some top) {j : ℕ} (hj : j < 64) :
    x.bit (64 * x.body.length - 1 - j) = top.getMsbD j := by
  have hsome : x.body[x.body.length - 1]? = some top := List.getLast?_eq_getElem? ▸ hlast
  obtain ⟨hlength, -⟩ := List.getElem?_eq_some_iff.mp hsome
  have hword : x.word (x.body.length - 1) = top := by
    show x.body.getD (x.body.length - 1) x.fillWord = top
    rw [List.getD_eq_getElem?_getD, hsome]
    rfl
  have hplace : 64 * x.body.length - 1 - j = 64 * (x.body.length - 1) + (64 - 1 - j) := by omega
  rw [hplace, ← WordStream.getLsbD_word _ _ (by omega), hword, BitVec.getMsbD_eq_getLsbD, decide_eq_true hj,
    Bool.true_and]

/-- From where the run at the top begins all bits are those asked for, and from no place before it. -/
theorem isLeast_belowRun (h : x.fill = bit) : IsLeast {m | ∀ i ≥ m, x.bit i = bit} (x.belowRun bit) := by
  cases hlast : x.body.getLast? with
  | none =>
    have hbelow : x.belowRun bit = 0 := by rw [belowRun, hlast]
    have hempty : x.body.length = 0 := List.length_eq_zero_iff.mpr (List.getLast?_eq_none_iff.mp hlast)
    rw [hbelow]
    refine ⟨?_, fun _ _ => Nat.zero_le _⟩
    intro i _
    rw [x.bit_of_length_le (by omega), h]
  | some top =>
    have hbelow : x.belowRun bit = x.body.length * 64 - top.leadingRun bit := by rw [belowRun, hlast]
    have hshort := leadingRun_last_lt hlast h
    have hlength : 0 < x.body.length := List.length_pos_of_mem (List.mem_of_getLast? hlast)
    rw [hbelow]
    constructor
    · intro i hi
      by_cases hpast : 64 * x.body.length ≤ i
      · rw [x.bit_of_length_le hpast, h]
      · obtain ⟨j, hj, rfl⟩ : ∃ j < top.leadingRun bit, i = 64 * x.body.length - 1 - j :=
          ⟨64 * x.body.length - 1 - i, by omega, by omega⟩
        rw [bit_last hlast (by omega), Limb.getMsbD_of_lt_leadingRun hj]
    · intro m hm
      -- the bit just below the run is another one
      by_contra hlt
      have hbit := hm (64 * x.body.length - 1 - top.leadingRun bit) (by omega)
      rw [bit_last hlast hshort] at hbit
      exact Limb.getMsbD_leadingRun_ne hshort hbit

end Unbounded

/-! ## The population -/

/-- The loop counts places of the sequence. -/
theorem Numeral.bitCount_eq_count (words : Numeral 64) (fill bit : Bool) :
    Numeral.bitCount bit words = Nat.count (fun i => (⟨words, fill⟩ : WordStream).bit i = bit) (64 * words.length) := by
  induction words with
  | nil => rfl
  | cons word words ih =>
    have hword : Limb.bitCount word bit = Nat.count (fun i => (⟨word :: words, fill⟩ : WordStream).bit i = bit) 64 := by
      unfold Limb.bitCount Nat.count
      refine List.countP_congr ?_
      intro i hi
      have hbit := WordStream.bit_cons_of_lt word words fill (List.mem_range.mp hi)
      rw [beq_iff_eq, decide_eq_true_iff, ← hbit]
    rw [Numeral.bitCount, List.length_cons, Nat.mul_succ, Nat.add_comm (64 * words.length), Nat.count_add, hword, ih]
    simp only [WordStream.bit_cons_add]

namespace Unbounded

variable {s : Signedness} {x : Unbounded s} {bit : Bool}

theorem bitCount_body_le (x : Unbounded s) (bit : Bool) : Numeral.bitCount bit x.body ≤ 64 * x.body.length := by
  rw [Numeral.bitCount_eq_count x.body x.fill]
  exact Nat.count_le _

/-- Bits that are not the fill are bits of the body, as many as the loop counts. -/
theorem finite_setOf_bit (h : x.fill ≠ bit) :
    {i | x.bit i = bit}.Finite ∧ {i | x.bit i = bit}.ncard = Numeral.bitCount bit x.body := by
  -- past the body there is only the fill, which is not the bit asked for
  have hplaces : {i | x.bit i = bit} = ↑((Finset.range (64 * x.body.length)).filter (x.bit · = bit)) := by
    ext i
    rw [Finset.mem_coe, Finset.mem_filter, Finset.mem_range]
    constructor
    · intro hi
      refine ⟨?_, hi⟩
      by_contra hpast
      exact h ((x.bit_of_length_le (Nat.le_of_not_lt hpast)).symm.trans hi)
    · exact And.right
  rw [hplaces, Set.ncard_coe_finset, Numeral.bitCount_eq_count x.body x.fill, Nat.count_eq_card_filter_range]
  exact ⟨Finset.finite_toSet _, rfl⟩

/-- When the fill is the bit asked for, the other bits are bits of the body. -/
theorem finite_setOf_bit_ne (h : x.fill = bit) :
    {i | x.bit i ≠ bit}.Finite ∧ {i | x.bit i ≠ bit}.ncard = Numeral.bitCount (!bit) x.body := by
  have hother : {i | x.bit i ≠ bit} = {i | x.bit i = !bit} := Set.ext fun i => Bool.eq_not.symm
  rw [hother]
  exact finite_setOf_bit (h ▸ (Bool.not_ne_self x.fill).symm)

end Unbounded

/-! ## What the counts say -/

namespace Count

variable {n : ℕ}

theorem toNat_word (h : n < 2 ^ 63) : (BitVec.ofNat 64 n).toNat = n := by
  rw [BitVec.toNat_ofNat, Nat.mod_eq_of_lt (by omega)]

theorem extent_ofNat (h : n < 2 ^ 63) : (ofNat n).extent = .finite n := by
  have hword := toNat_word h
  rw [extent_eq_finite_iff]
  exact (toInt_ofBits (by omega)).trans (congrArg _ hword)

/-- A deficit below half of the words is taken off infinity without a stop. -/
theorem infinity_down (h : n < 2 ^ 63) : (infinity.down (BitVec.ofNat 64 n)).flag = false ∧
    (infinity.down (BitVec.ofNat 64 n)).value.extent = .infinite n := by
  have hdeficit : ((0 : ℕ) : ℤ) - (Step.down (BitVec.ofNat 64 n)).shift = n := by
    rw [Step.shift, toNat_word h]
    omega
  obtain ⟨hflag, hextent⟩ := (settles_step infinity (.down (BitVec.ofNat 64 n))).infinite 0 (by decide)
  rw [hdeficit] at hflag hextent
  constructor
  · rw [← Bool.not_eq_true]
    intro hshort
    refine hflag.mp hshort ?_
    rw [limit]
    omega
  · refine hextent.trans (congrArg _ ?_)
    rw [nearest, limit]
    omega

end Count

namespace Unbounded

variable {s : Signedness} {x y : Unbounded s} {bit other : Bool}

/-- The run at the bottom ends at the lowest other bit. -/
theorem extent_trailingRun {n : ℕ} (hlength : x.body.length < 2 ^ 57) (h : IsLeast {i | x.bit i ≠ bit} n) :
    (x.trailingRun bit).extent = .finite n := by
  have hn : n ≤ 64 * x.body.length := by
    by_contra hpast
    -- past the body all bits are alike, so the end of the body would be a lower one
    have hend : x.bit (64 * x.body.length) ≠ bit := by
      rw [x.bit_of_length_le le_rfl, ← x.bit_of_length_le (Nat.le_of_not_le hpast)]
      exact h.1
    exact hpast (h.2 hend)
  rw [trailingRun, WordStream.runFrom_of_isLeast 0 h, Nat.zero_add]
  exact Count.extent_ofNat (by omega)

/-! ## Sequences that answer alike -/

theorem fill_congr (h : ∀ i, x.bit i = bit ↔ y.bit i = other) : x.fill = bit ↔ y.fill = other := by
  have hpast := h (64 * x.body.length + 64 * y.body.length)
  rwa [x.bit_of_length_le (by omega), y.bit_of_length_le (by omega)] at hpast

theorem trailingRun_congr (h : ∀ i, x.bit i = bit ↔ y.bit i = other) : x.trailingRun bit = y.trailingRun other := by
  by_cases hall : ∀ i, x.bit i = bit
  · have hall' : ∀ i, y.bit i = other := fun i => (h i).mp (hall i)
    rw [trailingRun, trailingRun, WordStream.runFrom_of_forall 0 hall, WordStream.runFrom_of_forall 0 hall']
  · have hsame : {i | x.bit i ≠ bit} = {i | y.bit i ≠ other} := Set.ext fun i => not_congr (h i)
    obtain ⟨n, hfirst⟩ : ∃ n, IsLeast {i | x.bit i ≠ bit} n := ⟨_, Nat.isLeast_find (not_forall.mp hall)⟩
    have hfirst' := hsame ▸ hfirst
    rw [trailingRun, trailingRun, WordStream.runFrom_of_isLeast 0 hfirst, WordStream.runFrom_of_isLeast 0 hfirst']

theorem leadingRun_congr (h : ∀ i, x.bit i = bit ↔ y.bit i = other) : x.leadingRun bit = y.leadingRun other := by
  have hfill := fill_congr h
  unfold leadingRun
  by_cases hbit : x.fill = bit
  · have hsame : {m | ∀ i ≥ m, x.bit i = bit} = {m | ∀ i ≥ m, y.bit i = other} :=
      Set.ext fun m => forall₂_congr fun i _ => h i
    have hbelow := (hsame ▸ isLeast_belowRun hbit).unique (isLeast_belowRun (hfill.mp hbit))
    rw [if_neg (by simpa using hbit), if_neg (by simpa using hfill.mp hbit), hbelow]
  · rw [if_pos (by simpa using hbit), if_pos (by simpa using mt hfill.mpr hbit)]

theorem bitCount_congr (h : ∀ i, x.bit i = bit ↔ y.bit i = other) : x.bitCount bit = y.bitCount other := by
  have hfill := fill_congr h
  unfold bitCount
  by_cases hbit : x.fill = bit
  · have hsame : {i | x.bit i ≠ bit} = {i | y.bit i ≠ other} := Set.ext fun i => not_congr (h i)
    rw [if_pos (beq_iff_eq.mpr hbit), if_pos (beq_iff_eq.mpr (hfill.mp hbit)), ← (finite_setOf_bit_ne hbit).2,
      ← (finite_setOf_bit_ne (hfill.mp hbit)).2, hsame]
  · have hsame : {i | x.bit i = bit} = {i | y.bit i = other} := Set.ext h
    have hbit' := mt hfill.mpr hbit
    rw [if_neg (mt beq_iff_eq.mp hbit), if_neg (mt beq_iff_eq.mp hbit'), ← (finite_setOf_bit hbit).2,
      ← (finite_setOf_bit hbit').2, hsame]

/-! ## The contract -/

theorem bit_complement_iff (x : Unbounded s) (bit : Bool) (i : ℕ) : (~~~x).bit i = !bit ↔ x.bit i = bit := by
  have hbit : (~~~x).bit i = !x.bit i := (bit_ofStream _ i).trans (WordStream.bit_complement _ i)
  rw [hbit, Bool.not_inj_iff]

/-- **Runs and populations are those of the infinite sequence of bits.** For either kind, any body of less than `2 ^ 57`
words and each bit, the run at the bottom ends at the lowest bit that differs, and is infinity if none does. The run at the
top is zero when the fill differs, and else infinity less the least place from which on all bits are the bit asked for. The
population is the number of bits that are that bit when the fill differs, and else infinity less the number of those that are
not. No step down from infinity is cut short, and the complement gives each answer for the other bit. -/
theorem bit_counts_exact (x : Unbounded s) (bit : Bool) (h : x.body.length < 2 ^ 57) :
    ((∀ n, IsLeast {i | x.bit i ≠ bit} n → (x.trailingRun bit).extent = .finite n) ∧
      ((∀ i, x.bit i = bit) → x.trailingRun bit = .infinity)) ∧
    ((x.fill ≠ bit → x.leadingRun bit = .zero) ∧
      (x.fill = bit → ∃ m, IsLeast {m | ∀ i ≥ m, x.bit i = bit} m ∧ (x.leadingRun bit).extent = .infinite m)) ∧
    ((x.fill ≠ bit → {i | x.bit i = bit}.Finite ∧ (x.bitCount bit).extent = .finite {i | x.bit i = bit}.ncard) ∧
      (x.fill = bit → {i | x.bit i ≠ bit}.Finite ∧ (x.bitCount bit).extent = .infinite {i | x.bit i ≠ bit}.ncard)) ∧
    ((Count.infinity.down (BitVec.ofNat 64 (x.belowRun bit))).flag = false ∧
      (Count.infinity.down (BitVec.ofNat 64 (Numeral.bitCount (!bit) x.body))).flag = false) ∧
    ((~~~x).trailingRun (!bit) = x.trailingRun bit ∧ (~~~x).leadingRun (!bit) = x.leadingRun bit ∧
      (~~~x).bitCount (!bit) = x.bitCount bit) := by
  have hbelow : x.belowRun bit < 2 ^ 63 := (belowRun_le x bit).trans_lt (by omega)
  have hcount (b : Bool) : Numeral.bitCount b x.body < 2 ^ 63 := (bitCount_body_le x b).trans_lt (by omega)
  refine ⟨⟨fun n => extent_trailingRun h, WordStream.runFrom_of_forall 0⟩, ⟨?_, ?_⟩, ⟨?_, ?_⟩,
    ⟨(Count.infinity_down hbelow).1, (Count.infinity_down (hcount (!bit))).1⟩,
    trailingRun_congr (bit_complement_iff x bit), leadingRun_congr (bit_complement_iff x bit),
    bitCount_congr (bit_complement_iff x bit)⟩
  · intro hfill
    rw [leadingRun, if_pos (by simpa using hfill)]
  · intro hfill
    refine ⟨x.belowRun bit, isLeast_belowRun hfill, ?_⟩
    rw [leadingRun, if_neg (by simpa using hfill)]
    exact (Count.infinity_down hbelow).2
  · intro hfill
    obtain ⟨hfinite, hcard⟩ := finite_setOf_bit hfill
    rw [bitCount, if_neg (mt beq_iff_eq.mp hfill), hcard]
    exact ⟨hfinite, Count.extent_ofNat (hcount bit)⟩
  · intro hfill
    obtain ⟨hfinite, hcard⟩ := finite_setOf_bit_ne hfill
    rw [bitCount, if_pos (beq_iff_eq.mpr hfill), hcard]
    exact ⟨hfinite, (Count.infinity_down (hcount (!bit))).2⟩

/-- The run of sixty-five ones at the bottom of `2 ^ 65 - 1` crosses the end of its first word. -/
theorem bit_counts_exact_two_words :
    let x : Unbounded .signed := ⟨⟨[BitVec.allOnes 64, 1], false⟩, by decide⟩
    x.body.length < 2 ^ 57 ∧ (x.trailingRun true).extent = .finite 65 ∧ x.leadingRun true = .zero ∧
      (~~~x).trailingRun false = x.trailingRun true := by
  intro x
  have hlength : x.body.length < 2 ^ 57 := by decide
  obtain ⟨⟨hrun, -⟩, ⟨htop, -⟩, -, -, hcomplement, -⟩ := bit_counts_exact x true hlength
  refine ⟨hlength, hrun 65 ⟨?_, ?_⟩, htop (by decide), hcomplement⟩
  · show x.bit 65 ≠ true
    decide
  · intro i hi
    by_contra hlt
    have hones : ∀ i < 65, x.bit i = true := by decide
    exact hi (hones i (by omega))

end Unbounded

end TwosComplement
