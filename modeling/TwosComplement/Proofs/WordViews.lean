import TwosComplement.Proofs.LowBits
import TwosComplement.WordView

/-!
# Proofs/WordViews — all types write their values in words the same way

The shifts of the machine widths, the tables of one bit and the words of unbounded integers come to the same thing, the
stream of the value; and reading back comes to the low bits of a stream.

* `IntType.view`: the view of a type by its streams, which every type of the library has: `Representation.view_eq`.
* `WordView.Faithful`, `Representation.view_encodes`: what is read, bit by bit, and the way back from what is written.
-/

namespace TwosComplement

/-- The view of a type by the streams of its values. -/
def IntType.view (t : IntType) : WordView t.Value where
  signedness := t.signedness
  bounds? := t.bounds?
  order := compare
  appendix a := (toStream a).fill
  bodyLength a := (toStream a).body.length
  word a := (toStream a).word
  ofWords words appendix := t.ofStream ⟨words, appendix⟩

namespace WordView

variable {s : Signedness} {w : ℕ}

/-! ## Machine widths -/

section Machine

/-- Words above the lowest one are looked for above it. -/
theorem le_distance {i : ℕ} (h : i ≠ 0) : 64 ≤ distance i := by
  unfold distance
  omega

theorem distance_lt (i : ℕ) : distance i < 128 := by
  unfold distance
  omega

/-- A shifted word shows the bits from its place on, and the sign above them. -/
theorem getLsbD_shiftedWord (hw : w ≤ 64) (a : Fixed s w) (i : ℕ) {j : ℕ} (hj : j < 64) :
    (shiftedWord a i).getLsbD j =
      if distance i + j < w then a.bits.getLsbD (distance i + j) else a.negative := by
  have hd := distance_lt i
  cases s with
  | unsigned =>
    show ((a.bits.setWidth 128 >>> distance i).setWidth 64).getLsbD j = _
    rw [BitVec.getLsbD_setWidth, decide_eq_true hj, Bool.true_and, BitVec.getLsbD_ushiftRight,
      BitVec.getLsbD_setWidth]
    by_cases h : distance i + j < w
    · rw [if_pos h, decide_eq_true (by omega), Bool.true_and]
    · rw [if_neg h, BitVec.getLsbD_of_ge _ _ (Nat.le_of_not_lt h), Bool.and_false]
      rfl
  | signed =>
    have hmsb : (a.bits.signExtend 128).msb = a.bits.msb := by
      rw [BitVec.msb_signExtend, if_neg (by omega)]
      rfl
    show (((a.bits.signExtend 128).sshiftRight (distance i)).setWidth 64).getLsbD j = _
    rw [BitVec.getLsbD_setWidth, decide_eq_true hj, Bool.true_and, BitVec.getLsbD_sshiftRight,
      decide_eq_false (by omega), Bool.not_false, Bool.true_and, hmsb, BitVec.getLsbD_signExtend]
    by_cases h : distance i + j < 128
    · rw [if_pos h, decide_eq_true h, Bool.true_and]
      rfl
    · rw [if_neg h, if_neg (by omega)]
      rfl

theorem shiftedWord_eq (hw : w ≤ 64) (a : Fixed s w) (i : ℕ) : shiftedWord a i = (Fixed.toStream a).word i := by
  refine BitVec.eq_of_getLsbD_eq fun j hj => ?_
  rw [getLsbD_shiftedWord hw a i hj, WordStream.getLsbD_word _ i hj, Fixed.bit_toStream]
  rcases Nat.eq_zero_or_pos i with rfl | hi
  · rfl
  · -- both places are above the width
    have hd := le_distance (Nat.pos_iff_ne_zero.mp hi)
    rw [if_neg (by omega), if_neg (by omega)]

/-- The words of a width that fits one word are read from the first one. -/
theorem gather_eq (hw : 0 < w) (h : w ≤ 64) (extension : Word) (words : Numeral 64) :
    gather w extension words 0 0 = (words.headD extension).setWidth 128 := by
  rw [gather, if_pos hw, gather, if_neg (by omega), BitVec.shiftLeft_zero]
  exact BitVec.zero_or

theorem machine_eq (hw : 0 < w) (h : w ≤ 64) : machine s w = (IntType.fixed s w).view := by
  unfold machine IntType.view
  congr 1
  case e_bodyLength =>
    funext a
    show Fixed.wordCount w = (Fixed.toStream a).body.length
    simp [Fixed.toStream]
  case e_word => exact funext₂ (shiftedWord_eq h)
  case e_ofWords =>
    funext words appendix
    refine Fixed.ext (BitVec.eq_of_getLsbD_eq fun j hj => ?_)
    have hfirst : (⟨words, appendix⟩ : WordStream).word 0 = words.headD (Limb.filled 64 appendix) := by
      cases words <;> rfl
    show ((gather w (Limb.filled 64 appendix) words 0 0).setWidth w).getLsbD j =
      (Fixed.ofStream ⟨words, appendix⟩ : Fixed s w).bits.getLsbD j
    rw [gather_eq hw h, Fixed.getLsbD_ofStream, WordStream.bit_of_lt _ (by omega), hfirst, BitVec.getLsbD_setWidth,
      BitVec.getLsbD_setWidth, decide_eq_true (show j < 128 by omega), Bool.true_and]

end Machine

/-! ## One bit -/

section OneBit

open Operations (bit ofBit ext_bit ext_bits)

theorem oneBit_eq (s : Signedness) : oneBit s = (IntType.fixed s 1).view := by
  unfold oneBit IntType.view
  congr 1
  case e_bounds? => cases s <;> rfl
  case e_order => exact ext_bits fun p q => by cases s <;> cases p <;> cases q <;> decide
  case e_word =>
    refine ext_bit fun p => ?_
    funext index
    cases index with
    | zero => cases s <;> cases p <;> decide
    | succ k =>
      -- above the first word, the words of the table are those of the appendix
      have hlength : (IntType.toStream (t := .fixed s 1) (ofBit p)).body.length ≤ k + 1 := by
        show 1 ≤ k + 1
        omega
      rw [WordStream.word_of_length_le hlength]
      cases s <;> cases p <;> rfl
  case e_ofWords =>
    funext words appendix
    refine Fixed.ext (BitVec.eq_of_getLsbD_eq fun j hj => ?_)
    obtain rfl : j = 0 := by omega
    show (BitVec.ofBool _).getLsbD 0 = (Fixed.ofStream ⟨words, appendix⟩ : Fixed s 1).bits.getLsbD 0
    rw [Fixed.getLsbD_ofStream, WordStream.bit_of_lt _ (by omega)]
    cases words with
    | nil => cases appendix <;> rfl
    | cons x xs =>
      show (BitVec.ofBool (x.getLsbD 0)).getLsbD 0 = x.getLsbD 0
      cases x.getLsbD 0 <;> rfl

end OneBit

end WordView

/-! ## The types of the library -/

/-- Every type of the library writes its values as the words of their streams. -/
theorem Representation.view_eq (r : Representation) : r.view = r.intType.view := by
  cases r with
  | fixed t =>
    cases t with
    | oneBit s => exact WordView.oneBit_eq s
    | machine s w => exact WordView.machine_eq (FixedType.machine s w).width_pos (FixedType.machine s w).width_le
  | unbounded s => rfl

/-! ## The contract -/

/-- The bit by which a type extends what it reads: the top one of a signed type, none of an unsigned one. Unbounded
integers of both kinds keep the fill. -/
def IntType.topBit : IntType → WordStream → Bool
  | fixed s w, x => s.isSigned && x.bit (w - 1)
  | unbounded _, x => x.fill

/-- What it means that a type of the given width encodes its values by words and an appendix, of which it extends what
it reads by the given bit. -/
structure WordView.Faithful {α : Type} (view : WordView α) (width : ℕ∞) (topBit : WordStream → Bool) : Prop where
  /-- What is read has the bits of the words and the appendix after them below the width, and its own appendix above. -/
  getLsbD_word_ofWords : ∀ (words : Numeral 64) (appendix : Bool) (i j : ℕ), j < 64 →
    (view.word (view.ofWords words appendix) i).getLsbD j =
      if ((64 * i + j : ℕ) : ℕ∞) < width then (⟨words, appendix⟩ : WordStream).bit (64 * i + j)
      else view.appendix (view.ofWords words appendix)
  appendix_ofWords : ∀ (words : Numeral 64) (appendix : Bool),
    view.appendix (view.ofWords words appendix) = topBit ⟨words, appendix⟩
  /-- Past the body all words are the appendix. -/
  word_of_bodyLength_le : ∀ (a : α) (i : ℕ), view.bodyLength a ≤ i →
    view.word a i = Limb.filled 64 (view.appendix a)
  /-- A value is read back from its words, as many as its body has or more. -/
  ofWords_words : ∀ (a : α) (k : ℕ), view.bodyLength a ≤ k →
    view.ofWords ((List.range k).map (view.word a)) (view.appendix a) = a

theorem IntType.fill_toStream_ofStream {t : IntType} (ht : t.width ≠ 0) (x : WordStream) :
    (toStream (t.ofStream x)).fill = t.topBit x := by
  cases t with
  | fixed s w =>
    have hw : w - 1 < w := Nat.sub_one_lt fun h => ht (congrArg Nat.cast h)
    show (s.isSigned && (Fixed.ofStream x : Fixed s w).bits.msb) = (s.isSigned && x.bit (w - 1))
    rw [BitVec.msb_eq_getLsbD_last, Fixed.getLsbD_ofStream, decide_eq_true hw, Bool.true_and]
  | unbounded s => rfl

theorem IntType.view_faithful {t : IntType} (ht : t.width ≠ 0) : t.view.Faithful t.width t.topBit where
  getLsbD_word_ofWords words appendix i j hj := by
    show ((toStream (t.ofStream ⟨words, appendix⟩)).word i).getLsbD j = _
    rw [WordStream.getLsbD_word _ i hj, bit_toStream_ofStream]
    rfl
  appendix_ofWords words appendix := fill_toStream_ofStream ht ⟨words, appendix⟩
  word_of_bodyLength_le a i hi := WordStream.word_of_length_le hi
  ofWords_words a k hk := ofStream_eq_of_bits_toStream fun n _ => (toStream a).bit_map_word hk n

theorem Representation.width_ne_zero (r : Representation) : r.intType.width ≠ 0 := by
  cases r with
  | fixed t => exact Nat.cast_ne_zero.mpr t.width_pos.ne'
  | unbounded s => exact ENat.top_ne_zero

/-- **Words and an appendix are a faithful encoding, for every type.**  A value that is read from any words and any
appendix shows the bits of that sequence below the width of its type, all of them if it is unbounded, and its own
appendix everywhere above, which is the top bit of a signed type.  Past the body every word is that of the appendix,
and from any number of words that covers the body the value is read back. -/
theorem Representation.view_encodes (r : Representation) : r.view.Faithful r.intType.width r.intType.topBit := by
  rw [r.view_eq]
  exact IntType.view_faithful r.width_ne_zero

/-- A signed byte is read from a word of more bits: its top bit is set, and with it every bit above. It comes back from
three words. -/
theorem Representation.view_encodes_byte :
    let byte := (Representation.fixed (.machine .signed .bits8)).view
    (byte.word (byte.ofWords [0x180] false) 1).getLsbD 5 = true ∧
      byte.ofWords ((List.range 3).map (byte.word (.ofInt (-128)))) (byte.appendix (.ofInt (-128))) = .ofInt (-128) := by
  have h := view_encodes (.fixed (.machine .signed .bits8))
  have hbit := h.getLsbD_word_ofWords [0x180] false 1 5 (by decide)
  have habove : ¬((64 * 1 + 5 : ℕ) : ℕ∞) < (Representation.fixed (.machine .signed .bits8)).intType.width :=
    fun hlt => absurd (Nat.cast_lt.mp hlt) (by decide)
  rw [if_neg habove, h.appendix_ofWords] at hbit
  exact ⟨hbit.trans (by decide), h.ofWords_words (.ofInt (-128)) 3 (by decide)⟩

end TwosComplement
