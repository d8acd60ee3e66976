import TwosComplement.Numeral.Lemmas
import TwosComplement.WordStream.Arithmetic

/-!
# WordStream/Lemmas — the words, bits and value of derived streams

* `getElem?_pad`: padding shows the words of the stream.
* `bit_and`, `bit_or`, `bit_xor`, `bit_complement`: bitwise operations act on every bit, those past the bodies
  included.
* `toInt_trim`: trimming keeps the value.
-/

namespace TwosComplement

-- powers are those of the core library, whatever else is imported
attribute [local instance (high)] instPowNat instNatPowNat Int.instNatPow

namespace WordStream

/-! ## Words -/

theorem getElem?_pad {x : WordStream} {length : Nat} (h : x.body.length ≤ length) (i : Nat) :
    (x.pad length)[i]? = if i < length then some (x.word i) else none := by
  unfold pad word
  rw [List.rightpad, List.getD_eq_getElem?_getD]
  by_cases inside : i < x.body.length
  · rw [List.getElem?_append_left inside, if_pos (by omega), List.getElem?_eq_getElem inside]
    rfl
  · rw [List.getElem?_append_right (by omega), List.getElem?_replicate, List.getElem?_eq_none (by omega)]
    by_cases below : i < length
    · rw [if_pos below, if_pos (by omega)]
      rfl
    · rw [if_neg below, if_neg (by omega)]

theorem length_pad {x : WordStream} {length : Nat} (h : x.body.length ≤ length) :
    (x.pad length).length = length := by
  unfold pad
  rw [List.rightpad, List.length_append, List.length_replicate]
  omega

/-- Combining two streams combines their words, when words of fills combine to the word of a fill. -/
theorem word_zipWith {operation : Word → Word → Word}
    (fills : ∀ p q, operation (Limb.filled 64 p) (Limb.filled 64 q) =
      Limb.filled 64 (decide (operation (Limb.filled 64 p) (Limb.filled 64 q) ≠ 0)))
    (x y : WordStream) (i : Nat) :
    (zipWith operation x y).word i = operation (x.word i) (y.word i) := by
  have hx := Nat.le_max_left x.body.length y.body.length
  have hy := Nat.le_max_right x.body.length y.body.length
  show (List.zipWith operation (x.pad _) (y.pad _)).getD i
    (Limb.filled 64 (decide (operation x.fillWord y.fillWord ≠ 0))) = _
  rw [List.getD_eq_getElem?_getD, List.getElem?_zipWith, getElem?_pad hx, getElem?_pad hy]
  by_cases inside : i < max x.body.length y.body.length
  · rw [if_pos inside, if_pos inside]
    rfl
  · rw [if_neg inside, if_neg inside]
    unfold word
    rw [List.getD_eq_getElem?_getD, List.getElem?_eq_none (by omega), List.getD_eq_getElem?_getD,
      List.getElem?_eq_none (by omega)]
    exact (fills x.fill y.fill).symm

theorem word_and (x y : WordStream) (i : Nat) : (x.and y).word i = x.word i &&& y.word i :=
  word_zipWith (by decide) x y i

theorem word_or (x y : WordStream) (i : Nat) : (x.or y).word i = x.word i ||| y.word i :=
  word_zipWith (by decide) x y i

theorem word_xor (x y : WordStream) (i : Nat) : (x.xor y).word i = x.word i ^^^ y.word i :=
  word_zipWith (by decide) x y i

theorem word_complement (x : WordStream) (i : Nat) : x.complement.word i = ~~~x.word i := by
  show (x.body.map (~~~ ·)).getD i (Limb.filled 64 !x.fill) = ~~~x.body.getD i (Limb.filled 64 x.fill)
  rw [show Limb.filled 64 (!x.fill) = ~~~Limb.filled 64 x.fill by cases x.fill <;> decide]
  rw [List.getD_eq_getElem?_getD, List.getElem?_map, List.getD_eq_getElem?_getD]
  cases x.body[i]? <;> rfl

/-! ## Bits -/

@[simp] theorem bit_and (x y : WordStream) (i : Nat) : (x.and y).bit i = (x.bit i && y.bit i) := by
  simp [bit, word_and]

@[simp] theorem bit_or (x y : WordStream) (i : Nat) : (x.or y).bit i = (x.bit i || y.bit i) := by
  simp [bit, word_or]

@[simp] theorem bit_xor (x y : WordStream) (i : Nat) : (x.xor y).bit i = (x.bit i ^^ y.bit i) := by
  simp [bit, word_xor]

@[simp] theorem bit_complement (x : WordStream) (i : Nat) : x.complement.bit i = !x.bit i := by
  simp [bit, word_complement, Nat.mod_lt]

/-! ## Value -/

theorem toNat_filled (bit : Bool) : (Limb.filled 64 bit).toNat = if bit then 2 ^ (64 : Nat) - 1 else 0 := by
  cases bit <;> rfl

theorem toNat_dropTop_ones (words : Numeral 64) :
    (words.dropTop (Limb.filled 64 true)).toNat + 2 ^ (64 * words.length) =
      words.toNat + 2 ^ (64 * (words.dropTop (Limb.filled 64 true)).length) := by
  induction words with
  | nil => rfl
  | cons y ys ih =>
    have scaled := congrArg (2 ^ 64 * ·) ih
    simp only [Nat.mul_add, ← Nat.pow_add] at scaled
    rw [List.length_cons, Nat.mul_succ, Nat.add_comm _ 64, Numeral.toNat_cons]
    unfold Numeral.dropTop
    cases rest : Numeral.dropTop (Limb.filled 64 true) ys with
    | nil =>
      rw [rest] at scaled
      simp only [List.length_nil, Numeral.toNat_nil] at scaled
      by_cases h : y = Limb.filled 64 true
      · have ones : y.toNat = 2 ^ 64 - 1 := by rw [h, toNat_filled, if_pos rfl]
        simp only [if_pos h, List.length_nil, Numeral.toNat_nil]
        omega
      · simp only [if_neg h, List.length_cons, List.length_nil, Numeral.toNat_cons, Numeral.toNat_nil]
        omega
    | cons z zs =>
      rw [rest] at scaled
      show Numeral.toNat (y :: z :: zs) + _ = _ + 2 ^ (64 * ((z :: zs).length + 1))
      rw [Nat.mul_succ, Nat.add_comm _ 64, Numeral.toNat_cons]
      omega

theorem toInt_trim (x : WordStream) : x.trim.toInt = x.toInt := by
  rcases x with ⟨body, fill⟩
  cases fill with
  | false =>
    show ((body.trim).toNat : Int) - 0 = (Numeral.toNat body : Int) - 0
    rw [Numeral.toNat_trim]
  | true =>
    have h := toNat_dropTop_ones body
    show ((Numeral.dropTop (Limb.filled 64 true) body).toNat : Int) -
      2 ^ (64 * (Numeral.dropTop (Limb.filled 64 true) body).length) =
        (Numeral.toNat body : Int) - 2 ^ (64 * body.length)
    have cast := congrArg (Nat.cast : Nat → Int) h
    push_cast at cast
    omega

end WordStream

end TwosComplement
