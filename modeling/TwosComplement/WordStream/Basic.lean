import TwosComplement.Numeral.Lemmas

/-!
# WordStream — infinitely many words, all but finitely many of them equal

Every integer of the library, of whatever width, is a sequence of words that goes on for ever: a finite
body, and then words all of whose bits are the fill. A clear fill makes a natural number. A set fill makes,
in two's complement, the body minus the power of two above it.

* `WordStream.word` and `WordStream.bit` look at the whole sequence, `WordStream.toInt` at its value.
* A stream is trimmed when its body does not end in a word of the fill. `trim` drops those words:
  `trimmed_trim`, `word_trim`.
-/

namespace TwosComplement

-- powers are those of the core library, whatever else is imported
attribute [local instance (high)] instPowNat instNatPowNat Int.instNatPow

/-- A body of words, least first, followed for ever by words of the fill bit. -/
structure WordStream where
  body : Numeral 64
  fill : Bool
deriving DecidableEq

namespace WordStream

/-- The word that follows the body for ever. -/
def fillWord (x : WordStream) : Word := Limb.filled 64 x.fill

/-- The word at a place of the sequence. -/
def word (x : WordStream) (i : Nat) : Word := x.body.getD i x.fillWord

/-- The bit at a place of the sequence. -/
def bit (x : WordStream) (i : Nat) : Bool := (x.word (i / 64)).getLsbD (i % 64)

/-- The two's-complement integer of the sequence. -/
def toInt (x : WordStream) : Int :=
  x.body.toNat - if x.fill then 2 ^ (64 * x.body.length) else 0

/-- The first words of the sequence, at least those of the body. -/
def pad (x : WordStream) (length : Nat) : Numeral 64 := x.body.rightpad length x.fillWord

/-- The stream without the words of the fill at the end of its body. -/
def trim (x : WordStream) : WordStream := ⟨x.body.dropTop x.fillWord, x.fill⟩

/-- The body does not end in a word of the fill. -/
def Trimmed (x : WordStream) : Prop := x.body.getLast? ≠ some x.fillWord

instance (x : WordStream) : Decidable x.Trimmed := inferInstanceAs (Decidable (_ ≠ _))

/-! ## Trimming -/

theorem trimmed_trim (x : WordStream) : x.trim.Trimmed := Numeral.getLast?_dropTop_ne x.fillWord x.body

theorem getD_dropTop (e : Word) (words : Numeral 64) (i : Nat) :
    (words.dropTop e).getD i e = words.getD i e := by
  induction words generalizing i with
  | nil => rfl
  | cons y ys ih =>
    unfold Numeral.dropTop
    cases rest : Numeral.dropTop e ys with
    | nil =>
      have extended : ∀ k, ys.getD k e = e := fun k => by rw [← ih k, rest]; rfl
      by_cases h : y = e
      · cases i with
        | zero => simp [h]
        | succ k => simpa [h] using (extended k).symm
      · cases i with
        | zero => simp [h]
        | succ k => simpa [h] using (extended k).symm
    | cons z zs =>
      cases i with
      | zero => rfl
      | succ k => simpa [rest] using ih k

@[simp] theorem fill_trim (x : WordStream) : x.trim.fill = x.fill := rfl

@[simp] theorem word_trim (x : WordStream) (i : Nat) : x.trim.word i = x.word i :=
  getD_dropTop x.fillWord x.body i

@[simp] theorem bit_trim (x : WordStream) (i : Nat) : x.trim.bit i = x.bit i := by
  simp [bit]

end WordStream

end TwosComplement
