import TwosComplement.Sign
import TwosComplement.WordStream.Arithmetic

/-!
# Unbounded — integers of unbounded width

An unbounded integer is a trimmed word stream. A signed one with a set fill is negative. An unsigned one with
a set fill lies beyond every finite number: it has infinitely many ones at the top. Trimming makes the stream
of a value unique, so that equality of the representation is equality of the value.

* `Unbounded.ofStream` trims a stream; it changes no word of it: `word_ofStream`.
* The order is that of the values, infinite ones above finite ones.
-/

namespace TwosComplement

/-- A trimmed word stream; the signedness says what a set fill means. -/
structure Unbounded (s : Signedness) extends WordStream where
  trimmed : toWordStream.Trimmed
deriving DecidableEq

namespace Unbounded

variable {s : Signedness}

/-! ## Construction -/

/-- The integer of a stream. -/
def ofStream (x : WordStream) : Unbounded s := ⟨x.trim, x.trimmed_trim⟩

/-- The integer of a natural number in words. -/
def ofNumeral (words : Numeral 64) : Unbounded s := ofStream ⟨words, false⟩

instance : OfNat (Unbounded s) 0 := ⟨⟨⟨[], false⟩, by decide⟩⟩

instance : OfNat (Unbounded s) 1 := ⟨ofNumeral [1]⟩

instance : Inhabited (Unbounded s) := ⟨0⟩

/-- The greatest unsigned value: infinite, with every bit set. -/
def greatest : Unbounded .unsigned := ofStream ⟨[], true⟩

/-! ## Views -/

/-- True for signed values below zero. -/
def negative (x : Unbounded s) : Bool := s.isSigned && x.fill

/-- True for unsigned values beyond every finite number. -/
def infinite (x : Unbounded s) : Bool := !s.isSigned && x.fill

/-- True for the values zero and one. -/
def isBit (x : Unbounded s) : Bool := !x.fill && (x.body == [] || x.body == [1])

/-- Values of different fill are ordered by it, as the signedness says; otherwise the words decide, from the
top. -/
instance : Ord (Unbounded s) where
  compare x y :=
    if x.fill != y.fill then (if s.isSigned == x.fill then .lt else .gt)
    else
      let length := max x.body.length y.body.length
      Numeral.compare (x.pad length) (y.pad length)

/-- The name of the unbounded integers of a signedness. -/
def kindName : Signedness → String
  | .unsigned => "UnsignedInfinite"
  | .signed => "SignedInfinite"

/-- The text of a word in base sixteen. -/
def hexText (word : Word) : String := String.ofList (Nat.toDigits 16 word.toNat)

/-- The value as a diagnostic shows it: the kind, the words in base sixteen, and the fill. -/
def debugText (x : Unbounded s) : String :=
  kindName s ++ "([" ++ ", ".intercalate (x.body.map hexText) ++ "], appendix: " ++
    (if x.fill then "1" else "0") ++ ")"

/-! ## Small laws -/

@[ext] theorem ext {x y : Unbounded s} (body : x.body = y.body) (fill : x.fill = y.fill) : x = y := by
  rcases x with ⟨⟨xs, p⟩, hx⟩
  rcases y with ⟨⟨ys, q⟩, hy⟩
  simp_all

@[simp] theorem fill_ofStream (x : WordStream) : (ofStream x : Unbounded s).fill = x.fill := rfl

@[simp] theorem word_ofStream (x : WordStream) (i : Nat) : (ofStream x : Unbounded s).word i = x.word i :=
  x.word_trim i

@[simp] theorem bit_ofStream (x : WordStream) (i : Nat) : (ofStream x : Unbounded s).bit i = x.bit i :=
  x.bit_trim i

end Unbounded

end TwosComplement
