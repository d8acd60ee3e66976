import TwosComplement.Conversion
import TwosComplement.Fixed.Operations

/-!
# WordView — the types, each with its own way of writing values in words

A type writes a value as finitely many words and an appendix, the bit that goes on above them, and reads values back
from such words. Types of a machine width do so by shifts of a double word, types of one bit by tables, and unbounded
integers by the words that they are made of. Conversions see nothing else of a value.

* `WordView.machine`, `WordView.oneBit`, `WordView.unbounded`: the three ways.
* `WordView.convertMasking`, `WordView.convertExact`, `WordView.convertClamping`: conversions between two views.
* `Representation`: the types of the library, each with its view.
-/

namespace TwosComplement

-- powers are those of the core library, whatever else is imported
attribute [local instance (high)] instPowNat instNatPowNat Int.instNatPow

/-- What conversions know of a type: its bounds and order, and its values in words. -/
structure WordView (α : Type) where
  signedness : Signedness
  /-- The bounds, if the type has both. -/
  bounds? : Option (Bounds α)
  order : α → α → Ordering
  /-- The bit that goes on above the body for ever. -/
  appendix : α → Bool
  /-- The number of words before those of the appendix. -/
  bodyLength : α → Nat
  /-- The word at a place, in the body or above it. -/
  word : α → Nat → Word
  /-- The value of words and an appendix, of which a type keeps as many bits as it has. -/
  ofWords : Numeral 64 → Bool → α

namespace WordView

variable {s : Signedness} {w : Nat} {α β : Type}

/-! ## Machine widths -/

/-- The place of a word in a double word; words that lie above it are at the top bit. -/
def distance (index : Nat) : Nat := min (min (index * 64) (2 ^ (64 : Nat) - 1)) 127

/-- The word at a place: the value extended to a double word, and shifted down with its sign. -/
def shiftedWord (a : Fixed s w) (index : Nat) : Word :=
  match s with
  | .unsigned => (a.bits.setWidth 128 >>> distance index).setWidth 64
  | .signed => ((a.bits.signExtend 128).sshiftRight (distance index)).setWidth 64

/-- Words read into a double word from a place up until the width is full, those of the extension once the others are
used up. -/
def gather (w : Nat) (extension : Word) (words : Numeral 64) (accumulator : BitVec 128) (place : Nat) : BitVec 128 :=
  if place < w then
    gather w extension words.tail (accumulator ||| (words.headD extension).setWidth 128 <<< place) (place + 64)
  else accumulator
termination_by w - place

/-- Types of a machine width. -/
def machine (s : Signedness) (w : Nat) : WordView (Fixed s w) where
  signedness := s
  bounds? := some ⟨Fixed.least, Fixed.greatest⟩
  order := compare
  appendix := Fixed.negative
  bodyLength _ := Fixed.wordCount w
  word := shiftedWord
  ofWords words appendix := ⟨(gather w (Limb.filled 64 appendix) words 0 0).setWidth w⟩

/-! ## One bit -/

open Operations (bit ofBit)

/-- Types of one bit. A set bit is the greater one of the unsigned type and the lesser one of the signed type, where
it extends to all words. -/
def oneBit (s : Signedness) : WordView (Fixed s 1) where
  signedness := s
  bounds? := some (match s with
    | .unsigned => ⟨ofBit false, ofBit true⟩
    | .signed => ⟨ofBit true, ofBit false⟩)
  order := Operations.oneBit.order
  appendix a := s.isSigned && bit a
  bodyLength _ := 1
  word a index := match index, bit a, s with
    | _, false, _ => 0
    | 0, true, .unsigned => 1
    | _, true, .signed => BitVec.allOnes 64
    | _, true, .unsigned => 0
  ofWords words appendix := ofBit (match words.head? with
    | some word => word.getLsbD 0
    | none => appendix)

/-! ## Unbounded integers -/

/-- Unbounded integers show the words that they are made of. -/
def unbounded (s : Signedness) : WordView (Unbounded s) where
  signedness := s
  bounds? := (IntType.unbounded s).bounds?
  order := compare
  appendix x := x.fill
  bodyLength x := x.body.length
  word x := x.word
  ofWords words appendix := .ofStream ⟨words, appendix⟩

/-! ## Conversions -/

/-- True for signed values below zero. -/
def negative (view : WordView α) (a : α) : Bool := view.signedness.isSigned && view.appendix a

/-- The value of the source's words, of which the target keeps the low bits. -/
def convertMasking (target : WordView α) (source : WordView β) (b : β) : α :=
  target.ofWords ((List.range (source.bodyLength b)).map (source.word b)) (source.appendix b)

/-- The same, flagged when the target has other words than the source, or reads a set appendix otherwise. -/
def convertExact (target : WordView α) (source : WordView β) (b : β) : Flagged α :=
  let result := target.convertMasking source b
  let length := max (target.bodyLength result) (source.bodyLength b)
  let lossless := target.appendix result == source.appendix b &&
    (!source.appendix b || source.signedness == target.signedness) &&
    (List.range length).all fun i => target.word result i == source.word b i
  ⟨result, !lossless⟩

/-- The source's value, or the bound of the target on its side. -/
def convertClamping (target : WordView α) (bounds : Bounds α) (source : WordView β) (b : β) : α :=
  let result := target.convertExact source b
  if !result.flag then result.value
  else if source.negative b then bounds.least
  else bounds.greatest

end WordView

/-! ## The types -/

/-- A type of the library. -/
inductive Representation where
  | fixed (t : FixedType)
  | unbounded (s : Signedness)
deriving DecidableEq

namespace Representation

/-- The type among those of all widths. -/
@[reducible] def intType : Representation → IntType
  | fixed t => .fixed t.signedness t.width
  | unbounded s => .unbounded s

/-- The values of a type. -/
@[reducible] def Value (r : Representation) : Type := r.intType.Value

/-- How a type writes its values. -/
def view : (r : Representation) → WordView r.Value
  | fixed (.oneBit s) => WordView.oneBit s
  | fixed (.machine s w) => WordView.machine s w.bits
  | unbounded s => WordView.unbounded s

end Representation

end TwosComplement
