import TwosComplement.Fixed.Arithmetic

/-!
# Count — how many bits, when there may be infinitely many

A value that is extended by its top bit for ever has runs and populations that are infinite, or infinite but for a few
bits. A count is one signed word: a word that is not negative is that many, and a negative word is infinity less a
deficit, of which it is the complement. So minus one is infinity itself, and every word is a count. Read unsigned, the
word is the order: every finite count lies below every infinite one, and a smaller deficit is larger.

* `Count.extent`: what a count says, a number or a deficit.
* `Count.up` and `Count.down` stay in their half, stop at its ends and flag it.
* `Count.trace`: the counts after each of many steps.
-/

namespace TwosComplement

/-- A finite or infinite number of bits, packed into one signed word. -/
structure Count where
  packed : Fixed .signed 64
deriving DecidableEq

/-- What a count says: a number, or how far it lies below infinity. -/
inductive Extent where
  | finite (n : Nat)
  | infinite (deficit : Nat)
deriving DecidableEq

namespace Count

/-! ## Construction -/

/-- The finite count zero. -/
def zero : Count := ⟨0⟩

/-- Infinity itself. -/
def infinity : Count := ⟨⟨BitVec.allOnes 64⟩⟩

instance : Inhabited Count := ⟨zero⟩

/-- The finite count `n`, for numbers of less than half a word. -/
def ofNat (n : Nat) : Count := ⟨⟨BitVec.ofNat 64 n⟩⟩

/-- Infinity minus `deficit`; beyond the largest deficit it stops there and is flagged. -/
def infinityMinus (deficit : Word) : Flagged Count :=
  if (Fixed.greatest : Fixed .signed 64).bits < deficit then .inexact ⟨Fixed.least⟩
  else .ok ⟨~~~⟨deficit⟩⟩

/-! ## Views -/

/-- True for infinite counts. -/
def isInfinite (c : Count) : Bool := c.packed.negative

/-- How far an infinite count lies below infinity. -/
def deficit? (c : Count) : Option Word := if c.isInfinite then some (~~~c.packed).bits else none

/-- The number of a finite count, or the deficit of an infinite one. -/
def extent (c : Count) : Extent :=
  match c.deficit? with
  | none => .finite c.packed.bits.toNat
  | some deficit => .infinite deficit.toNat

/-- The packed number, flagged when the count is infinite. -/
def asFinite (c : Count) : Flagged (Fixed .signed 64) := ⟨c.packed, c.isInfinite⟩

/-- The count in words; infinity is the binary logarithm of the number after the all-ones value. -/
def text (c : Count) : String :=
  match c.extent with
  | .finite n => toString n
  | .infinite 0 => "log2(&0+1)"
  | .infinite deficit => "log2(&0+1)-" ++ toString deficit

/-- The count as a diagnostic shows it. -/
def debugText (c : Count) : String := "Count(" ++ c.text ++ ")"

/-- Counts are ordered as their packed words are, read unsigned. -/
instance : Ord Count := ⟨fun a b => compare a.packed.bits.toNat b.packed.bits.toNat⟩

/-! ## Moving up and down -/

/-- Moves `k` steps up. Finite counts stop at the largest finite one and infinite counts at infinity; a stop
short of `k` steps is flagged. -/
def up (c : Count) (k : Word) : Flagged Count :=
  match c.deficit? with
  | none =>
    let room := (Fixed.greatest.sub c.packed).value.bits
    if k ≤ room then .ok ⟨(c.packed.add ⟨k⟩).value⟩ else .inexact ⟨Fixed.greatest⟩
  | some deficit =>
    match Limb.subBorrow deficit k false with
    | (left, false) => infinityMinus left
    | (_, true) => .inexact infinity

/-- Moves `k` steps down. Finite counts stop at zero and infinite counts at the largest deficit; a stop short
of `k` steps is flagged. -/
def down (c : Count) (k : Word) : Flagged Count :=
  match c.deficit? with
  | none => if k ≤ c.packed.bits then .ok ⟨(c.packed.sub ⟨k⟩).value⟩ else .inexact zero
  | some deficit =>
    match Limb.addCarry deficit k false with
    | (total, false) => infinityMinus total
    | (_, true) => .inexact ⟨Fixed.least⟩

/-- A step in one of the two directions. -/
inductive Step where
  | up (k : Word)
  | down (k : Word)
deriving DecidableEq

/-- The count after a step, flagged when the step stopped short. -/
def step (c : Count) : Step → Flagged Count
  | .up k => c.up k
  | .down k => c.down k

/-- The counts after each step, each with the flag of that step alone. -/
def trace (c : Count) : List Step → List (Flagged Count)
  | [] => []
  | step :: steps => c.step step :: trace (c.step step).value steps

/-- One way to set or move a count. -/
inductive Move where
  | setPacked (packed : Fixed .signed 64)
  | setZero
  | setInfinity
  | setFinite (n : Nat)
  | setInfinityMinus (deficit : Word)
  | step (step : Step)
deriving DecidableEq

/-- The count after a move, flagged when that move stopped short. -/
def move (c : Count) : Move → Flagged Count
  | .setPacked packed => .ok ⟨packed⟩
  | .setZero => .ok zero
  | .setInfinity => .ok infinity
  | .setFinite n => .ok (ofNat n)
  | .setInfinityMinus deficit => infinityMinus deficit
  | .step step => c.step step

end Count

end TwosComplement
