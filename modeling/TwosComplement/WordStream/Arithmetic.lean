import TwosComplement.WordStream.Basic

/-!
# WordStream/Arithmetic — arithmetic on words that go on for ever

Sums, differences and products are computed on finitely many words: enough to hold both bodies and one
guard word more, whose top bit is then the fill of the result. Bitwise operations work word by word and once
more on the words of the fills. No result is trimmed here.
-/

namespace TwosComplement

namespace WordStream

/-! ## Sums -/

/-- The stream of a numeral whose top bit is its sign. -/
def ofGuarded (words : Numeral 64) : WordStream := ⟨words, (words.getLastD 0).msb⟩

/-- `x + y`. -/
def add (x y : WordStream) : WordStream :=
  let length := max x.body.length y.body.length + 1
  ofGuarded (Numeral.addCarry (x.pad length) (y.pad length) false).1

/-- `x - y`, as `x` plus the complement of `y` with a carry. -/
def sub (x y : WordStream) : WordStream :=
  let length := max x.body.length y.body.length + 1
  ofGuarded (Numeral.addCarry (x.pad length) ((y.pad length).map (~~~ ·)) true).1

/-! ## Products -/

/-- Subtracts `ys` from `xs`, `offset` places up, and drops the borrow out of the top. -/
def subtractAt (offset : Nat) (xs ys : Numeral 64) : Numeral 64 :=
  let upper := xs.drop offset
  xs.take offset ++ (Numeral.subBorrow upper (ys.rightpad upper.length 0) false).1

/-- `x * y`: the product of the bodies, corrected for each set fill by the other body above it, and by one
unit above both bodies when both are set. -/
def mul (x y : WordStream) : WordStream :=
  let product := Numeral.mul x.body y.body ++ [0]
  let product := if x.fill then subtractAt x.body.length product y.body else product
  let product := if y.fill then subtractAt y.body.length product x.body else product
  let product :=
    if x.fill && y.fill then product.modify (x.body.length + y.body.length) (· + 1) else product
  ofGuarded product

/-! ## Bitwise operations -/

/-- Combines two streams word by word; the fill is set when the words of the two fills combine to a word with a set
bit. -/
def zipWith (operation : Word → Word → Word) (x y : WordStream) : WordStream :=
  let length := max x.body.length y.body.length
  ⟨List.zipWith operation (x.pad length) (y.pad length), decide (operation x.fillWord y.fillWord ≠ 0)⟩

/-- The bits that are set in both. -/
def and : WordStream → WordStream → WordStream := zipWith (· &&& ·)

/-- The bits that are set in either. -/
def or : WordStream → WordStream → WordStream := zipWith (· ||| ·)

/-- The bits in which the two differ. -/
def xor : WordStream → WordStream → WordStream := zipWith (· ^^^ ·)

/-- Every bit flipped, those of the fill included. -/
def complement (x : WordStream) : WordStream := ⟨x.body.map (~~~ ·), !x.fill⟩

/-! ## Shifts -/

/-- Shifts up: whole words of zeros, then the body and one word of its fill, shifted by the rest. Zero stays
zero without any words. -/
def shiftLeft (x : WordStream) (distance : Nat) : WordStream :=
  if x = ⟨[], false⟩ then x
  else
    let shifted := Numeral.shiftLeft (distance % 64) 0 (x.body ++ [x.fillWord])
    ⟨List.replicate (distance / 64) 0 ++ shifted, x.fill⟩

/-- Shifts down: drops whole words, and shifts what is left of the body by the rest. -/
def shiftRight (x : WordStream) (distance : Nat) : WordStream :=
  ⟨Numeral.shiftRight (distance % 64) x.fillWord (x.body.drop (distance / 64)), x.fill⟩

end WordStream

end TwosComplement
