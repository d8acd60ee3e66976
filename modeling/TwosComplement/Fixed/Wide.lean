import TwosComplement.DoubleWidth

/-!
# Fixed/Wide — products into, and divisions out of, twice the width

Machine widths go up to one word, so twice the width goes up to a double word. Products and divisions of twice the width
are computed there, whatever the width: factors are widened to double words and their product is cut in two, and the
halves of a dividend are put together in a double word. A quotient that is too large for the width is wrapped and
flagged; of the least double word by minus one the quotient is too large even for a double word, and wraps there first.
-/

namespace TwosComplement

namespace Fixed

variable {s : Signedness} {w : Nat}

/-- The value in another width: the sign fills bits that are new, and bits that have no place are dropped. -/
def resize (v : Nat) (a : Fixed s w) : Fixed s v := ofInt a.toInt

/-- The full product. -/
def mulWide (a b : Fixed s w) : DoubleWidth s w :=
  let product := ((a.resize 128).mul (b.resize 128)).value
  ⟨(product.resize w).bits, ((product.shiftRight w).value.resize w).bits⟩

/-- The halves of a double-width integer put together in a double word. -/
def joined (x : DoubleWidth s w) : Fixed s 128 :=
  ((x.highPart.resize 128).shiftLeft w).value ||| ⟨x.low.setWidth 128⟩

/-- Divides a double-width dividend, truncating; the flag says that the quotient does not fit one width. -/
def tdivWide (x : DoubleWidth s w) (d : Nonzero (Fixed s w)) :
    Except Fault (Flagged (QuotRem (Fixed s w) (Fixed s w))) := do
  let divisor ← Nonzero.ofValue (d.val.resize 128)
  let quotient := ((joined x).tdiv divisor).value
  let narrowed := quotient.resize w
  return ⟨⟨narrowed, ((joined x).tmod divisor).resize w⟩, decide (narrowed.resize 128 ≠ quotient)⟩

end Fixed

end TwosComplement
