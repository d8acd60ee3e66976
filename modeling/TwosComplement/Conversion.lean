import TwosComplement.IntType

/-!
# Conversion — between any two representations

* `convertMasking` keeps the low bits that the target holds, whatever they meant before.
* `convertExact` does the same and is flagged when the target value does not mean what the source did.
* `convertClamping` replaces a flagged result by the bound of the target on the source's side.
-/

namespace TwosComplement

/-- What a conversion does with values that do not fit. -/
inductive Policy where
  /-- Flag them. -/
  | exact
  /-- Move them to the nearest bound. -/
  | clamping
  /-- Keep their low bits. -/
  | masking
deriving DecidableEq

/-- The name of a policy. -/
def Policy.text : Policy → String
  | exact => "exact"
  | clamping => "clamping"
  | masking => "masking"

namespace IntType

/-- The value of the source's low bits. -/
def convertMasking (target : IntType) {source : IntType} (a : source.Value) : target.Value :=
  target.ofStream (toStream a)

/-- True when two streams have the same words, and the types read a set fill alike. -/
def sameMeaning (x y : WordStream) (s t : Signedness) : Bool :=
  x.fill == y.fill && (!y.fill || s == t) &&
    (List.range (max x.body.length y.body.length)).all fun i => x.word i == y.word i

/-- The value of the source's low bits, flagged when it is another value. -/
def convertExact (target : IntType) {source : IntType} (a : source.Value) : Flagged target.Value :=
  let result := target.convertMasking a
  ⟨result, !sameMeaning (toStream result) (toStream a) source.signedness target.signedness⟩

/-- The source's value, or the nearest bound of the target. -/
def convertClamping (target : IntType) (bounds : Bounds target.Value) {source : IntType} (a : source.Value) :
    target.Value :=
  let result := target.convertExact a
  if !result.flag then result.value
  else if negative a then bounds.least
  else bounds.greatest

/-- The conversion under a policy; only the exact one raises the flag. -/
def convert (target : IntType) (bounds : Bounds target.Value) (policy : Policy) {source : IntType}
    (a : source.Value) : Flagged target.Value :=
  match policy with
  | .exact => target.convertExact a
  | .clamping => .ok (target.convertClamping bounds a)
  | .masking => .ok (target.convertMasking a)

end IntType

end TwosComplement
