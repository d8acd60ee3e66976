/-!
# QuotRem — the two results of a division
-/

namespace TwosComplement

/-- A quotient and a remainder. -/
structure QuotRem (α β : Type) where
  quotient : α
  remainder : β
deriving DecidableEq

/-- Applies one function to the quotient and one to the remainder. -/
def QuotRem.map {α β γ δ : Type} (f : α → γ) (g : β → δ) (x : QuotRem α β) : QuotRem γ δ :=
  ⟨f x.quotient, g x.remainder⟩

end TwosComplement
