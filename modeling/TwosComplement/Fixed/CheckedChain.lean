import TwosComplement.Fixed.Chain
import TwosComplement.Fixed.Operations

/-!
# Fixed/CheckedChain — arithmetic chains, in every type and without bounds

The arithmetic steps of a chain take divisors that are known to divide, so that no step fails: a long computation runs
to its end, and its flag is looked at once. Each type computes the steps with operations of its own. The same steps
have exact results over the integers, to which a chain can be held.

* `CheckedStep.run`: a chain in a type, with the flags of all its steps.
* `CheckedStep.exactRun`, `CheckedStep.exactTrace`: the chain over the integers, its result and all results on the way.
-/

namespace TwosComplement

/-- A step of an arithmetic chain. -/
inductive CheckedStep (s : Signedness) (w : Nat) where
  | add (b : Fixed s w)
  | sub (b : Fixed s w)
  | mul (b : Fixed s w)
  | neg
  | tdiv (d : Nonzero (Fixed s w))
  | tmod (d : Nonzero (Fixed s w))
  /-- Raises the flag on a condition. -/
  | flagIf (condition : Bool)
deriving DecidableEq

namespace CheckedStep

variable {s : Signedness} {w : Nat}

/-! ## In a type -/

/-- The step among those of all chains, where divisors are checked on the way. -/
def toChainStep : CheckedStep s w → ChainStep s w
  | add b => .add b
  | sub b => .sub b
  | mul b => .mul b
  | neg => .neg
  | tdiv d => .tdiv d.val
  | tmod d => .tmod d.val
  | flagIf condition => .flagIf condition

/-- The state after one step in a type with the given operations; only the remainder has no flag of its own. -/
def apply (ops : Operations s w) (state : Flagged (Fixed s w)) : CheckedStep s w → Flagged (Fixed s w)
  | add b => state.bind (ops.add · b)
  | sub b => state.bind (ops.sub · b)
  | mul b => state.bind (ops.mul · b)
  | neg => state.bind ops.neg
  | tdiv d => state.bind (ops.tdiv · d)
  | tmod d => state.map (ops.tmod · d)
  | flagIf condition => state.flagIf condition

/-- The state after all steps, from an exact value. -/
def run (ops : Operations s w) (start : Fixed s w) (steps : List (CheckedStep s w)) : Flagged (Fixed s w) :=
  steps.foldl (apply ops) (.ok start)

/-- True for a condition that holds. -/
def raises : CheckedStep s w → Bool
  | flagIf condition => condition
  | _ => false

/-- True for quotients and remainders. -/
def divides : CheckedStep s w → Bool
  | tdiv _ => true
  | tmod _ => true
  | _ => false

/-! ## Over the integers -/

/-- The exact result of one step; conditions leave it as it is. -/
def exact (n : Int) : CheckedStep s w → Int
  | add b => n + b.toInt
  | sub b => n - b.toInt
  | mul b => n * b.toInt
  | neg => -n
  | tdiv d => n.tdiv d.val.toInt
  | tmod d => n.tmod d.val.toInt
  | flagIf _ => n

/-- The exact result of all steps. -/
def exactRun (n : Int) (steps : List (CheckedStep s w)) : Int := steps.foldl exact n

/-- The exact results after each step. -/
def exactTrace (n : Int) : List (CheckedStep s w) → List Int
  | [] => []
  | step :: steps => step.exact n :: exactTrace (step.exact n) steps

end CheckedStep

end TwosComplement
