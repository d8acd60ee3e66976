import TwosComplement.Fixed.Arithmetic

/-!
# Fixed/Chain — long computations with one flag

A chain applies steps to a flagged value. Steps that can overflow are composed by `Flagged.bind`, steps that
cannot by `Flagged.map`, so a flag once raised stays raised while the wrapped value is computed on. Only a
zero divisor stops a step, and then the state is kept.
-/

namespace TwosComplement

/-- One step of a chain. -/
inductive ChainStep (s : Signedness) (w : Nat) where
  | add (b : Fixed s w)
  | sub (b : Fixed s w)
  | mul (b : Fixed s w)
  | tdiv (d : Fixed s w)
  | tmod (d : Fixed s w)
  | neg
  | shiftLeft (distance : Nat)
  | shiftRight (distance : Nat)
  | and (b : Fixed s w)
  | or (b : Fixed s w)
  | xor (b : Fixed s w)
  | complement
  | addSat (b : Fixed s w)
  | subSat (b : Fixed s w)
  | mulSat (b : Fixed s w)
  | negSat
  /-- Raises the flag on a condition. -/
  | flagIf (condition : Bool)
  /-- Combines with a flagged value. -/
  | xorFlagged (b : Flagged (Fixed s w))
  /-- Starts again. -/
  | restart (state : Flagged (Fixed s w))
deriving DecidableEq

namespace ChainStep

variable {s : Signedness} {w : Nat}

/-- The state after one step. -/
def apply (state : Flagged (Fixed s w)) : ChainStep s w → Except Fault (Flagged (Fixed s w))
  | add b => .ok (state.bind (·.add b))
  | sub b => .ok (state.bind (·.sub b))
  | mul b => .ok (state.bind (·.mul b))
  | tdiv d => do return state.bind (·.tdiv (← Nonzero.ofValue d))
  | tmod d => do return state.map (·.tmod (← Nonzero.ofValue d))
  | neg => .ok (state.bind Fixed.neg)
  | shiftLeft k => .ok (state.bind (·.shiftLeft k))
  | shiftRight k => .ok (state.bind (·.shiftRight k))
  | and b => .ok (state.map (· &&& b))
  | or b => .ok (state.map (· ||| b))
  | xor b => .ok (state.map (· ^^^ b))
  | complement => .ok (state.map (~~~ ·))
  | addSat b => .ok (state.map (·.addSat b))
  | subSat b => .ok (state.map (·.subSat b))
  | mulSat b => .ok (state.map (·.mulSat b))
  | negSat => .ok (state.map Fixed.negSat)
  | flagIf condition => .ok (state.flagIf condition)
  | xorFlagged b => .ok ((state.zip b).map fun pair => pair.1 ^^^ pair.2)
  | restart state => .ok state

/-- The states after each step; a fault is reported and followed by the state that it left as it was. -/
def trace (state : Flagged (Fixed s w)) :
    List (ChainStep s w) → List (Except Fault (Flagged (Fixed s w)))
  | [] => []
  | step :: steps =>
    match step.apply state with
    | .ok next => .ok next :: trace next steps
    | .error fault => .error fault :: .ok state :: trace state steps

/-- The state after all steps, if none of them divides by zero. -/
def run (state : Flagged (Fixed s w)) (steps : List (ChainStep s w)) : Except Fault (Flagged (Fixed s w)) :=
  steps.foldlM apply state

end ChainStep

end TwosComplement
