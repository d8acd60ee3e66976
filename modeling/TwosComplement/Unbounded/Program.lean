import TwosComplement.Unbounded.Division

/-!
# Unbounded/Program — the instructions of programs over unbounded integers

A program works on registers that are only ever added: each instruction reads registers by number and pushes
its results behind the last one. It halts at a zero divisor or a register that does not exist.
-/

namespace TwosComplement

/-- An instruction; operands are register numbers. -/
inductive Instruction where
  /-- Pushes the integer of any stream, trimmed or not. -/
  | value (x : WordStream)
  | zero
  | one
  | add (a b : Nat)
  | sub (a b : Nat)
  | mul (a b : Nat)
  | neg (a : Nat)
  | and (a b : Nat)
  | or (a b : Nat)
  | xor (a b : Nat)
  | complement (a : Nat)
  | shiftLeft (a distance : Nat)
  | shiftRight (a distance : Nat)
  /-- Pushes the absolute value, read with the signedness of the program. -/
  | magnitude (a : Nat)
  /-- Pushes the quotient, then the remainder. -/
  | divide (a b : Nat)
  /-- The same by a word. -/
  | divideBy (a : Nat) (divisor : Word)
deriving DecidableEq

/-- Why a program stops before its end. -/
inductive Halt where
  | fault (fault : Fault)
  | noRegister (number : Nat)
deriving DecidableEq

namespace Instruction

variable {s : Signedness}

/-- The content of a register. -/
def read (registers : List (Unbounded s)) (number : Nat) : Except Halt (Unbounded s) :=
  match registers[number]? with
  | some x => .ok x
  | none => .error (.noRegister number)

/-- Two results to push. -/
def both (division : Flagged (QuotRem (Unbounded s) (Unbounded s))) : Flagged (List (Unbounded s)) :=
  division.map fun d => [d.quotient, d.remainder]

/-- The values that an instruction pushes, and their flag. -/
def results (registers : List (Unbounded s)) : Instruction → Except Halt (Flagged (List (Unbounded s)))
  | value x => .ok (.ok [.ofStream x])
  | zero => .ok (.ok [0])
  | one => .ok (.ok [1])
  | add a b => do return ((← read registers a).add (← read registers b)).map ([·])
  | sub a b => do return ((← read registers a).sub (← read registers b)).map ([·])
  | mul a b => do return ((← read registers a).mul (← read registers b)).map ([·])
  | neg a => do return (← read registers a).neg.map ([·])
  | and a b => do return .ok [(← read registers a) &&& (← read registers b)]
  | or a b => do return .ok [(← read registers a) ||| (← read registers b)]
  | xor a b => do return .ok [(← read registers a) ^^^ (← read registers b)]
  | complement a => do return .ok [~~~(← read registers a)]
  | shiftLeft a k => do return .ok [(← read registers a) <<< k]
  | shiftRight a k => do return .ok [(← read registers a) >>> k]
  | magnitude a => do return .ok [.ofStream (← read registers a).magnitude.toWordStream]
  | divide a b => do
    let x ← read registers a
    let d ← (Nonzero.ofValue (← read registers b)).mapError Halt.fault
    return both (← (x.divide d).mapError Halt.fault)
  | divideBy a word => do
    let x ← read registers a
    let d ← (Nonzero.ofValue word).mapError Halt.fault
    let r ← (LimbReciprocal.ofDivisor d).mapError Halt.fault
    return both (← (x.divideBy r).mapError Halt.fault)

end Instruction

end TwosComplement
