import TwosComplement.Conversion
import TwosComplement.Unbounded.Program

/-!
# Unbounded/MixedProgram — programs over signed and unsigned unbounded integers together

A register of such a program keeps an integer taken apart: its kind, and its words and fill as bare parts, which
nothing forces to be trimmed. An instruction that works in one kind reads its operands in that kind, whatever
kind they have, by their bits; the others convert between the kinds and from fixed widths, or take absolute
values. As before, registers are only ever added.

* `MixedInstruction.run` goes on until the end of the program, or until it halts, and keeps every register that it
  filled on the way.
-/

namespace TwosComplement

/-- An unbounded integer of either kind, taken apart. -/
structure Register where
  kind : Signedness
  parts : WordStream
deriving DecidableEq

namespace Register

/-- An integer taken apart. -/
def ofValue {s : Signedness} (x : Unbounded s) : Register := ⟨s, x.toWordStream⟩

/-- The integer of a kind with the words of the register. -/
def read (r : Register) (s : Signedness) : Unbounded s := IntType.ofStream (.unbounded s) r.parts

/-- The integer put together again in its own kind. -/
def value (r : Register) : (IntType.unbounded r.kind).Value := r.read r.kind

end Register

/-- An instruction of a program over both kinds; operands are register numbers. -/
inductive MixedInstruction where
  /-- Works in one kind. -/
  | within (s : Signedness) (instruction : Instruction)
  /-- Pushes a fixed-width integer as one of a kind. -/
  | widen (s : Signedness) {t : Signedness} {w : Nat} (a : Fixed t w)
  /-- Pushes the greatest unsigned value. -/
  | greatest
  /-- Pushes the absolute value, which is unsigned. -/
  | magnitude (a : Nat)
  /-- Pushes the integer of a kind with the same bits. -/
  | convertMasking (s : Signedness) (a : Nat)
  /-- The same, flagged when it is another integer. -/
  | convertExact (s : Signedness) (a : Nat)
  /-- Pushes the nearest unsigned value. -/
  | convertClamping (a : Nat)

/-- Where a program stands when it stops: the registers that it has filled, and why it stopped unless it came to
its end. -/
structure Outcome where
  registers : List Register
  halt : Option Halt

namespace MixedInstruction

/-- The content of a register. -/
def read (registers : List Register) (number : Nat) : Except Halt Register :=
  match registers[number]? with
  | some r => .ok r
  | none => .error (.noRegister number)

/-- The registers that an instruction fills, and its flag. -/
def results (registers : List Register) : MixedInstruction → Except Halt (Flagged (List Register))
  | within s instruction => do
    return (← instruction.results (registers.map (·.read s))).map fun pushed => pushed.map .ofValue
  | widen s (t := t) (w := w) a => .ok (.ok [.ofValue (@IntType.convertMasking (.unbounded s) (.fixed t w) a)])
  | greatest => .ok (.ok [.ofValue Unbounded.greatest])
  | magnitude a => do return .ok [.ofValue (← read registers a).value.magnitude]
  | convertMasking s a => do return .ok [.ofValue ((← read registers a).read s)]
  | convertExact s a => do
    let x ← read registers a
    return (IntType.convertExact (.unbounded s) x.value).map fun y => [.ofValue y]
  | convertClamping a => do
    let x ← read registers a
    return .ok [.ofValue (IntType.convertClamping (.unbounded .unsigned) ⟨0, Unbounded.greatest⟩ x.value)]

/-- Runs a program on registers that are filled already. -/
def run (registers : List Register) : List MixedInstruction → Outcome
  | [] => ⟨registers, none⟩
  | instruction :: rest =>
    match instruction.results registers with
    | .ok pushed => run (registers ++ pushed.value) rest
    | .error halt => ⟨registers, some halt⟩

end MixedInstruction

end TwosComplement
