import Mathlib.Data.List.Forall2
import TwosComplement.Proofs.StreamBits
import TwosComplement.Unbounded.MixedProgram

/-!
# Proofs/CanonicalForm — registers hold trimmed streams in every run

The registers of a program are bare parts, so that nothing but the instructions keeps them trimmed.

* `MixedInstruction.trimmed_of_mem_results`, `MixedInstruction.trimmed_run`: what one instruction fills is trimmed,
  and by induction what a whole run fills.
* `Register.read_parts`: a trimmed register is read as it stands, in either kind.
* `MixedInstruction.run_eq_of_sameBits`: a run does not see how its literals are cut into body and fill.
* `MixedInstruction.run_canonical`: the invariant, and equality of registers as equality of bits.
-/

namespace TwosComplement

/-- A trimmed register is read as it stands. -/
theorem Register.read_parts {r : Register} (h : r.parts.Trimmed) (s : Signedness) :
    (r.read s).toWordStream = r.parts := h.trim_eq

namespace MixedInstruction

variable {registers : List Register}

/-! ## The invariant -/

/-- Whatever an instruction pushes is an integer taken apart. -/
theorem exists_ofValue_of_mem_results {instruction : MixedInstruction} {pushed : Flagged (List Register)}
    {r : Register} (h : instruction.results registers = .ok pushed) (hr : r ∈ pushed.value) :
    ∃ (s : Signedness) (x : Unbounded s), r = .ofValue x := by
  cases instruction with
  | within s i =>
    obtain ⟨values, -, h⟩ := exists_of_bind_eq_ok h
    cases h
    obtain ⟨x, -, rfl⟩ := List.mem_map.mp hr
    exact ⟨s, x, rfl⟩
  | widen s a =>
    cases h
    exact ⟨s, _, List.mem_singleton.mp hr⟩
  | greatest =>
    cases h
    exact ⟨.unsigned, _, List.mem_singleton.mp hr⟩
  | magnitude a =>
    obtain ⟨x, -, h⟩ := exists_of_bind_eq_ok h
    cases h
    exact ⟨.unsigned, _, List.mem_singleton.mp hr⟩
  | convertMasking s a =>
    obtain ⟨x, -, h⟩ := exists_of_bind_eq_ok h
    cases h
    exact ⟨s, _, List.mem_singleton.mp hr⟩
  | convertExact s a =>
    obtain ⟨x, -, h⟩ := exists_of_bind_eq_ok h
    cases h
    exact ⟨s, _, List.mem_singleton.mp hr⟩
  | convertClamping a =>
    obtain ⟨x, -, h⟩ := exists_of_bind_eq_ok h
    cases h
    exact ⟨.unsigned, _, List.mem_singleton.mp hr⟩

theorem trimmed_of_mem_results {instruction : MixedInstruction} {pushed : Flagged (List Register)} {r : Register}
    (h : instruction.results registers = .ok pushed) (hr : r ∈ pushed.value) : r.parts.Trimmed := by
  obtain ⟨s, x, rfl⟩ := exists_ofValue_of_mem_results h hr
  exact x.trimmed

theorem trimmed_run (program : List MixedInstruction) (h : ∀ r ∈ registers, r.parts.Trimmed) :
    ∀ r ∈ (run registers program).registers, r.parts.Trimmed := by
  induction program generalizing registers with
  | nil => exact h
  | cons instruction rest ih =>
    unfold run
    cases hresults : instruction.results registers with
    | error halt => exact h
    | ok pushed =>
      -- nothing is overwritten: a register is an old one or has just been filled
      refine ih fun r hr => ?_
      rcases List.mem_append.mp hr with hr | hr
      · exact h r hr
      · exact trimmed_of_mem_results hresults hr

/-! ## Literals -/

/-- Two instructions that differ at most in how a literal is cut into body and fill. -/
inductive SameBits : MixedInstruction → MixedInstruction → Prop where
  | same (instruction : MixedInstruction) : SameBits instruction instruction
  | literal (s : Signedness) {x y : WordStream} (h : ∀ n, x.bit n = y.bit n) :
      SameBits (.within s (.value x)) (.within s (.value y))

theorem results_literal (s : Signedness) (x : WordStream) :
    (within s (.value x)).results registers = .ok (.ok [⟨s, x.trim⟩]) := rfl

theorem SameBits.results_eq {i j : MixedInstruction} (h : SameBits i j) :
    i.results registers = j.results registers := by
  cases h with
  | same => rfl
  | @literal s x y h =>
    have htrim : x.trim = y.trim := (x.trimmed_trim.eq_iff_bits y.trimmed_trim).mpr fun n => by
      rw [WordStream.bit_trim, WordStream.bit_trim, h]
    rw [results_literal, results_literal, htrim]

theorem run_eq_of_sameBits {p q : List MixedInstruction} (h : List.Forall₂ SameBits p q) :
    run registers p = run registers q := by
  induction h generalizing registers with
  | nil => rfl
  | @cons i j p q hij hpq ih =>
    unfold run
    rw [hij.results_eq]
    cases j.results registers with
    | error halt => rfl
    | ok pushed => exact ih

/-! ## The contract -/

/-- **Canonical form is an invariant of every run, and makes equality of registers equality of bits.**  Every
register that a program fills holds a trimmed stream, whatever the flags and however the program stops, and is read
back as it stands.  Registers of one kind, of one run or of two, are equal just when their bits are, those past the
bodies included.  Trimming itself, which is all that happens to a literal, changes no bit, so that a run does not
depend on how its literals are written. -/
theorem run_canonical (program : List MixedInstruction) :
    (∀ r ∈ (run [] program).registers, r.parts.Trimmed ∧ ∀ s, (r.read s).toWordStream = r.parts) ∧
    (∀ other, ∀ x ∈ (run [] program).registers, ∀ y ∈ (run [] other).registers, x.kind = y.kind →
      (x = y ↔ ∀ n, x.parts.bit n = y.parts.bit n)) ∧
    (∀ registers s x, (within s (.value x)).results registers = .ok (.ok [⟨s, x.trim⟩]) ∧
      ∀ n, x.trim.bit n = x.bit n) ∧
    ∀ other, List.Forall₂ SameBits program other → run [] program = run [] other := by
  have htrimmed (p : List MixedInstruction) : ∀ r ∈ (run [] p).registers, r.parts.Trimmed :=
    trimmed_run p fun r hr => absurd hr List.not_mem_nil
  refine ⟨?_, ?_, fun registers s x => ⟨results_literal s x, x.bit_trim⟩, fun other h => run_eq_of_sameBits h⟩
  · intro r hr
    exact ⟨htrimmed program r hr, Register.read_parts (htrimmed program r hr)⟩
  · rintro other ⟨s, x⟩ hx ⟨t, y⟩ hy hkind
    obtain rfl : s = t := hkind
    rw [← (htrimmed program _ hx).eq_iff_bits (htrimmed other _ hy), Register.mk.injEq, and_iff_right rfl]

/-- Minus one, as the complement of zero in one run and as an untrimmed literal in another. -/
theorem run_canonical_minus_one :
    ∃ x ∈ (run [] [within .signed .zero, within .signed (.complement 0)]).registers,
      ∃ y ∈ (run [] [within .signed (.value ⟨[BitVec.allOnes 64], true⟩)]).registers,
        x.kind = y.kind ∧ x.parts.Trimmed ∧ (x = y ↔ ∀ n, x.parts.bit n = y.parts.bit n) := by
  have hx : ⟨.signed, [], true⟩ ∈ (run [] [within .signed .zero, within .signed (.complement 0)]).registers := by
    decide
  have hy : ⟨.signed, [], true⟩ ∈ (run [] [within .signed (.value ⟨[BitVec.allOnes 64], true⟩)]).registers := by
    decide
  have h := run_canonical [within .signed .zero, within .signed (.complement 0)]
  exact ⟨_, hx, _, hy, rfl, (h.1 _ hx).1, h.2.1 _ _ hx _ hy rfl⟩

end MixedInstruction

end TwosComplement
