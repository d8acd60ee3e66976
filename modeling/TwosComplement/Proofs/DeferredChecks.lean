import TwosComplement.Fixed.CheckedChain
import TwosComplement.Proofs.Masking

/-!
# Proofs/DeferredChecks — one look at the flag of a chain settles all its steps

A step of a chain stores its exact result and joins its flag to the flags before it. The value under a clear flag is
therefore exact, and one exact result out of range raises the flag for good. What is stored afterwards may come back
into range; it stays in the residue class of the exact result as long as nothing is divided.

* `CheckedStep.apply_eq_wrap`: the one form of all steps.
* `CheckedStep.Follows`: a state follows an integer while all is well. `CheckedStep.Follows.apply` is kept by a step,
  `CheckedStep.Follows.foldl` by a run.
* `CheckedStep.foldl_modEq`: the residue class, under any flag.
* `FixedType.chain_settles`: flags and values of whole chains, in every type.
-/

namespace TwosComplement

/-- An integer between the bounds of a type. -/
def Fixed.InRange (s : Signedness) (w : ℕ) (n : ℤ) : Prop :=
  (least : Fixed s w).toInt ≤ n ∧ n ≤ (greatest : Fixed s w).toInt

namespace CheckedStep

variable {s : Signedness} {w : ℕ}

/-! ## Steps -/

/-- Every step stores its exact result; the flag is that of the storing, joined to what was raised before. -/
theorem apply_eq_wrap (state : Flagged (Fixed s w)) (step : CheckedStep s w) :
    step.apply Operations.machine state =
      (Fixed.wrap (step.exact state.value.toInt)).flagIf (state.flag || step.raises) := by
  have hkept (a : Fixed s w) (flag : Bool) : (⟨a, flag⟩ : Flagged (Fixed s w)) = (Fixed.wrap a.toInt).flagIf flag := by
    rw [Fixed.wrap_toInt]
    exact Flagged.ext rfl (Bool.false_or flag).symm
  have hbind (x : Flagged (Fixed s w)) : x.flagIf state.flag = x.flagIf (state.flag || false) := by
    rw [Bool.or_false]
  cases step with
  | add b => exact hbind _
  | sub b => exact hbind _
  | mul b => exact hbind _
  | neg => exact hbind _
  | tdiv d => exact hbind _
  | tmod d =>
    -- the remainder fits, so that storing it is no loss
    show (⟨state.value.tmod d, state.flag⟩ : Flagged (Fixed s w)) =
      (Fixed.wrap (state.value.toInt.tmod d.val.toInt)).flagIf (state.flag || false)
    rw [hkept, Fixed.toInt_tmod, Bool.or_false]
  | flagIf condition => exact hkept state.value (state.flag || condition)

theorem flag_apply_eq_false_iff (state : Flagged (Fixed s w)) (step : CheckedStep s w) :
    (step.apply Operations.machine state).flag = false ↔
      state.flag = false ∧ step.raises = false ∧ Fixed.InRange s w (step.exact state.value.toInt) := by
  rw [apply_eq_wrap, Flagged.flag_flagIf, Bool.or_eq_false_iff, Bool.or_eq_false_iff, Fixed.flag_wrap_eq_false_iff,
    Fixed.toInt_ofInt_eq_iff, and_comm, and_assoc]
  exact Iff.rfl

theorem toInt_apply (state : Flagged (Fixed s w)) (step : CheckedStep s w) :
    (step.apply Operations.machine state).value.toInt =
      (Fixed.ofInt (step.exact state.value.toInt) : Fixed s w).toInt := by
  rw [apply_eq_wrap, Flagged.value_flagIf, Fixed.value_wrap]

/-! ## Exact values under a clear flag -/

/-- A state follows an integer: its flag is clear just when all has been well so far, and then its value is that
integer. -/
structure Follows (state : Flagged (Fixed s w)) (n : ℤ) (well : Prop) : Prop where
  flag_iff : state.flag = false ↔ well
  toInt_eq : state.flag = false → state.value.toInt = n

variable {state : Flagged (Fixed s w)} {n : ℤ} {well : Prop}

theorem follows_ok (a : Fixed s w) : Follows (.ok a) a.toInt True := by
  refine ⟨iff_true_intro rfl, ?_⟩
  intro _
  rfl

/-- What one step keeps. -/
theorem Follows.apply (h : Follows state n well) (step : CheckedStep s w) :
    Follows (step.apply Operations.machine state) (step.exact n)
      (well ∧ step.raises = false ∧ Fixed.InRange s w (step.exact n)) := by
  constructor
  · rw [flag_apply_eq_false_iff, ← h.flag_iff]
    refine and_congr_right ?_
    intro hclear
    rw [h.toInt_eq hclear]
  · intro hclear
    obtain ⟨hflag, -, hrange⟩ := (flag_apply_eq_false_iff state step).mp hclear
    rw [toInt_apply, (Fixed.toInt_ofInt_eq_iff _).mpr hrange, h.toInt_eq hflag]

/-- What a whole run keeps. -/
theorem Follows.foldl (h : Follows state n well) (steps : List (CheckedStep s w)) :
    Follows (steps.foldl (CheckedStep.apply Operations.machine) state) (exactRun n steps)
      (well ∧ (∀ step ∈ steps, step.raises = false) ∧ ∀ m ∈ exactTrace n steps, Fixed.InRange s w m) := by
  induction steps generalizing state n well with
  | nil =>
    refine ⟨h.flag_iff.trans ?_, h.toInt_eq⟩
    simp [exactTrace]
  | cons step steps ih =>
    obtain ⟨hflag, hvalue⟩ := ih (h.apply step)
    refine ⟨hflag.trans ?_, hvalue⟩
    -- the first step and the first exact result join those of the rest
    rw [exactTrace, List.forall_mem_cons, List.forall_mem_cons]
    tauto

/-! ## Residue classes under any flag -/

/-- Without division a step respects residue classes. -/
theorem exact_modEq {step : CheckedStep s w} (hstep : step.divides = false) {m n : ℤ} (h : m ≡ n [ZMOD 2 ^ w]) :
    step.exact m ≡ step.exact n [ZMOD 2 ^ w] := by
  cases step with
  | add b => exact h.add_right _
  | sub b => exact h.sub_right _
  | mul b => exact h.mul_right _
  | neg => exact h.neg
  | tdiv d => cases hstep
  | tmod d => cases hstep
  | flagIf condition => exact h

theorem apply_modEq {step : CheckedStep s w} (hstep : step.divides = false) (h : state.value.toInt ≡ n [ZMOD 2 ^ w]) :
    (step.apply Operations.machine state).value.toInt ≡ step.exact n [ZMOD 2 ^ w] := by
  rw [toInt_apply]
  exact (Fixed.toInt_ofInt_modEq _).trans (exact_modEq hstep h)

theorem foldl_modEq {steps : List (CheckedStep s w)} (hsteps : ∀ step ∈ steps, step.divides = false)
    (h : state.value.toInt ≡ n [ZMOD 2 ^ w]) :
    (steps.foldl (CheckedStep.apply Operations.machine) state).value.toInt ≡ exactRun n steps [ZMOD 2 ^ w] := by
  induction steps generalizing state n with
  | nil => exact h
  | cons step steps ih =>
    obtain ⟨hstep, hrest⟩ := List.forall_mem_cons.mp hsteps
    exact ih hrest (apply_modEq hstep h)

/-! ## Chains of all steps -/

/-- A step whose divisor is known to divide is a step of a chain that does not fail. -/
theorem apply_toChainStep (state : Flagged (Fixed s w)) (step : CheckedStep s w) :
    step.toChainStep.apply state = .ok (step.apply Operations.machine state) := by
  cases step with
  | tdiv d =>
    show (Nonzero.ofValue d.val >>= fun d => pure (state.bind (·.tdiv d))) = _
    rw [Nonzero.ofValue_val]
    rfl
  | tmod d =>
    show (Nonzero.ofValue d.val >>= fun d => pure (state.map (·.tmod d))) = _
    rw [Nonzero.ofValue_val]
    rfl
  | add b => rfl
  | sub b => rfl
  | mul b => rfl
  | neg => rfl
  | flagIf condition => rfl

/-- The chain reports a state after each step, the last of them after all steps. -/
theorem trace_map_toChainStep (state : Flagged (Fixed s w)) (steps : List (CheckedStep s w)) :
    (ChainStep.trace state (steps.map toChainStep)).getLastD (.ok state) =
      .ok (steps.foldl (CheckedStep.apply Operations.machine) state) := by
  induction steps generalizing state with
  | nil => rfl
  | cons step steps ih =>
    have hnext : ChainStep.trace state ((step :: steps).map toChainStep) =
        .ok (step.apply Operations.machine state) ::
          ChainStep.trace (step.apply Operations.machine state) (steps.map toChainStep) := by
      rw [List.map_cons, ChainStep.trace, apply_toChainStep]
    rw [hnext, List.getLastD_cons]
    exact ih _

/-! ## The contract -/

/-- What the state at the end of a chain tells about its steps. -/
structure Settles (start : Fixed s w) (steps : List (CheckedStep s w)) (final : Flagged (Fixed s w)) : Prop where
  /-- The flag is clear just when no condition held and every exact result was in range. -/
  flag_iff : final.flag = false ↔
    (∀ step ∈ steps, step.raises = false) ∧ ∀ n ∈ exactTrace start.toInt steps, Fixed.InRange s w n
  /-- Under a clear flag the value is the exact result. -/
  toInt_eq : final.flag = false → final.value.toInt = exactRun start.toInt steps
  /-- Without division it is in the residue class of the exact result, whatever the flag. -/
  modEq : (∀ step ∈ steps, step.divides = false) →
    final.value.toInt ≡ exactRun start.toInt steps [ZMOD 2 ^ w]

theorem settles_run (start : Fixed s w) (steps : List (CheckedStep s w)) :
    Settles start steps (run Operations.machine start steps) := by
  obtain ⟨hflag, hvalue⟩ := (follows_ok start).foldl steps
  refine ⟨hflag.trans (iff_of_eq (true_and _)), hvalue, ?_⟩
  intro hsteps
  exact foldl_modEq hsteps (Int.ModEq.refl _)

end CheckedStep

/-- **The flag at the end of a chain is the check of all its steps.**  In every type, of one bit by its tables or of a
machine width, an arithmetic chain from any value runs to its end.  Its flag is clear just when no condition held and
every exact result on the way was in range; the value is then the exact one.  A chain without division ends in the
residue class of the exact result under any flag.  The state is the last that the chain reports. -/
theorem FixedType.chain_settles (t : FixedType) (start : Fixed t.signedness t.width)
    (steps : List (CheckedStep t.signedness t.width)) :
    CheckedStep.Settles start steps (CheckedStep.run t.operations.toOperations start steps) ∧
    (ChainStep.trace (.ok start) (steps.map CheckedStep.toChainStep)).getLastD (.ok (.ok start)) =
      .ok (CheckedStep.run t.operations.toOperations start steps) := by
  rw [t.operations_eq_machine]
  exact ⟨CheckedStep.settles_run start steps, CheckedStep.trace_map_toChainStep (.ok start) steps⟩

/-- A sum of signed bytes that overflows and comes back is flagged, and right in its residue class; one that stays in
range is exact. -/
theorem FixedType.chain_settles_byte :
    (CheckedStep.run (FixedType.machine .signed .bits8).operations.toOperations (.ofInt 100)
        [.add (.ofInt 100), .sub (.ofInt 90)]).value.toInt ≡ 110 [ZMOD 2 ^ 8] ∧
    (CheckedStep.run (FixedType.machine .signed .bits8).operations.toOperations (.ofInt 100)
        [.add (.ofInt 100), .sub (.ofInt 90)]).flag = true ∧
    (CheckedStep.run (FixedType.machine .signed .bits8).operations.toOperations (.ofInt 100)
        [.sub (.ofInt 90), .add (.ofInt 100)]).value.toInt = 110 := by
  have hover := (chain_settles (.machine .signed .bits8) (.ofInt 100) [.add (.ofInt 100), .sub (.ofInt 90)]).1
  have hfits := (chain_settles (.machine .signed .bits8) (.ofInt 100) [.sub (.ofInt 90), .add (.ofInt 100)]).1
  exact ⟨hover.modEq (by decide), by decide, hfits.toInt_eq (by decide)⟩

end TwosComplement
