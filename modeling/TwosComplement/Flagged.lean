/-!
# Flagged — values with an error flag

An operation whose exact result does not fit still produces the value it wrapped to, and raises a flag.
Flags are sticky: every way of combining flagged values joins their flags with "or", so one look at the
end of a computation tells whether any step was inexact.

* `Flagged.bind` is the sequential composition, and `Flagged` is a lawful monad under it.
* `Flagged.sequence` gathers a list of flagged values under one flag.
* `Flagged.toExcept` splits a flagged value into an exact one or a `Lossy` one.
-/

namespace TwosComplement

/-- A value together with a flag that is set when the value is not the exact result. -/
structure Flagged (α : Type) where
  value : α
  flag : Bool
deriving DecidableEq

/-- The value that an inexact operation produced anyway. -/
structure Lossy (α : Type) where
  value : α
deriving DecidableEq

/-- The message of a lossy result, given the text of its value. -/
def Lossy.message {α : Type} (text : α → String) (lossy : Lossy α) : String :=
  "Result is not exactly representable (wrapped value: " ++ text lossy.value ++ ")"

namespace Flagged

variable {α β γ : Type}

/-- An exact value. -/
def ok (a : α) : Flagged α := ⟨a, false⟩

/-- A value known to be inexact. -/
def inexact (a : α) : Flagged α := ⟨a, true⟩

/-- Raises the flag when the condition holds. -/
def flagIf (x : Flagged α) (condition : Bool) : Flagged α := ⟨x.value, x.flag || condition⟩

/-- Applies a function that cannot fail. -/
def map (f : α → β) (x : Flagged α) : Flagged β := ⟨f x.value, x.flag⟩

/-- Continues with a step of its own flag; the outcome is flagged if either is. -/
def bind (x : Flagged α) (f : α → Flagged β) : Flagged β := (f x.value).flagIf x.flag

/-- Pairs two values; the pair is flagged if either is. -/
def zip (x : Flagged α) (y : Flagged β) : Flagged (α × β) := ⟨(x.value, y.value), x.flag || y.flag⟩

/-- The value, if it is exact. -/
def toOption (x : Flagged α) : Option α := if x.flag then none else some x.value

/-- The value if it is exact, the lossy value otherwise. -/
def toExcept (x : Flagged α) : Except (Lossy α) α := if x.flag then .error ⟨x.value⟩ else .ok x.value

/-- All values in order, flagged if any of them is. -/
def sequence (xs : List (Flagged α)) : Flagged (List α) := ⟨xs.map value, xs.any flag⟩

instance : Monad Flagged where
  pure := ok
  bind := bind
  map := map

/-! ## Laws -/

@[ext] theorem ext {x y : Flagged α} (value : x.value = y.value) (flag : x.flag = y.flag) : x = y := by
  cases x; cases y; simp_all

@[simp] theorem value_ok (a : α) : (ok a).value = a := rfl

@[simp] theorem flag_ok (a : α) : (ok a).flag = false := rfl

@[simp] theorem value_inexact (a : α) : (inexact a).value = a := rfl

@[simp] theorem flag_inexact (a : α) : (inexact a).flag = true := rfl

@[simp] theorem value_flagIf (x : Flagged α) (c : Bool) : (x.flagIf c).value = x.value := rfl

@[simp] theorem flag_flagIf (x : Flagged α) (c : Bool) : (x.flagIf c).flag = (x.flag || c) := rfl

@[simp] theorem value_map (f : α → β) (x : Flagged α) : (x.map f).value = f x.value := rfl

@[simp] theorem flag_map (f : α → β) (x : Flagged α) : (x.map f).flag = x.flag := rfl

@[simp] theorem value_bind (x : Flagged α) (f : α → Flagged β) :
    (x.bind f).value = (f x.value).value := rfl

@[simp] theorem flag_bind (x : Flagged α) (f : α → Flagged β) :
    (x.bind f).flag = ((f x.value).flag || x.flag) := rfl

theorem ok_bind (a : α) (f : α → Flagged β) : (ok a).bind f = f a := by
  ext <;> simp

theorem bind_ok (x : Flagged α) : x.bind ok = x := by
  ext <;> simp

theorem bind_assoc (x : Flagged α) (f : α → Flagged β) (g : β → Flagged γ) :
    (x.bind f).bind g = x.bind fun a => (f a).bind g := by
  ext <;> simp [Bool.or_assoc]

theorem bind_ok_comp (f : α → β) (x : Flagged α) : (x.bind fun a => ok (f a)) = x.map f := by
  ext <;> simp

instance : LawfulMonad Flagged where
  id_map _ := rfl
  map_const := rfl
  bind_pure_comp := bind_ok_comp
  pure_bind := ok_bind
  bind_assoc := bind_assoc
  bind_map _ _ := rfl
  pure_seq _ _ := ok_bind _ _
  seqLeft_eq _ _ := rfl
  seqRight_eq _ _ := rfl

theorem toOption_eq_some_iff {x : Flagged α} {a : α} : x.toOption = some a ↔ x = ok a := by
  cases x with | mk v b => cases b <;> simp [toOption, ok]

end Flagged

end TwosComplement
