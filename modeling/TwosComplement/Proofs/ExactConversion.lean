import Mathlib.Data.Prod.Lex
import TwosComplement.Proofs.FixedConversion

/-!
# Proofs/ExactConversion — the exact conversion is flagged just when no value of the target will do

A value stands for an integer; an unsigned value with a set fill stands for that integer above one infinity. The
exact conversion compares words, fills and signedness, and thereby what the two values stand for.

* `IntType.meaning`, `IntType.meaning_eq`: what a value stands for, and how its stream tells.
* `IntType.ofStream_eq`: a value is read back from any stream of its integer.
* `IntType.convertExact_eq_ok_iff`: the conversion answers with the value of the same meaning, if there is one.
-/

namespace TwosComplement

namespace IntType

/-! ## What values stand for -/

/-- What a value stands for: how many infinities, and how much besides. The order is lexicographic, so that infinite
values lie above every integer. -/
def meaning : {t : IntType} → t.Value → ℤ ×ₗ ℤ
  | fixed _ _, a => toLex (0, Fixed.toInt a)
  | unbounded .signed, x => toLex (0, x.toInt)
  | unbounded .unsigned, x => toLex (if x.fill then 1 else 0, x.toInt)

theorem infinite_fixed {s : Signedness} {w : ℕ} (a : (fixed s w).Value) : infinite a = false := by
  cases s <;> rfl

/-- The meaning of a value is read off its stream, given which streams are infinite. -/
theorem meaning_eq {t : IntType} (a : t.Value) :
    meaning a = toLex (if infinite a then 1 else 0, (toStream a).toInt) := by
  cases t with
  | fixed s w =>
    have h : (toStream a).toInt = Fixed.toInt a := Fixed.toInt_toStream a
    rw [infinite_fixed, h]
    rfl
  | unbounded s => cases s <;> rfl

theorem meaning_eq_iff {t u : IntType} {a : t.Value} {b : u.Value} :
    meaning b = meaning a ↔ (toStream b).toInt = (toStream a).toInt ∧ infinite b = infinite a := by
  rw [meaning_eq, meaning_eq, toLex_inj, Prod.mk.injEq, and_comm]
  cases infinite a <;> cases infinite b <;> simp

/-- Streams of one value, both with a set fill, mean the same just when the types are both signed or both unsigned. -/
theorem infinite_eq_iff {t u : IntType} {a : t.Value} {b : u.Value} (h : (toStream b).toInt = (toStream a).toInt) :
    infinite b = infinite a ↔ ((toStream a).fill = true → t.signedness = u.signedness) := by
  unfold infinite
  rw [WordStream.fill_eq_of_toInt_eq h]
  cases (toStream a).fill <;> cases t.signedness <;> cases u.signedness <;> simp [Signedness.isSigned]

/-! ## Reading back -/

theorem ofStream_eq {t : IntType} {x : WordStream} {b : t.Value} (h : x.toInt = (toStream b).toInt) :
    t.ofStream x = b := by
  cases t with
  | fixed s w =>
    have hb : (toStream b).toInt = Fixed.toInt b := Fixed.toInt_toStream b
    refine (Fixed.ofStream_eq_ofInt x).trans ?_
    rw [h, hb, Fixed.ofInt_toInt]
  | unbounded s => exact Unbounded.toInt_injective ((Unbounded.toInt_ofStream x).trans h)

theorem flag_convertExact_iff {t u : IntType} (a : t.Value) :
    (u.convertExact a).flag = false ↔ meaning (u.convertMasking a) = meaning a := by
  show (!sameMeaning (toStream (u.convertMasking a)) (toStream a) t.signedness u.signedness) = false ↔ _
  rw [Bool.not_eq_false', sameMeaning_iff, meaning_eq_iff]
  exact and_congr_right fun h => (infinite_eq_iff h).symm

/-- The exact conversion answers with the value of the same meaning. -/
theorem convertExact_eq_ok_iff {t u : IntType} (a : t.Value) (b : u.Value) :
    u.convertExact a = .ok b ↔ meaning b = meaning a := by
  constructor
  · intro h
    have hvalue : u.convertMasking a = b := congrArg Flagged.value h
    have hflag : (u.convertExact a).flag = false := by rw [h, Flagged.flag_ok]
    rw [← hvalue]
    exact (flag_convertExact_iff a).mp hflag
  · intro h
    have hvalue : u.convertMasking a = b := ofStream_eq (meaning_eq_iff.mp h).1.symm
    refine Flagged.ext hvalue ?_
    rw [Flagged.flag_ok, flag_convertExact_iff, hvalue]
    exact h

theorem flag_convertExact_eq_false_iff {t u : IntType} (a : t.Value) :
    (u.convertExact a).flag = false ↔ ∃ b : u.Value, meaning b = meaning a := by
  constructor
  · intro h
    exact ⟨_, (flag_convertExact_iff a).mp h⟩
  · rintro ⟨b, hb⟩
    rw [(convertExact_eq_ok_iff a b).mpr hb, Flagged.flag_ok]

/-! ## The contract -/

/-- **The exact conversion flags exactly what the target cannot represent.**  Between any two types it is clear just
when some value of the target means what the source does; it answers without a flag with the values of that meaning
and no others, and the way back from each of them is clear and gives the source again. -/
theorem convertExact_exact (t u : IntType) (a : t.Value) :
    ((u.convertExact a).flag = false ↔ ∃ b : u.Value, meaning b = meaning a) ∧
    (∀ b : u.Value, u.convertExact a = .ok b ↔ meaning b = meaning a) ∧
    ∀ b : u.Value, u.convertExact a = .ok b ↔ t.convertExact b = .ok a := by
  refine ⟨flag_convertExact_eq_false_iff a, convertExact_eq_ok_iff a, fun b => ?_⟩
  rw [convertExact_eq_ok_iff, convertExact_eq_ok_iff]
  exact eq_comm

end IntType

end TwosComplement
