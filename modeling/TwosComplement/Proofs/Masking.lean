import TwosComplement.Proofs.FixedConversion
import TwosComplement.Proofs.StreamBits

/-!
# Proofs/Masking — keeping the low bits commutes with arithmetic

The low bits of a sum, of a product and of a bitwise combination depend on the low bits of the operands only.
An unbounded integer may therefore be cut to a width before an operation or after it; and read as the other kind it
has the same bits to start with.

* `BitRing`, `BitRing.Hom`: the operations with that property, and the maps that respect them.
* `Fixed.ofInt_eq_iff`: a pattern is a residue class.
* `Unbounded.mask_hom`, `Unbounded.mask_shiftLeft`: cutting to a width.
* `Unbounded.recast_hom`, `Unbounded.toWordStream_recast`: changing the kind.
-/

namespace TwosComplement

/-! ## Operations on bits -/

/-- The operations whose low bits depend on nothing but low bits. -/
structure BitRing (α : Type) where
  add : α → α → α
  sub : α → α → α
  mul : α → α → α
  neg : α → α
  and : α → α → α
  or : α → α → α
  xor : α → α → α
  complement : α → α

/-- A map that respects the operations. -/
structure BitRing.Hom {α β : Type} (F : BitRing α) (G : BitRing β) (φ : α → β) : Prop where
  map_add : ∀ x y, φ (F.add x y) = G.add (φ x) (φ y)
  map_sub : ∀ x y, φ (F.sub x y) = G.sub (φ x) (φ y)
  map_mul : ∀ x y, φ (F.mul x y) = G.mul (φ x) (φ y)
  map_neg : ∀ x, φ (F.neg x) = G.neg (φ x)
  map_and : ∀ x y, φ (F.and x y) = G.and (φ x) (φ y)
  map_or : ∀ x y, φ (F.or x y) = G.or (φ x) (φ y)
  map_xor : ∀ x y, φ (F.xor x y) = G.xor (φ x) (φ y)
  map_complement : ∀ x, φ (F.complement x) = G.complement (φ x)

variable {s k l : Signedness} {w : ℕ}

/-- The operations of a fixed-width type, without their flags. -/
def Operations.bitRing (ops : Operations s w) : BitRing (Fixed s w) where
  add a b := (ops.add a b).value
  sub a b := (ops.sub a b).value
  mul a b := (ops.mul a b).value
  neg a := (ops.neg a).value
  and := ops.and
  or := ops.or
  xor := ops.xor
  complement := ops.complement

namespace Unbounded

/-- The operations of the unbounded integers of a kind, without their flags. -/
def bitRing (k : Signedness) : BitRing (Unbounded k) where
  add x y := (x.add y).value
  sub x y := (x.sub y).value
  mul x y := (x.mul y).value
  neg x := x.neg.value
  and x y := x &&& y
  or x y := x ||| y
  xor x y := x ^^^ y
  complement x := ~~~x

/-- The low bits, as many as the type has. -/
def mask (x : Unbounded k) : Fixed s w := @IntType.convertMasking (.fixed s w) (.unbounded k) x

/-- All bits, as an integer of another kind. -/
def recast (x : Unbounded k) : Unbounded l := @IntType.convertMasking (.unbounded l) (.unbounded k) x

end Unbounded

/-! ## Residues -/

namespace Fixed

/-- Two integers are stored alike when they differ by a multiple of the modulus. -/
theorem ofInt_eq_iff {m n : ℤ} : (ofInt m : Fixed s w) = ofInt n ↔ m ≡ n [ZMOD 2 ^ w] := by
  have hm := Int.emod_nonneg m (b := 2 ^ w) (by positivity)
  have hn := Int.emod_nonneg n (b := 2 ^ w) (by positivity)
  constructor
  · intro h
    have hbits : (BitVec.ofInt w m).toNat = (BitVec.ofInt w n).toNat := congrArg (fun a => a.bits.toNat) h
    rw [BitVec.toNat_ofInt, BitVec.toNat_ofInt] at hbits
    push_cast at hbits
    show m % 2 ^ w = n % 2 ^ w
    omega
  · intro h
    refine Fixed.ext (BitVec.eq_of_toNat_eq ?_)
    show (BitVec.ofInt w m).toNat = (BitVec.ofInt w n).toNat
    rw [BitVec.toNat_ofInt, BitVec.toNat_ofInt]
    push_cast
    rw [h]

/-- What is stored is read back up to a multiple of the modulus. -/
theorem toInt_ofInt_modEq (n : ℤ) : (ofInt n : Fixed s w).toInt ≡ n [ZMOD 2 ^ w] :=
  ofInt_eq_iff.mp (ofInt_toInt (ofInt n))

theorem ofInt_two_pow (d : ℕ) : BitVec.ofInt w (2 ^ d) = BitVec.twoPow w d := by
  have h := BitVec.ofInt_natCast w (2 ^ d)
  push_cast at h
  rw [h]
  refine BitVec.eq_of_toNat_eq ?_
  rw [BitVec.toNat_ofNat, BitVec.toNat_twoPow]

/-- A multiple by a power of two is stored as the shifted pattern. -/
theorem ofInt_mul_two_pow (n : ℤ) (d : ℕ) : (ofInt (n * 2 ^ d) : Fixed s w) = ⟨(ofInt n : Fixed s w).bits <<< d⟩ := by
  refine Fixed.ext ?_
  show BitVec.ofInt w (n * 2 ^ d) = BitVec.ofInt w n <<< d
  rw [BitVec.shiftLeft_eq_mul_twoPow, BitVec.ofInt_mul, ofInt_two_pow]

theorem getLsbD_ofStream (x : WordStream) (i : ℕ) :
    (ofStream x : Fixed s w).bits.getLsbD i = (decide (i < w) && x.bit i) := by
  show (BitVec.ofNat w (Numeral.toNat ((List.range (wordCount w)).map x.word))).getLsbD i = _
  rw [BitVec.getLsbD_ofNat, Numeral.testBit_toNat]
  by_cases h : i < w
  · have hword : i / 64 < wordCount w := by
      unfold wordCount
      omega
    rw [List.getD_eq_getElem _ _ (by simpa using hword), List.getElem_map, List.getElem_range]
    rfl
  · rw [decide_eq_false h, Bool.false_and, Bool.false_and]

end Fixed

namespace Unbounded

/-! ## Cutting to a width -/

theorem mask_eq_ofInt (x : Unbounded k) : (x.mask : Fixed s w) = Fixed.ofInt x.toInt :=
  Fixed.ofStream_eq_ofInt x.toWordStream

theorem toInt_mask_modEq (x : Unbounded k) : (x.mask : Fixed s w).toInt ≡ x.toInt [ZMOD 2 ^ w] := by
  rw [mask_eq_ofInt]
  exact Fixed.toInt_ofInt_modEq x.toInt

/-- Storing any integer of the residue class gives the masked value. -/
theorem mask_eq_of_modEq {x : Unbounded k} {m n : ℤ} (hx : x.toInt = m) (h : n ≡ m [ZMOD 2 ^ w]) :
    (x.mask : Fixed s w) = Fixed.ofInt n := by
  rw [mask_eq_ofInt, hx]
  exact Fixed.ofInt_eq_iff.mpr h.symm

@[simp] theorem getLsbD_mask (x : Unbounded k) (i : ℕ) :
    (x.mask : Fixed s w).bits.getLsbD i = (decide (i < w) && x.bit i) :=
  Fixed.getLsbD_ofStream x.toWordStream i

/-- A pattern is the masked value when it has its bits below the width. -/
theorem mask_eq_of_bits {x : Unbounded k} {a : Fixed s w} (h : ∀ i < w, x.bit i = a.bits.getLsbD i) :
    x.mask = a := by
  refine Fixed.ext (BitVec.eq_of_getLsbD_eq fun i hi => ?_)
  rw [getLsbD_mask, decide_eq_true hi, Bool.true_and]
  exact h i hi

theorem bit_eq_getLsbD_mask (x : Unbounded k) {i : ℕ} (h : i < w) :
    x.bit i = (x.mask : Fixed s w).bits.getLsbD i := by
  rw [getLsbD_mask, decide_eq_true h, Bool.true_and]

/-- Combining two streams bit by bit combines the patterns that are kept. -/
theorem mask_eq_of_bitwise (op : Bool → Bool → Bool) {x y : Unbounded k} {z : WordStream} {a : BitVec w}
    (hz : ∀ i, z.bit i = op (x.bit i) (y.bit i))
    (ha : ∀ i, a.getLsbD i = op ((x.mask : Fixed s w).bits.getLsbD i) ((y.mask : Fixed s w).bits.getLsbD i)) :
    ((ofStream z : Unbounded k).mask : Fixed s w) = ⟨a⟩ := by
  refine mask_eq_of_bits fun i hi => ?_
  rw [bit_ofStream, hz, ha, bit_eq_getLsbD_mask x hi, bit_eq_getLsbD_mask y hi]

/-- Sums and products are those of residue classes; bitwise operations act on each bit by itself. -/
theorem mask_hom (k s : Signedness) (w : ℕ) :
    (bitRing k).Hom (Operations.machine : Operations s w).bitRing mask where
  map_add x y := mask_eq_of_modEq (toInt_add x y) (x.toInt_mask_modEq.add y.toInt_mask_modEq)
  map_sub x y := mask_eq_of_modEq (toInt_sub x y) (x.toInt_mask_modEq.sub y.toInt_mask_modEq)
  map_mul x y := mask_eq_of_modEq (toInt_mul x y) (x.toInt_mask_modEq.mul y.toInt_mask_modEq)
  map_neg x := mask_eq_of_modEq (toInt_neg x) x.toInt_mask_modEq.neg
  map_and x y := mask_eq_of_bitwise (· && ·) (WordStream.bit_and _ _) fun _ => BitVec.getLsbD_and
  map_or x y := mask_eq_of_bitwise (· || ·) (WordStream.bit_or _ _) fun _ => BitVec.getLsbD_or
  map_xor x y := mask_eq_of_bitwise (· ^^ ·) (WordStream.bit_xor _ _) fun _ => BitVec.getLsbD_xor
  map_complement x := mask_eq_of_bits fun i hi => by
    show (ofStream x.toWordStream.complement : Unbounded k).bit i = (~~~_ : BitVec w).getLsbD i
    rw [bit_ofStream, WordStream.bit_complement, BitVec.getLsbD_not, ← bit_eq_getLsbD_mask x hi, decide_eq_true hi,
      Bool.true_and]

/-- Bits that a shift moves past the width are lost either way. -/
theorem mask_shiftLeft (x : Unbounded k) {d : ℕ} (h : d < w) :
    Fixed.shiftLeft (x.mask : Fixed s w) d = .ok (x <<< d).mask := by
  have hvalue : ((x <<< d).mask : Fixed s w) = ⟨(x.mask : Fixed s w).bits <<< d⟩ := by
    rw [mask_eq_ofInt, mask_eq_ofInt, toInt_hShiftLeft]
    exact Fixed.ofInt_mul_two_pow x.toInt d
  unfold Fixed.shiftLeft
  rw [hvalue, Nat.mod_eq_of_lt h, decide_eq_false (Nat.not_le.mpr h)]
  rfl

/-! ## Changing the kind -/

/-- The bits stay as they are. -/
theorem toWordStream_recast (x : Unbounded k) : (x.recast : Unbounded l).toWordStream = x.toWordStream :=
  x.trimmed.trim_eq

theorem recast_ofStream (x : WordStream) : (ofStream x : Unbounded k).recast = (ofStream x : Unbounded l) :=
  toWordStream_injective (toWordStream_recast _)

/-- Whatever is computed from the stream alone is computed alike for both kinds. -/
theorem recast_unary (op : WordStream → WordStream) (x : Unbounded k) :
    (ofStream (op x.toWordStream) : Unbounded k).recast =
      (ofStream (op (x.recast : Unbounded l).toWordStream) : Unbounded l) := by
  rw [recast_ofStream, toWordStream_recast]

theorem recast_binary (op : WordStream → WordStream → WordStream) (x y : Unbounded k) :
    (ofStream (op x.toWordStream y.toWordStream) : Unbounded k).recast =
      (ofStream (op (x.recast : Unbounded l).toWordStream (y.recast : Unbounded l).toWordStream) : Unbounded l) := by
  rw [recast_ofStream, toWordStream_recast, toWordStream_recast]

theorem recast_hom (k l : Signedness) : (bitRing k).Hom (bitRing l) recast where
  map_add := recast_binary WordStream.add
  map_sub := recast_binary WordStream.sub
  map_mul := recast_binary WordStream.mul
  map_neg := recast_unary (WordStream.sub (0 : Unbounded k).toWordStream)
  map_and := recast_binary WordStream.and
  map_or := recast_binary WordStream.or
  map_xor := recast_binary WordStream.xor
  map_complement := recast_unary WordStream.complement

theorem recast_shiftLeft (x : Unbounded k) (d : ℕ) : (x <<< d).recast = (x.recast : Unbounded l) <<< d :=
  recast_unary (·.shiftLeft d) x

theorem recast_shiftRight (x : Unbounded k) (d : ℕ) : (x >>> d).recast = (x.recast : Unbounded l) >>> d :=
  recast_unary (·.shiftRight d) x

end Unbounded

/-! ## The contract -/

/-- **Masking is a homomorphism.**  Cutting unbounded integers to the width of any fixed-width type respects sums,
differences, products, negation and the bitwise operations, the flags of both sides left out, and shifts by less than
the width.  Reading them as the other kind respects the same operations, and shifts by any distance either way. -/
theorem Unbounded.masking_homomorphism (k : Signedness) :
    (∀ t : FixedType, (bitRing k).Hom t.operations.bitRing mask ∧
      ∀ (x : Unbounded k), ∀ d < t.width, t.operations.shiftLeft x.mask d = .ok (x <<< d).mask) ∧
    ∀ l : Signedness, (bitRing k).Hom (bitRing l) recast ∧
      ∀ (x : Unbounded k) (d : ℕ), (x <<< d).recast = (x.recast : Unbounded l) <<< d ∧
        (x >>> d).recast = (x.recast : Unbounded l) >>> d := by
  constructor
  · intro t
    rw [t.operations_eq_machine]
    exact ⟨mask_hom k t.signedness t.width, fun x d hd => mask_shiftLeft x hd⟩
  · intro l
    exact ⟨recast_hom k l, fun x d => ⟨recast_shiftLeft x d, recast_shiftRight x d⟩⟩

/-- Minus one, moved to the top bit of a byte. -/
theorem Unbounded.masking_homomorphism_byte : 7 < (FixedType.machine .unsigned .bits8).width ∧
    (FixedType.machine .unsigned .bits8).operations.shiftLeft (-1 : Unbounded .signed).mask 7 =
      .ok ((-1 : Unbounded .signed) <<< 7).mask :=
  ⟨by decide, ((masking_homomorphism .signed).1 (.machine .unsigned .bits8)).2 (-1) 7 (by decide)⟩

end TwosComplement
