import Mathlib
import ThresholdMask.Proofs.Guards

/-!
# Arithmetic on any operands

The operations of a `PrimeField` take any natural numbers, also ones that are not below the modulus.
What they return is the residue of an integer (`PrimeField.IsResidueOf`), namely of the result that
the operation has on integers. Inverses and quotients exist in the field of residues, and so they are
returned exactly where the operand to be inverted is no multiple of the modulus
(`PrimeField.computes_residues`).

Two differences are taken on the way, one in subtraction and one for the exponent that inverts.
Neither falls below zero: with guards the operations give the same answers.
-/

namespace ThresholdMask

/-! ## Operations with guards -/

namespace Guarded

variable {ε : Type} (F : PrimeField)

/-- The additive inverse. -/
def neg (a : Nat) : Guarded ε Nat := sub F 0 a

/-- The residue of an integer. -/
def reduceSigned (v : Int) : Guarded ε Nat := do
  let r ← remainder v.natAbs F.modulus
  if v < 0 then neg F r else return r

/-- The multiplicative inverse. -/
def inv (a : Nat) : Guarded FieldError Nat := do
  let r ← remainder a F.modulus
  if r = 0 then fail .zeroInverse
  else
    let exponent ← subtract F.modulus 2
    return F.pow r exponent

/-- The quotient of two elements. -/
def div (a b : Nat) : Guarded FieldError Nat := do
  let inverse ← inv F b
  mul F a inverse

variable {F} (big : 2 ≤ F.modulus)
include big

theorem neg_eq (a : Nat) : (neg F a : Guarded ε Nat) = .ok (F.neg a) := sub_eq big 0 a

theorem reduceSigned_eq (v : Int) :
    (reduceSigned F v : Guarded ε Nat) = .ok (F.reduceSigned v) := by
  have reduced : v.natAbs % F.modulus = F.reduce v.natAbs := rfl
  unfold reduceSigned PrimeField.reduceSigned
  rw [remainder_of_pos (by omega), ok_bind, reduced]
  by_cases negative : v < 0
  · rw [if_pos negative, if_pos negative]
    exact neg_eq big _
  · rw [if_neg negative, if_neg negative]
    rfl

theorem inv_eq (a : Nat) : inv F a = answer (F.inv a) := by
  have reduced : a % F.modulus = F.reduce a := rfl
  unfold inv PrimeField.inv
  rw [remainder_of_pos (by omega), ok_bind, reduced]
  by_cases zero : F.reduce a = 0
  · rw [if_pos zero, if_pos zero]
    rfl
  · rw [if_neg zero, if_neg zero, subtract_of_le big]
    rfl

theorem div_eq (a b : Nat) : div F a b = answer (F.div a b) := by
  unfold div PrimeField.div
  rw [inv_eq big]
  cases F.inv b with
  | error e => rfl
  | ok inverse => exact mul_eq big a inverse

end Guarded

namespace PrimeField

variable {F : PrimeField}

/-! ## Residues of integers -/

/-- The number is below the modulus and differs from the integer by a multiple of it. -/
def IsResidueOf (F : PrimeField) (r : Nat) (v : Int) : Prop :=
  r < F.modulus ∧ (r : Int) ≡ v [ZMOD F.modulus]

theorem isResidueOf_iff {r : Nat} {v : Int} :
    F.IsResidueOf r v ↔ r < F.modulus ∧ (r : F.Residue) = (v : F.Residue) := by
  unfold IsResidueOf
  rw [← ZMod.intCast_eq_intCast_iff, Int.cast_natCast]

section Positive

variable [NeZero F.modulus]

theorem modulus_pos : 0 < F.modulus := Nat.pos_of_ne_zero (NeZero.ne _)

theorem isResidueOf_reduce (a : Nat) : F.IsResidueOf (F.reduce a) a := by
  refine isResidueOf_iff.mpr ⟨F.reduce_lt modulus_pos a, ?_⟩
  rw [natCast_reduce, Int.cast_natCast]

theorem isResidueOf_add (a b : Nat) : F.IsResidueOf (F.add a b) (a + b) := by
  refine isResidueOf_iff.mpr ⟨F.add_lt modulus_pos a b, ?_⟩
  rw [natCast_add, Int.cast_add, Int.cast_natCast, Int.cast_natCast]

theorem isResidueOf_sub (a b : Nat) : F.IsResidueOf (F.sub a b) (a - b) := by
  refine isResidueOf_iff.mpr ⟨F.sub_lt modulus_pos a b, ?_⟩
  rw [natCast_sub, Int.cast_sub, Int.cast_natCast, Int.cast_natCast]

theorem isResidueOf_neg (a : Nat) : F.IsResidueOf (F.neg a) (-a) := by
  have difference := F.isResidueOf_sub 0 a
  rwa [Nat.cast_zero, zero_sub] at difference

theorem isResidueOf_mul (a b : Nat) : F.IsResidueOf (F.mul a b) (a * b) := by
  refine isResidueOf_iff.mpr ⟨F.mul_lt modulus_pos a b, ?_⟩
  rw [natCast_mul, Int.cast_mul, Int.cast_natCast, Int.cast_natCast]

theorem isResidueOf_pow (a e : Nat) : F.IsResidueOf (F.pow a e) (a ^ e) := by
  refine isResidueOf_iff.mpr ⟨F.pow_lt modulus_pos a e, ?_⟩
  rw [natCast_pow, Int.cast_pow, Int.cast_natCast]

theorem isResidueOf_reduceSigned (v : Int) : F.IsResidueOf (F.reduceSigned v) v := by
  unfold reduceSigned
  by_cases negative : v < 0
  · have magnitude : (v.natAbs : Int) = -v := by omega
    have reduced := isResidueOf_iff.mp (F.isResidueOf_reduce v.natAbs)
    have opposite := isResidueOf_iff.mp (F.isResidueOf_neg (F.reduce v.natAbs))
    rw [if_pos negative]
    refine isResidueOf_iff.mpr ⟨opposite.1, ?_⟩
    rw [opposite.2, Int.cast_neg, Int.cast_natCast, reduced.2, magnitude, Int.cast_neg, neg_neg]
  · have magnitude : (v.natAbs : Int) = v := by omega
    have reduced := F.isResidueOf_reduce v.natAbs
    rwa [if_neg negative, ← magnitude]

end Positive

/-! ## Inverses and quotients -/

section Prime

variable [prime : Fact F.modulus.Prime]

theorem inv_eq_error_iff {a : Nat} : F.inv a = .error .zeroInverse ↔ F.modulus ∣ a := by
  rw [← ZMod.natCast_eq_zero_iff, inv_eq]
  by_cases zero : (a : F.Residue) = 0
  · rw [if_pos zero]
    exact iff_of_true rfl zero
  · rw [if_neg zero]
    exact iff_of_false nofun zero

/-- A number that is no multiple of the modulus has an inverse. -/
theorem exists_inv {a : Nat} (nonzero : ¬F.modulus ∣ a) :
    ∃ r, F.inv a = .ok r ∧ 1 ≤ r ∧ r < F.modulus ∧ F.mul a r = 1 := by
  rw [← ZMod.natCast_eq_zero_iff] at nonzero
  have inverse : F.inv a = .ok ((a : F.Residue)⁻¹).val := by rw [inv_eq, if_neg nonzero]
  have some : ((a : F.Residue)⁻¹).val ≠ 0 := (ZMod.val_ne_zero _).mpr (inv_ne_zero nonzero)
  refine ⟨_, inverse, Nat.one_le_iff_ne_zero.mpr some, ZMod.val_lt _, ?_⟩
  refine (F.natCast_inj (F.mul_lt prime.out.pos _ _) prime.out.one_lt).mp ?_
  rw [natCast_mul, ZMod.natCast_zmod_val, mul_inv_cancel₀ nonzero, Nat.cast_one]

theorem div_eq_error_iff {a b : Nat} : F.div a b = .error .zeroInverse ↔ F.modulus ∣ b := by
  rw [← inv_eq_error_iff, div]
  exact map_eq_error

/-- A quotient by such a number exists, and no other residue gives the dividend back. -/
theorem exists_div (a : Nat) {b : Nat} (nonzero : ¬F.modulus ∣ b) :
    ∃ q, F.div a b = .ok q ∧ q < F.modulus ∧ F.mul q b = a % F.modulus ∧
      ∀ q' < F.modulus, F.mul q' b = a % F.modulus → q' = q := by
  rw [← ZMod.natCast_eq_zero_iff] at nonzero
  have quotient : F.div a b = .ok ((a : F.Residue) / b).val := by rw [div_eq, if_neg nonzero]
  refine ⟨_, quotient, ZMod.val_lt _, ?_, fun q' below product => ?_⟩
  · refine (F.natCast_inj (F.mul_lt prime.out.pos _ _) (F.reduce_lt prime.out.pos a)).mp ?_
    rw [natCast_mul, ZMod.natCast_zmod_val, div_mul_cancel₀ _ nonzero, natCast_reduce]
  · have same : (q' : F.Residue) * b = a := by
      rw [← natCast_mul, product]
      exact F.natCast_reduce a
    exact F.eq_val_of_natCast_eq below (eq_div_of_mul_eq nonzero same)

end Prime

/-! ## Arithmetic -/

/-- **Arithmetic.** Over a prime, whatever the operands, each operation returns the residue of what
it means on integers, and no difference on the way falls below zero. Only multiples of the modulus
have no inverse and cannot be divided by; for all others the inverse is a residue that is not zero
and multiplies to one, and the quotient is the only residue that multiplies back. -/
theorem computes_residues (prime : F.modulus.Prime) (a b e : Nat) (v : Int) (w : UInt64) :
    (F.IsResidueOf (F.add a b) (a + b) ∧ F.IsResidueOf (F.sub a b) (a - b) ∧
      F.IsResidueOf (F.neg a) (-a) ∧ F.IsResidueOf (F.mul a b) (a * b) ∧
      F.IsResidueOf (F.pow a e) (a ^ e) ∧ F.IsResidueOf (F.reduce a) a ∧
      F.IsResidueOf (F.reduceSigned v) v ∧ F.IsResidueOf (F.ofUInt64 w) w.toNat) ∧
    (Guarded.sub F a b = (.ok (F.sub a b) : Guarded FieldError Nat) ∧
      Guarded.neg F a = (.ok (F.neg a) : Guarded FieldError Nat) ∧
      Guarded.reduceSigned F v = (.ok (F.reduceSigned v) : Guarded FieldError Nat) ∧
      Guarded.inv F a = Guarded.answer (F.inv a) ∧
      Guarded.div F a b = Guarded.answer (F.div a b)) ∧
    (F.inv a = .error .zeroInverse ↔ F.modulus ∣ a) ∧
    (¬F.modulus ∣ a → ∃ r, F.inv a = .ok r ∧ 1 ≤ r ∧ r < F.modulus ∧ F.mul a r = 1) ∧
    (F.div a b = .error .zeroInverse ↔ F.modulus ∣ b) ∧
    (¬F.modulus ∣ b → ∃ q, F.div a b = .ok q ∧ q < F.modulus ∧ F.mul q b = a % F.modulus ∧
      ∀ q' < F.modulus, F.mul q' b = a % F.modulus → q' = q) := by
  have : Fact F.modulus.Prime := ⟨prime⟩
  have big : 2 ≤ F.modulus := prime.two_le
  refine ⟨⟨F.isResidueOf_add a b, F.isResidueOf_sub a b, F.isResidueOf_neg a,
    F.isResidueOf_mul a b, F.isResidueOf_pow a e, F.isResidueOf_reduce a,
    F.isResidueOf_reduceSigned v, F.isResidueOf_reduce w.toNat⟩, ?_, inv_eq_error_iff, exists_inv,
    div_eq_error_iff, exists_div a⟩
  exact ⟨Guarded.sub_eq big a b, Guarded.neg_eq big a, Guarded.reduceSigned_eq big v,
    Guarded.inv_eq big a, Guarded.div_eq big a b⟩

/-- The field of 23 elements. -/
def twentyThree : PrimeField := ⟨23⟩

/-- Operands above the modulus, among them a multiple of it. -/
theorem twentyThree_computes : twentyThree.modulus.Prime ∧ ¬twentyThree.modulus ∣ 119 ∧
    twentyThree.IsResidueOf (twentyThree.sub 46 119) (46 - 119) ∧
    twentyThree.IsResidueOf (twentyThree.reduceSigned (-46)) (-46) ∧
    (∃ r, twentyThree.inv 119 = .ok r ∧ twentyThree.mul 119 r = 1) ∧
    (∃ q, twentyThree.div 46 119 = .ok q ∧ twentyThree.mul q 119 = 0) ∧
    twentyThree.div 119 46 = .error .zeroInverse := by
  have prime : twentyThree.modulus.Prime := by decide
  have nonzero : ¬twentyThree.modulus ∣ 119 := by decide
  obtain ⟨⟨-, difference, -, -, -, -, signed, -⟩, -, -, -, -, divides⟩ :=
    computes_residues prime 46 119 7 (-46) 18446744073709551615
  obtain ⟨-, -, -, inverts, refuses, -⟩ :=
    computes_residues prime 119 46 7 (-46) 18446744073709551615
  obtain ⟨r, inverse, -, -, one⟩ := inverts nonzero
  obtain ⟨q, quotient, -, back, -⟩ := divides nonzero
  exact ⟨prime, nonzero, difference, signed, ⟨r, inverse, one⟩, ⟨q, quotient, back⟩,
    refuses.mpr (by decide)⟩

end PrimeField
end ThresholdMask
