import Mathlib
import ThresholdMask.Field.Power
import ThresholdMask.Shamir.Interpolation

/-!
# Field arithmetic as arithmetic of residues

A `PrimeField` computes with natural numbers; `F.Residue` is the ring of residues that it means.
Every operation is read in this ring: `add`, `sub`, `mul` and `pow` are the ring's, and over a prime
`inv` and `div` are the inverse and the quotient of a field, refused exactly where they do not exist
(`inv_eq`, `div_eq`). A list of coefficients stands for a polynomial over the residues
(`ofCoefficients`), and Horner's rule computes its values (`evaluate_eq`).
-/

namespace ThresholdMask.PrimeField

open Polynomial

/-- The ring of residues modulo the field's modulus. -/
abbrev Residue (F : PrimeField) : Type := ZMod F.modulus

variable (F : PrimeField)

/-! ## Ring operations -/

@[simp] theorem natCast_reduce (a : Nat) : (F.reduce a : F.Residue) = a :=
  ZMod.natCast_mod a F.modulus

@[simp] theorem natCast_add (a b : Nat) : (F.add a b : F.Residue) = a + b := by
  rw [add, ZMod.natCast_mod, Nat.cast_add]

@[simp] theorem natCast_mul (a b : Nat) : (F.mul a b : F.Residue) = a * b := by
  rw [mul, ZMod.natCast_mod, Nat.cast_mul]

@[simp] theorem natCast_pow (a e : Nat) : (F.pow a e : F.Residue) = (a : F.Residue) ^ e := by
  rw [pow_eq, ZMod.natCast_mod, Nat.cast_pow]

@[simp] theorem natCast_sub [NeZero F.modulus] (a b : Nat) : (F.sub a b : F.Residue) = a - b := by
  have positive : 0 < F.modulus := Nat.pos_of_ne_zero (NeZero.ne _)
  rw [sub, ZMod.natCast_mod, Nat.cast_sub (F.sub_no_underflow positive a b), Nat.cast_add,
    ZMod.natCast_mod, ZMod.natCast_mod, ZMod.natCast_self, add_zero]

/-- A number below the modulus is determined by its residue. -/
theorem eq_val_of_natCast_eq {a : Nat} {r : F.Residue} (small : a < F.modulus)
    (same : (a : F.Residue) = r) : a = r.val := by
  rw [← same, ZMod.val_cast_of_lt small]

/-- Numbers below the modulus are the same if their residues are. -/
theorem natCast_inj {a b : Nat} (ha : a < F.modulus) (hb : b < F.modulus) :
    (a : F.Residue) = b ↔ a = b := by
  rw [ZMod.natCast_eq_natCast_iff', Nat.mod_eq_of_lt ha, Nat.mod_eq_of_lt hb]

/-! ## Inverses and quotients -/

section Prime

variable [prime : Fact F.modulus.Prime]

/-- The inverse by Fermat's little theorem; only the residue zero has none. -/
theorem inv_eq (a : Nat) :
    F.inv a = if (a : F.Residue) = 0 then .error .zeroInverse
      else .ok ((a : F.Residue)⁻¹).val := by
  have zero : F.reduce a = 0 ↔ (a : F.Residue) = 0 := by
    rw [reduce, ZMod.natCast_eq_zero_iff, Nat.dvd_iff_mod_eq_zero]
  unfold inv
  by_cases h : (a : F.Residue) = 0
  · rw [if_pos (zero.mpr h), if_pos h]
  · rw [if_neg (mt zero.mp h), if_neg h]
    congr 1
    refine F.eq_val_of_natCast_eq (F.pow_lt prime.out.pos _ _) ?_
    rw [natCast_pow, natCast_reduce]
    -- `a ^ (p - 2)` inverts `a`, since one more factor makes `a ^ (p - 1) = 1`
    apply eq_inv_of_mul_eq_one_left
    have two : F.modulus - 2 + 1 = F.modulus - 1 := by
      have := prime.out.two_le
      omega
    rw [← pow_succ, two]
    exact ZMod.pow_card_sub_one_eq_one h

theorem div_eq (a b : Nat) :
    F.div a b = if (b : F.Residue) = 0 then .error .zeroInverse
      else .ok ((a : F.Residue) / b).val := by
  rw [div, inv_eq]
  by_cases h : (b : F.Residue) = 0
  · rw [if_pos h, if_pos h]
    rfl
  · rw [if_neg h, if_neg h]
    refine congrArg Except.ok (F.eq_val_of_natCast_eq (F.mul_lt prime.out.pos _ _) ?_)
    rw [natCast_mul, ZMod.natCast_zmod_val, div_eq_mul_inv]

end Prime

/-! ## Polynomials -/

/-- The polynomial with these coefficients, constant term first. -/
noncomputable def ofCoefficients : List Nat → F.Residue[X]
  | [] => 0
  | c :: rest => C (c : F.Residue) + X * ofCoefficients rest

theorem coeff_ofCoefficients (coefficients : List Nat) (k : Nat) :
    (F.ofCoefficients coefficients).coeff k = ((coefficients.getD k 0 : Nat) : F.Residue) := by
  induction coefficients generalizing k with
  | nil => simp [ofCoefficients]
  | cons c rest ih =>
    cases k with
    | zero => simp [ofCoefficients]
    | succ k => simp [ofCoefficients, ih]

theorem degree_ofCoefficients_lt (coefficients : List Nat) :
    (F.ofCoefficients coefficients).degree < coefficients.length := by
  rw [degree_lt_iff_coeff_zero]
  intro k beyond
  rw [coeff_ofCoefficients, List.getD_eq_default _ _ beyond, Nat.cast_zero]

@[simp] theorem eval_zero_ofCoefficients (c : Nat) (rest : List Nat) :
    (F.ofCoefficients (c :: rest)).eval 0 = c := by
  simp [ofCoefficients]

theorem natCast_evaluate (coefficients : List Nat) (x : Nat) :
    (F.evaluate coefficients x : F.Residue) = (F.ofCoefficients coefficients).eval (x : F.Residue) := by
  induction coefficients with
  | nil => simp [evaluate, ofCoefficients]
  | cons c rest ih =>
    have step : F.evaluate (c :: rest) x = F.add (F.mul (F.evaluate rest x) x) c := rfl
    rw [step, natCast_add, natCast_mul, ih, ofCoefficients, eval_add, eval_C, eval_mul, eval_X]
    ring

/-- Horner's rule computes the values of the polynomial. -/
theorem evaluate_eq [NeZero F.modulus] (coefficients : List Nat) (x : Nat) :
    F.evaluate coefficients x = ((F.ofCoefficients coefficients).eval (x : F.Residue)).val :=
  F.eq_val_of_natCast_eq (F.evaluate_lt (Nat.pos_of_ne_zero (NeZero.ne _)) _ _)
    (F.natCast_evaluate _ _)

end ThresholdMask.PrimeField
