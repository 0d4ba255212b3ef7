import Mathlib
import ThresholdMask.Field.Basic

/-!
# Modular powers

Square-and-multiply computes the power modulo `m`: `powMod_eq`. The exponent is taken apart bit by
bit, so that the law for a given number of bits follows by induction on that number.
-/

namespace ThresholdMask

theorem powModBits_eq (m bits a e : Nat) (h : e < 2 ^ bits) :
    powModBits m bits a e = a ^ e % m := by
  induction bits generalizing a e with
  | zero =>
    obtain rfl : e = 0 := by simpa using h
    simp [powModBits]
  | succ bits ih =>
    have half : e / 2 < 2 ^ bits := by rw [Nat.pow_succ] at h; omega
    have square : (a * a % m) ^ (e / 2) % m = a ^ (2 * (e / 2)) % m := by
      rw [← Nat.pow_mod, Nat.pow_mul, Nat.pow_two]
    simp only [powModBits, ih _ _ half, square]
    have whole : 2 * (e / 2) + e % 2 = e := Nat.div_add_mod e 2
    split
    · rename_i odd
      rw [odd] at whole
      rw [Nat.mod_mul_mod, ← Nat.pow_succ, Nat.succ_eq_add_one, whole]
    · rename_i even
      have none : e % 2 = 0 := by omega
      rw [none, Nat.add_zero] at whole
      rw [whole]

theorem powMod_eq (m a e : Nat) : powMod m a e = a ^ e % m := by
  have enough := lt_one_shiftLeft_bitLength e
  rw [Nat.one_shiftLeft] at enough
  exact powModBits_eq m _ a e enough

namespace PrimeField

theorem pow_eq (F : PrimeField) (a e : Nat) : F.pow a e = a ^ e % F.modulus :=
  powMod_eq F.modulus a e

end PrimeField
end ThresholdMask
