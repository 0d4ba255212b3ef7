/-!
# Arithmetic modulo a prime

A `PrimeField` is a modulus; its elements are natural numbers. Every operation returns a residue
below the modulus, also for operands that are not reduced. The modulus is meant to be an odd prime;
nothing here checks that.

`powMod` is square-and-multiply by recursion on the number of exponent bits. Division multiplies by
the power with exponent `p - 2`, which inverts when `p` is prime; zero is refused.
-/

namespace ThresholdMask

/-! ## Bit lengths and modular powers -/

/-- The number of binary digits of a number; zero has none. -/
def bitLength (n : Nat) : Nat := if n = 0 then 0 else n.log2 + 1

theorem lt_one_shiftLeft_bitLength (n : Nat) : n < 1 <<< bitLength n := by
  rw [Nat.one_shiftLeft]
  unfold bitLength
  split
  · subst n; simp
  · exact Nat.lt_log2_self

theorem one_shiftLeft_le_of_bitLength {n k : Nat} (h : bitLength n = k + 1) : 1 <<< k ≤ n := by
  rw [Nat.one_shiftLeft]
  unfold bitLength at h
  split at h
  · omega
  · obtain rfl : n.log2 = k := by omega
    exact Nat.log2_self_le (by assumption)

theorem one_shiftLeft_le_one_shiftLeft {k n : Nat} (h : k ≤ n) : 1 <<< k ≤ 1 <<< n := by
  rw [Nat.one_shiftLeft, Nat.one_shiftLeft]
  exact Nat.pow_le_pow_right (by decide) h

/-- The power of `a` with exponent `e` modulo `m`, by square-and-multiply over the `bits` low bits
of `e`. -/
def powModBits (m : Nat) : Nat → Nat → Nat → Nat
  | 0, _, _ => 1 % m
  | bits + 1, a, e =>
    let r := powModBits m bits (a * a % m) (e / 2)
    if e % 2 = 1 then r * a % m else r

/-- The power of `a` with exponent `e` modulo `m`. -/
def powMod (m a e : Nat) : Nat := powModBits m (bitLength e) a e

theorem powModBits_lt {m : Nat} (h : 0 < m) (bits a e : Nat) : powModBits m bits a e < m := by
  induction bits generalizing a e with
  | zero => exact Nat.mod_lt _ h
  | succ bits ih =>
    simp only [powModBits]
    split
    · exact Nat.mod_lt _ h
    · exact ih _ _

/-! ## Errors -/

/-- Why a value has no place in a field, or an element no decoding. -/
inductive RangeFault where
  /-- The magnitude of a signed integer exceeds half of the field. -/
  | magnitude (value : Int)
  | notBelowModulus
  | notBoolean
  /-- A blob chunk of `length` bytes, where `limit` fit. -/
  | chunkTooLong (length limit : Nat)
  /-- An element needs more than `length` bytes. -/
  | chunkOverflow (length : Nat)
  | zeroScalar
  | wideScalar
  deriving DecidableEq, Repr

/-- Failures of arithmetic and of encodings. -/
inductive FieldError where
  | outOfRange (bits : Nat) (fault : RangeFault)
  | zeroInverse
  deriving DecidableEq, Repr

/-- The text of a fault. -/
def RangeFault.message : RangeFault → String
  | magnitude v => s!"|{v}| exceeds (p - 1) / 2"
  | notBelowModulus => "value is not below the modulus"
  | notBoolean => "boolean residue is neither 0 nor 1"
  | chunkTooLong n limit => s!"chunk of {n} bytes exceeds {limit} bytes"
  | chunkOverflow n => s!"chunk does not fit in {n} bytes"
  | zeroScalar => "key scalar is zero"
  | wideScalar => "scalar wider than 32 bytes"

/-- The text of an error. -/
def FieldError.message : FieldError → String
  | outOfRange bits fault => s!"value out of range for a {bits}-bit field: {fault.message}"
  | zeroInverse => "zero has no multiplicative inverse"

/-! ## The field -/

/-- The field of residues of a prime modulus. -/
structure PrimeField where
  modulus : Nat
  deriving DecidableEq, Repr

namespace PrimeField

/-- The largest magnitude of a signed value. -/
def half (F : PrimeField) : Nat := (F.modulus - 1) / 2

/-- The bit length of the modulus. -/
def bits (F : PrimeField) : Nat := bitLength F.modulus

/-- The number is a residue of the field. -/
def contains (F : PrimeField) (a : Nat) : Bool := decide (a < F.modulus)

/-- A range error of this field. -/
def outOfRange (F : PrimeField) (fault : RangeFault) : FieldError := .outOfRange F.bits fault

/-- Take a number as an element only if it is below the modulus. -/
def element (F : PrimeField) (a : Nat) : Except FieldError Nat :=
  if a < F.modulus then .ok a else .error (F.outOfRange .notBelowModulus)

/-- The residue of a number. -/
def reduce (F : PrimeField) (a : Nat) : Nat := a % F.modulus

/-- The residue of a machine word. -/
def ofUInt64 (F : PrimeField) (w : UInt64) : Nat := F.reduce w.toNat

/-- The sum of two elements. -/
def add (F : PrimeField) (a b : Nat) : Nat := (a + b) % F.modulus

/-- The difference of two elements; the modulus is added first, so nothing falls below zero. -/
def sub (F : PrimeField) (a b : Nat) : Nat :=
  (a % F.modulus + F.modulus - b % F.modulus) % F.modulus

/-- The additive inverse. -/
def neg (F : PrimeField) (a : Nat) : Nat := F.sub 0 a

/-- The product of two elements. -/
def mul (F : PrimeField) (a b : Nat) : Nat := a * b % F.modulus

/-- A power with a natural exponent. -/
def pow (F : PrimeField) (a e : Nat) : Nat := powMod F.modulus a e

/-- The residue of an integer: a negative one is the additive inverse of its magnitude. -/
def reduceSigned (F : PrimeField) (v : Int) : Nat :=
  if v < 0 then F.neg (F.reduce v.natAbs) else F.reduce v.natAbs

/-- The multiplicative inverse, as the power with exponent `p - 2`. -/
def inv (F : PrimeField) (a : Nat) : Except FieldError Nat :=
  if F.reduce a = 0 then .error .zeroInverse else .ok (F.pow (F.reduce a) (F.modulus - 2))

/-- The quotient of two elements. -/
def div (F : PrimeField) (a b : Nat) : Except FieldError Nat :=
  (F.inv b).map (F.mul a)

/-! ## Results are residues -/

theorem reduce_lt (F : PrimeField) (h : 0 < F.modulus) (a : Nat) : F.reduce a < F.modulus :=
  Nat.mod_lt _ h

theorem add_lt (F : PrimeField) (h : 0 < F.modulus) (a b : Nat) : F.add a b < F.modulus :=
  Nat.mod_lt _ h

theorem sub_lt (F : PrimeField) (h : 0 < F.modulus) (a b : Nat) : F.sub a b < F.modulus :=
  Nat.mod_lt _ h

theorem mul_lt (F : PrimeField) (h : 0 < F.modulus) (a b : Nat) : F.mul a b < F.modulus :=
  Nat.mod_lt _ h

theorem pow_lt (F : PrimeField) (h : 0 < F.modulus) (a e : Nat) : F.pow a e < F.modulus :=
  powModBits_lt h _ a e

/-- The subtraction inside `sub` stays above zero. -/
theorem sub_no_underflow (F : PrimeField) (h : 0 < F.modulus) (a b : Nat) :
    b % F.modulus ≤ a % F.modulus + F.modulus := by
  have := Nat.mod_lt b h
  omega

end PrimeField
end ThresholdMask
