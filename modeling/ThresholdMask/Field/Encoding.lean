import ThresholdMask.Bytes
import ThresholdMask.Field.Basic

/-!
# Values as field elements

Before it is shared, a scalar becomes a field element, and after reconstruction an element becomes
a scalar again. Signed integers use symmetric residues: the upper half of the field holds the
negative ones. Blobs travel in chunks short enough that every chunk is below the modulus. Keys are
32 bytes, most significant first, and never zero.

Nothing wraps: what does not fit is an error of type `FieldError`.
-/

namespace ThresholdMask

/-- Bytes of a private key. -/
def keySize : Nat := 32

namespace PrimeField

/-! ## Integers and booleans -/

/-- Encode a signed integer whose magnitude is at most half of the field. -/
def encodeSigned (F : PrimeField) (v : Int) : Except FieldError Nat :=
  if F.half < v.natAbs then .error (F.outOfRange (.magnitude v))
  else .ok (if v < 0 then F.modulus - v.natAbs else v.natAbs)

/-- Decode a residue: those above half stand for negative integers. -/
def decodeSigned (F : PrimeField) (a : Nat) : Int :=
  let r := F.reduce a
  if F.half < r then -((F.modulus - r : Nat) : Int) else (r : Int)

/-- Encode a natural number below the modulus. -/
def encodeUnsigned (F : PrimeField) (v : Nat) : Except FieldError Nat := F.element v

/-- Decode a residue as a natural number. -/
def decodeUnsigned (F : PrimeField) (a : Nat) : Nat := F.reduce a

/-- Encode a boolean as zero or one. -/
def encodeBool (b : Bool) : Nat := if b then 1 else 0

/-- Decode a boolean; only the residues zero and one stand for one. -/
def decodeBool (F : PrimeField) (a : Nat) : Except FieldError Bool :=
  if F.reduce a = 0 then .ok false
  else if F.reduce a = 1 then .ok true
  else .error (F.outOfRange .notBoolean)

/-! ## Blob chunks -/

/-- Bytes per chunk: as many as stay below the modulus whatever they are. -/
def chunkSize (F : PrimeField) : Nat := (F.bits - 1) / 8

/-- Encode a chunk, least significant byte first. -/
def encodeChunk (F : PrimeField) (b : Bytes) : Except FieldError Nat :=
  if F.chunkSize < b.length then .error (F.outOfRange (.chunkTooLong b.length F.chunkSize))
  else F.element b.toNatLE

/-- Decode a chunk of known length. The element is taken as it is, without reduction. -/
def decodeChunk (F : PrimeField) (a length : Nat) : Except FieldError Bytes :=
  if a < 1 <<< (8 * length) then .ok (Bytes.ofNatLE length a)
  else .error (F.outOfRange (.chunkOverflow length))

/-! ## Keys -/

/-- Encode a private key, which must be nonzero and below the modulus. -/
def encodeKey (F : PrimeField) (k : FixedBytes keySize) : Except FieldError Nat := do
  let a ← F.element (Bytes.toNatBE k.val)
  if a = 0 then .error (F.outOfRange .zeroScalar) else .ok a

/-- Decode a private key. The element is taken as it is, without reduction. -/
def decodeKey (F : PrimeField) (a : Nat) : Except FieldError (FixedBytes keySize) :=
  if a < 1 <<< (8 * keySize) then .ok ⟨Bytes.ofNatBE keySize a, Bytes.length_ofNatBE keySize a⟩
  else .error (F.outOfRange .wideScalar)

/-! ## A chunk is always below the modulus -/

theorem one_shiftLeft_chunkSize_le (F : PrimeField) (h : F.modulus ≠ 0) :
    1 <<< (8 * F.chunkSize) ≤ F.modulus := by
  have positive : bitLength F.modulus ≠ 0 := by
    unfold bitLength
    simp [h]
  obtain ⟨k, hk⟩ := Nat.exists_eq_succ_of_ne_zero positive
  have size : F.chunkSize = k / 8 := by
    simp [chunkSize, bits, hk]
  calc 1 <<< (8 * F.chunkSize) ≤ 1 <<< k := one_shiftLeft_le_one_shiftLeft (by omega)
    _ ≤ F.modulus := one_shiftLeft_le_of_bitLength hk

theorem toNatLE_lt_modulus (F : PrimeField) (h : F.modulus ≠ 0) (b : Bytes)
    (short : b.length ≤ F.chunkSize) : b.toNatLE < F.modulus :=
  calc b.toNatLE < 1 <<< (8 * b.length) := b.toNatLE_lt
    _ ≤ 1 <<< (8 * F.chunkSize) := one_shiftLeft_le_one_shiftLeft (by omega)
    _ ≤ F.modulus := F.one_shiftLeft_chunkSize_le h

end PrimeField
end ThresholdMask
