import Mathlib
import ThresholdMask.Proofs.Guards

/-!
# Byte forms of field elements

A chunk of a blob is a number written least significant byte first, a key one written most
significant byte first. The length of a chunk and the zeros at either end are part of the bytes but
not of the number, so decoding has to be told the length: of this length there is one byte string
that writes the number, if the number fits into it at all. Encoding reads the number off the bytes.
The chunk size is such that it always has a place in the field, whereas a key is refused if it is
zero or not below the modulus.

So encoding and decoding undo each other (`PrimeField.codecs_inverse`). The decoders work on the
shortest writing of a number, which they fill up with zeros; `Guarded.decodeChunk` and
`Guarded.decodeKey` do so step by step.
-/

namespace ThresholdMask

/-! ## Writings of a number -/

namespace Bytes

/-- The bytes are digits of the number in base 256, least significant first. -/
def IsLittleEndian (b : Bytes) (n : Nat) : Prop := Nat.ofDigits 256 (b.map UInt8.toNat) = n

/-- The bytes are digits of the number in base 256, most significant first. -/
def IsBigEndian (b : Bytes) (n : Nat) : Prop := IsLittleEndian b.reverse n

theorem ofDigits_eq_toNatLE (b : Bytes) : Nat.ofDigits 256 (b.map UInt8.toNat) = b.toNatLE := by
  induction b with
  | nil => rfl
  | cons x rest ih =>
    rw [List.map_cons, Nat.ofDigits_cons, ih]
    rfl

theorem isLittleEndian_iff {b : Bytes} {n : Nat} : b.IsLittleEndian n ↔ b.toNatLE = n := by
  rw [IsLittleEndian, ofDigits_eq_toNatLE]

theorem isBigEndian_iff {b : Bytes} {n : Nat} : b.IsBigEndian n ↔ toNatBE b = n :=
  isLittleEndian_iff

theorem one_shiftLeft_eq_pow (w : Nat) : 1 <<< (8 * w) = 256 ^ w := by
  rw [Nat.one_shiftLeft, Nat.pow_mul]

end Bytes

/-! ## Filling up with zeros -/

namespace Guarded

/-- The shortest writing of a number, least significant byte first, where zero takes no byte. -/
def shortest (a : Nat) : Bytes := if a = 0 then [] else Bytes.ofNatLE (byteWidth a) a

theorem toNatLE_shortest (a : Nat) : (shortest a).toNatLE = a := by
  unfold shortest
  by_cases zero : a = 0
  · rw [if_pos zero, zero]
    rfl
  · rw [if_neg zero, Bytes.toNatLE_ofNatLE, Nat.mod_eq_of_lt (lt_of_byteWidth a)]

theorem length_shortest_le_iff {a w : Nat} : (shortest a).length ≤ w ↔ a < 1 <<< (8 * w) := by
  constructor
  · intro short
    have bound := (shortest a).toNatLE_lt
    rw [toNatLE_shortest] at bound
    exact lt_of_lt_of_le bound (one_shiftLeft_le_one_shiftLeft (by omega))
  · intro small
    unfold shortest
    by_cases zero : a = 0
    · rw [if_pos zero]
      exact Nat.zero_le w
    · -- a number other than zero takes a byte at least
      have nonempty : 0 < w := by
        by_contra empty
        obtain rfl : w = 0 := by omega
        exact zero (Nat.lt_one_iff.mp small)
      rw [if_neg zero, Bytes.length_ofNatLE]
      exact (byteWidth_le_iff nonempty).mpr small

variable (F : PrimeField)

/-- Decode a chunk: the shortest writing is filled up with zeros. -/
def decodeChunk (a length : Nat) : Guarded FieldError Bytes :=
  if length < (shortest a).length then fail (F.outOfRange (.chunkOverflow length))
  else do
    let missing ← subtract length (shortest a).length
    return shortest a ++ List.replicate missing 0

theorem decodeChunk_eq (a length : Nat) :
    decodeChunk F a length = answer (F.decodeChunk a length) := by
  unfold decodeChunk PrimeField.decodeChunk
  by_cases small : a < 1 <<< (8 * length)
  · have short : (shortest a).length ≤ length := length_shortest_le_iff.mpr small
    rw [if_neg (not_lt.mpr short), if_pos small, subtract_of_le short, ok_bind]
    have lengths : (shortest a ++ List.replicate (length - (shortest a).length) 0).length =
        (Bytes.ofNatLE length a).length := by
      rw [List.length_append, List.length_replicate, Bytes.length_ofNatLE]
      omega
    refine congrArg Except.ok ((Bytes.toNatLE_inj lengths).mp ?_)
    rw [toNatLE_append_zeros, toNatLE_shortest, Bytes.toNatLE_ofNatLE, Nat.mod_eq_of_lt small]
  · have long : length < (shortest a).length := by
      rw [← not_le, length_shortest_le_iff]
      exact small
    rw [if_pos long, if_neg small]
    rfl

end Guarded

namespace PrimeField

variable {F : PrimeField}

/-! ## Chunks -/

/-- The chunk size is the greatest length of which every byte string writes a residue. -/
theorem pow_le_modulus_iff (nonzero : F.modulus ≠ 0) {w : Nat} :
    256 ^ w ≤ F.modulus ↔ w ≤ (F.bits - 1) / 8 := by
  rw [← Bytes.one_shiftLeft_eq_pow]
  constructor
  · intro residues
    have wide : 1 <<< (8 * w) < 1 <<< F.bits :=
      lt_of_le_of_lt residues (lt_one_shiftLeft_bitLength F.modulus)
    rw [Nat.one_shiftLeft, Nat.one_shiftLeft] at wide
    have := (Nat.pow_lt_pow_iff_right (by decide)).mp wide
    omega
  · intro short
    exact le_trans (one_shiftLeft_le_one_shiftLeft (Nat.mul_le_mul_left 8 short))
      (F.one_shiftLeft_chunkSize_le nonzero)

theorem encodeChunk_eq_ok_iff (nonzero : F.modulus ≠ 0) {b : Bytes} {e : Nat} :
    F.encodeChunk b = .ok e ↔ b.length ≤ F.chunkSize ∧ b.IsLittleEndian e := by
  rw [Bytes.isLittleEndian_iff]
  constructor
  · intro encoded
    rw [encodeChunk, error_ite_eq_ok, element_eq_ok] at encoded
    exact ⟨not_lt.mp encoded.1, encoded.2.2⟩
  · rintro ⟨short, rfl⟩
    exact encodeChunk_eq_ok nonzero short

theorem exists_encodeChunk_iff (nonzero : F.modulus ≠ 0) {b : Bytes} :
    (∃ e, F.encodeChunk b = .ok e) ↔ b.length ≤ F.chunkSize := by
  constructor
  · rintro ⟨e, encoded⟩
    exact ((encodeChunk_eq_ok_iff nonzero).mp encoded).1
  · intro short
    exact ⟨_, encodeChunk_eq_ok nonzero short⟩

theorem decodeChunk_eq_ok_iff {e length : Nat} {b : Bytes} :
    F.decodeChunk e length = .ok b ↔ b.length = length ∧ b.IsLittleEndian e := by
  rw [decodeChunk_eq_ok, Bytes.isLittleEndian_iff]

theorem exists_decodeChunk_iff {e length : Nat} :
    (∃ b, F.decodeChunk e length = .ok b) ↔ e < 256 ^ length := by
  unfold decodeChunk
  rw [← Bytes.one_shiftLeft_eq_pow]
  constructor
  · rintro ⟨b, decoded⟩
    exact (ite_error_eq_ok.mp decoded).1
  · intro small
    exact ⟨_, if_pos small⟩

theorem lt_of_encodeChunk (nonzero : F.modulus ≠ 0) {b : Bytes} {e : Nat}
    (encoded : F.encodeChunk b = .ok e) : e < F.modulus := by
  obtain ⟨short, value⟩ := (encodeChunk_eq_ok_iff nonzero).mp encoded
  rw [← Bytes.isLittleEndian_iff.mp value]
  exact F.toNatLE_lt_modulus nonzero b short

/-- A chunk is read back with its length, whatever zeros it ends in. -/
theorem decodeChunk_of_encodeChunk (nonzero : F.modulus ≠ 0) {b : Bytes} {e : Nat}
    (encoded : F.encodeChunk b = .ok e) : F.decodeChunk e b.length = .ok b := by
  obtain ⟨-, value⟩ := (encodeChunk_eq_ok_iff nonzero).mp encoded
  exact decodeChunk_eq_ok_iff.mpr ⟨rfl, value⟩

theorem encodeChunk_iff_of_decodeChunk (nonzero : F.modulus ≠ 0) {e length : Nat} {b : Bytes}
    (decoded : F.decodeChunk e length = .ok b) :
    F.encodeChunk b = .ok e ↔ length ≤ F.chunkSize := by
  obtain ⟨rfl, value⟩ := decodeChunk_eq_ok_iff.mp decoded
  rw [encodeChunk_eq_ok_iff nonzero]
  exact and_iff_left value

/-! ## Keys -/

theorem encodeKey_eq_ok_iff {key : FixedBytes keySize} {e : Nat} :
    F.encodeKey key = .ok e ↔ key.val.IsBigEndian e ∧ e ≠ 0 ∧ e < F.modulus := by
  rw [encodeKey_eq_ok, Bytes.isBigEndian_iff]
  constructor
  · rintro ⟨below, nonzero, value⟩
    exact ⟨value, nonzero, below⟩
  · rintro ⟨value, nonzero, below⟩
    exact ⟨below, nonzero, value⟩

theorem decodeKey_eq_ok_iff {e : Nat} {key : FixedBytes keySize} :
    F.decodeKey e = .ok key ↔ key.val.IsBigEndian e := by
  rw [decodeKey_eq_ok, Bytes.isBigEndian_iff]

theorem exists_decodeKey_iff {e : Nat} :
    (∃ key, F.decodeKey e = .ok key) ↔ e < 256 ^ keySize := by
  unfold decodeKey
  rw [← Bytes.one_shiftLeft_eq_pow]
  constructor
  · rintro ⟨key, decoded⟩
    exact (ite_error_eq_ok.mp decoded).1
  · intro small
    exact ⟨_, if_pos small⟩

theorem decodeKey_of_encodeKey {key : FixedBytes keySize} {e : Nat}
    (encoded : F.encodeKey key = .ok e) : F.decodeKey e = .ok key := by
  obtain ⟨value, -, -⟩ := encodeKey_eq_ok_iff.mp encoded
  exact decodeKey_eq_ok_iff.mpr value

theorem encodeKey_iff_of_decodeKey {e : Nat} {key : FixedBytes keySize}
    (decoded : F.decodeKey e = .ok key) :
    F.encodeKey key = .ok e ↔ e ≠ 0 ∧ e < F.modulus := by
  rw [encodeKey_eq_ok_iff]
  exact and_iff_right (decodeKey_eq_ok_iff.mp decoded)

/-! ## Encoding and decoding -/

/-- **Byte codecs.** Over any modulus above one, just the chunks of at most the chunk size are
encoded, and this size is the greatest for which no chunk can reach the modulus; just the keys are
encoded whose number is not zero and below the modulus. Just the elements that fit into a length are
decoded, also if they are no residues, each as the only byte string of this length that writes it.
So decoding gives back what was encoded, and whatever is decoded is encoded as the element again if
it can be encoded at all. The decoders that fill up the shortest writing with zeros give the same
answers, and no access of theirs is out of range. -/
theorem codecs_inverse (big : 2 ≤ F.modulus) :
    ((∀ b, (∃ e, F.encodeChunk b = .ok e) ↔ b.length ≤ (F.bits - 1) / 8) ∧
      (∀ w, 256 ^ w ≤ F.modulus ↔ w ≤ (F.bits - 1) / 8) ∧
      (∀ b e, F.encodeChunk b = .ok e →
        b.IsLittleEndian e ∧ e < F.modulus ∧ F.decodeChunk e b.length = .ok b) ∧
      (∀ e length, (∃ b, F.decodeChunk e length = .ok b) ↔ e < 256 ^ length) ∧
      (∀ e length b, F.decodeChunk e length = .ok b ↔ b.length = length ∧ b.IsLittleEndian e) ∧
      (∀ e length b, F.decodeChunk e length = .ok b →
        (F.encodeChunk b = .ok e ↔ length ≤ (F.bits - 1) / 8))) ∧
    ((∀ key : FixedBytes 32, (∃ e, F.encodeKey key = .ok e) ↔
        ∃ n, key.val.IsBigEndian n ∧ n ≠ 0 ∧ n < F.modulus) ∧
      (∀ key e, F.encodeKey key = .ok e →
        key.val.IsBigEndian e ∧ F.decodeKey e = .ok key) ∧
      (∀ e, (∃ key, F.decodeKey e = .ok key) ↔ e < 256 ^ 32) ∧
      (∀ e key, F.decodeKey e = .ok key ↔ key.val.IsBigEndian e) ∧
      (∀ e key, F.decodeKey e = .ok key →
        (F.encodeKey key = .ok e ↔ e ≠ 0 ∧ e < F.modulus))) ∧
    (Guarded.chunkSize F = (.ok F.chunkSize : Guarded FieldError Nat) ∧
      (∀ e length, Guarded.decodeChunk F e length = Guarded.answer (F.decodeChunk e length)) ∧
      ∀ e, Guarded.decodeKey F e = Guarded.answer (F.decodeKey e)) := by
  have nonzero : F.modulus ≠ 0 := by omega
  refine ⟨⟨fun b => exists_encodeChunk_iff nonzero, fun w => pow_le_modulus_iff nonzero,
    fun b e encoded => ?_, fun e length => exists_decodeChunk_iff,
    fun e length b => decodeChunk_eq_ok_iff,
    fun e length b => encodeChunk_iff_of_decodeChunk nonzero⟩, ⟨fun key => ?_,
    fun key e encoded => ?_, fun e => exists_decodeKey_iff, fun e key => decodeKey_eq_ok_iff,
    fun e key => encodeKey_iff_of_decodeKey⟩, Guarded.chunkSize_eq big, Guarded.decodeChunk_eq F,
    Guarded.decodeKey_eq F⟩
  · obtain ⟨-, value⟩ := (encodeChunk_eq_ok_iff nonzero).mp encoded
    exact ⟨value, lt_of_encodeChunk nonzero encoded, decodeChunk_of_encodeChunk nonzero encoded⟩
  · exact exists_congr fun e => encodeKey_eq_ok_iff
  · exact ⟨(encodeKey_eq_ok_iff.mp encoded).1, decodeKey_of_encodeKey encoded⟩

/-- A field of 17 bits, where a chunk has two bytes and the modulus is just above all chunks. -/
def seventeenBits : PrimeField := ⟨65537⟩

/-- A chunk that ends in zeros, the greatest one and one that is too long; elements that are no
residues; a key with zeros in front, and the key of the first number that has no place. -/
theorem seventeenBits_codecs : 2 ≤ seventeenBits.modulus ∧
    (∃ e, seventeenBits.encodeChunk [9, 0] = .ok e ∧ seventeenBits.decodeChunk e 2 = .ok [9, 0]) ∧
    (∃ e, seventeenBits.encodeChunk [255, 255] = .ok e ∧ e < 65537) ∧
    (¬∃ e, seventeenBits.encodeChunk [1, 0, 0] = .ok e) ∧
    seventeenBits.decodeChunk 0 3 = .ok [0, 0, 0] ∧
    seventeenBits.decodeChunk 65538 3 = .ok [2, 0, 1] ∧
    (¬∃ b, seventeenBits.decodeChunk 65538 2 = .ok b) ∧
    (∃ key, seventeenBits.decodeKey 258 = .ok key ∧ seventeenBits.encodeKey key = .ok 258) ∧
    (∃ key, seventeenBits.decodeKey 65537 = .ok key ∧ seventeenBits.encodeKey key ≠ .ok 65537) := by
  have big : 2 ≤ seventeenBits.modulus := by decide
  obtain ⟨⟨encoded, -, chunk, fits, decoded, -⟩, ⟨-, -, fitsKey, -, again⟩, -⟩ :=
    codecs_inverse big
  obtain ⟨e, encodes⟩ := (encoded [9, 0]).mpr (by decide)
  obtain ⟨e', encodes'⟩ := (encoded [255, 255]).mpr (by decide)
  obtain ⟨key, decodes⟩ := (fitsKey 258).mpr (by decide)
  obtain ⟨key', decodes'⟩ := (fitsKey 65537).mpr (by decide)
  exact ⟨big, ⟨e, encodes, (chunk _ _ encodes).2.2⟩, ⟨e', encodes', (chunk _ _ encodes').2.1⟩,
    mt (encoded [1, 0, 0]).mp (by decide), (decoded 0 3 [0, 0, 0]).mpr ⟨rfl, rfl⟩,
    (decoded 65538 3 [2, 0, 1]).mpr ⟨rfl, rfl⟩, mt (fits 65538 2).mp (by decide),
    ⟨key, decodes, (again _ _ decodes).mpr (by decide)⟩,
    ⟨key', decodes', mt (again _ _ decodes').mp (by decide)⟩⟩

end PrimeField
end ThresholdMask
