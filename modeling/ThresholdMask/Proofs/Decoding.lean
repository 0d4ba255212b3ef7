import Mathlib
import ThresholdMask.Masker.Masking
import ThresholdMask.Masker.Unmasking
import ThresholdMask.Proofs.Outcomes
import ThresholdMask.Proofs.Residues

/-!
# Which secret a field element stands for

`SecretScalar.DecodedFrom` says in terms of residues and byte values, not of the decoders, which
scalar a field element stands for. The decoders compute it (`decodeScalarAt_eq_ok_iff`), the
encoders invert it (`decodedFrom_of_encode`), and there is at most one such scalar of a kind
(`DecodedFrom.unique`).

Blobs are cut into chunks of a fixed size, of which the last may be shorter. The chunks determine
the blob: `Bytes.flatten_chunks` puts them together again, and `Bytes.chunks_flatten` says that any
byte strings of the right number and lengths are the chunks of what they make up.
-/

namespace ThresholdMask

/-! ## Signed integers -/

namespace PrimeField

variable {F : PrimeField}

/-- Within half of the field, an integer is determined by its residue. -/
theorem eq_of_intCast_eq (odd : F.modulus % 2 = 1) {v w : Int} (hv : v.natAbs ≤ F.half)
    (hw : w.natAbs ≤ F.half) (same : (v : F.Residue) = w) : v = w := by
  have dvd : (F.modulus : Int) ∣ v - w := by
    rw [← ZMod.intCast_zmod_eq_zero_iff_dvd (v - w) F.modulus, Int.cast_sub, same, sub_self]
  -- the modulus is odd, so that two halves do not make it up
  have small : (v - w).natAbs < F.modulus := by
    unfold half at hv hw
    omega
  have zero : (v - w).natAbs = 0 :=
    Nat.eq_zero_of_dvd_of_lt (by simpa using Int.natAbs_dvd_natAbs.mpr dvd) small
  omega

theorem natAbs_decodeSigned_le (odd : F.modulus % 2 = 1) (a : Nat) :
    (F.decodeSigned a).natAbs ≤ F.half := by
  have below : F.reduce a < F.modulus := F.reduce_lt (by omega) a
  unfold decodeSigned
  by_cases upper : F.half < F.reduce a
  · rw [if_pos upper]
    unfold half at upper ⊢
    omega
  · rw [if_neg upper]
    omega

theorem intCast_decodeSigned (odd : F.modulus % 2 = 1) (a : Nat) :
    ((F.decodeSigned a : Int) : F.Residue) = a := by
  have below : F.reduce a < F.modulus := F.reduce_lt (by omega) a
  unfold decodeSigned
  by_cases upper : F.half < F.reduce a
  · rw [if_pos upper, Int.cast_neg, Int.cast_natCast, Nat.cast_sub below.le, ZMod.natCast_self,
      zero_sub, neg_neg, natCast_reduce]
  · rw [if_neg upper, Int.cast_natCast, natCast_reduce]

theorem encodeSigned_eq_ok {v : Int} {a : Nat} (odd : F.modulus % 2 = 1)
    (h : F.encodeSigned v = .ok a) :
    a < F.modulus ∧ v.natAbs ≤ F.half ∧ (v : F.Residue) = a := by
  rw [encodeSigned, error_ite_eq_ok, not_lt] at h
  obtain ⟨bound, encoded⟩ := h
  have inside : v.natAbs < F.modulus := by
    unfold half at bound
    omega
  have value : (if v < 0 then F.modulus - v.natAbs else v.natAbs) = a := Except.ok.inj encoded
  split at value
  · rename_i negative
    have magnitude : (v.natAbs : Int) = -v := by omega
    refine ⟨by omega, bound, ?_⟩
    rw [← value, Nat.cast_sub inside.le, ZMod.natCast_self, zero_sub, ← Int.cast_natCast, magnitude,
      Int.cast_neg, neg_neg]
  · have magnitude : (v.natAbs : Int) = v := by omega
    refine ⟨by omega, bound, ?_⟩
    rw [← value, ← Int.cast_natCast, magnitude]

theorem element_eq_ok {a b : Nat} : F.element a = .ok b ↔ a < F.modulus ∧ a = b := by
  rw [element, ite_error_eq_ok, Except.ok.injEq]

/-! ## Booleans, keys and chunks -/

theorem decodeBool_eq_ok {a : Nat} (residue : a < F.modulus) {b : Bool} :
    F.decodeBool a = .ok b ↔ a = encodeBool b := by
  rw [decodeBool, reduce, Nat.mod_eq_of_lt residue]
  by_cases zero : a = 0
  · cases b <;> simp [zero, encodeBool]
  · by_cases one : a = 1
    · cases b <;> simp [one, encodeBool]
    · cases b <;> simp [zero, one, encodeBool]

theorem encodeKey_eq_ok {key : FixedBytes keySize} {a : Nat} :
    F.encodeKey key = .ok a ↔ a < F.modulus ∧ a ≠ 0 ∧ Bytes.toNatBE key.val = a := by
  rw [encodeKey, bind_eq_ok]
  simp only [element_eq_ok, error_ite_eq_ok, Except.ok.injEq]
  constructor
  · rintro ⟨b, ⟨below, rfl⟩, nonzero, rfl⟩
    exact ⟨below, nonzero, rfl⟩
  · rintro ⟨below, nonzero, rfl⟩
    exact ⟨_, ⟨below, rfl⟩, nonzero, rfl⟩

theorem decodeKey_eq_ok {a : Nat} {key : FixedBytes keySize} :
    F.decodeKey a = .ok key ↔ Bytes.toNatBE key.val = a := by
  rw [decodeKey, ite_error_eq_ok, Except.ok.injEq]
  constructor
  · rintro ⟨fits, rfl⟩
    rw [Bytes.toNatBE_ofNatBE, Nat.mod_eq_of_lt fits]
  · rintro rfl
    have bound := Bytes.toNatBE_lt key.val
    have inverse := Bytes.ofNatBE_toNatBE key.val
    rw [key.property] at bound inverse
    exact ⟨bound, Subtype.ext inverse⟩

theorem decodeChunk_eq_ok {a length : Nat} {b : Bytes} :
    F.decodeChunk a length = .ok b ↔ b.length = length ∧ b.toNatLE = a := by
  rw [decodeChunk, ite_error_eq_ok, Except.ok.injEq]
  constructor
  · rintro ⟨fits, rfl⟩
    rw [Bytes.length_ofNatLE, Bytes.toNatLE_ofNatLE, Nat.mod_eq_of_lt fits]
    exact ⟨rfl, rfl⟩
  · rintro ⟨rfl, rfl⟩
    exact ⟨b.toNatLE_lt, b.ofNatLE_toNatLE⟩

theorem encodeChunk_eq_ok (nonzero : F.modulus ≠ 0) {b : Bytes} (short : b.length ≤ F.chunkSize) :
    F.encodeChunk b = .ok b.toNatLE := by
  rw [encodeChunk, error_ite_eq_ok, element_eq_ok]
  exact ⟨not_lt.mpr short, F.toNatLE_lt_modulus nonzero b short, rfl⟩

end PrimeField

/-! ## Scalars -/

namespace SecretScalar

/-- The scalar that a field element stands for: a signed integer within half of the field and of
the same residue, the element itself, one of the residues zero and one, or the bytes of a number
other than zero. -/
def DecodedFrom (F : PrimeField) (a : Nat) : SecretScalar → Prop
  | integer v => v.natAbs ≤ F.half ∧ (v : F.Residue) = a
  | unsignedInteger v => v = a
  | boolean b => a = PrimeField.encodeBool b
  | ecdsaPrivateKey key | eddsaPrivateKey key => a ≠ 0 ∧ Bytes.toNatBE key.val = a

variable {F : PrimeField}

theorem key_injective {key key' : FixedBytes keySize}
    (same : Bytes.toNatBE key.val = Bytes.toNatBE key'.val) : key = key' :=
  Subtype.ext ((Bytes.toNatBE_inj (key.property.trans key'.property.symm)).mp same)

theorem DecodedFrom.unique (odd : F.modulus % 2 = 1) {a : Nat} {v w : SecretScalar}
    (kinds : v.kind = w.kind) (hv : v.DecodedFrom F a) (hw : w.DecodedFrom F a) : v = w := by
  cases v <;> cases w <;> simp only [kind, reduceCtorEq] at kinds <;>
    simp only [DecodedFrom] at hv hw
  case integer v w =>
    rw [PrimeField.eq_of_intCast_eq odd hv.1 hw.1 (hv.2.trans hw.2.symm)]
  case unsignedInteger v w =>
    rw [hv, hw]
  case boolean b c =>
    have same : PrimeField.encodeBool b = PrimeField.encodeBool c := hv.symm.trans hw
    revert same
    cases b <;> cases c <;> simp [PrimeField.encodeBool]
  case ecdsaPrivateKey key key' =>
    rw [key_injective (hv.2.trans hw.2.symm)]
  case eddsaPrivateKey key key' =>
    rw [key_injective (hv.2.trans hw.2.symm)]

/-- What a scalar is encoded as stands for it. -/
theorem decodedFrom_of_encode (odd : F.modulus % 2 = 1) (big : 1 < F.modulus) {v : SecretScalar}
    {a : Nat} (h : v.encode F = .ok a) : a < F.modulus ∧ v.DecodedFrom F a := by
  cases v with
  | integer v =>
    obtain ⟨below, bound, residue⟩ := PrimeField.encodeSigned_eq_ok odd h
    exact ⟨below, bound, residue⟩
  | unsignedInteger v =>
    obtain ⟨below, rfl⟩ := PrimeField.element_eq_ok.mp h
    exact ⟨below, rfl⟩
  | boolean b =>
    obtain rfl : PrimeField.encodeBool b = a := Except.ok.inj h
    refine ⟨?_, rfl⟩
    cases b
    · exact Nat.zero_lt_of_lt big
    · exact big
  | ecdsaPrivateKey key =>
    obtain ⟨below, nonzero, value⟩ := PrimeField.encodeKey_eq_ok.mp h
    exact ⟨below, nonzero, value⟩
  | eddsaPrivateKey key =>
    obtain ⟨below, nonzero, value⟩ := PrimeField.encodeKey_eq_ok.mp h
    exact ⟨below, nonzero, value⟩

end SecretScalar

theorem decodeKeyAt_eq_ok {path : Path} {F : PrimeField} {a : Nat} {key : FixedBytes keySize} :
    Masker.decodeKeyAt path F a = .ok key ↔ a ≠ 0 ∧ Bytes.toNatBE key.val = a := by
  rw [Masker.decodeKeyAt, error_ite_eq_ok, mapError_eq_ok, PrimeField.decodeKey_eq_ok]

/-- Decoding a residue as a scalar of a kind gives the scalar of this kind that it stands for. -/
theorem decodeScalarAt_eq_ok_iff {path : Path} {F : PrimeField} (odd : F.modulus % 2 = 1)
    {a : Nat} (residue : a < F.modulus) {kind : ScalarKind} {v : SecretScalar} :
    Masker.decodeScalarAt path F kind a = .ok v ↔ v.kind = kind ∧ v.DecodedFrom F a := by
  cases kind with
  | integer =>
    simp only [Masker.decodeScalarAt, Except.ok.injEq]
    constructor
    · rintro rfl
      exact ⟨rfl, F.natAbs_decodeSigned_le odd a, F.intCast_decodeSigned odd a⟩
    · rintro ⟨sameKind, decoded⟩
      exact SecretScalar.DecodedFrom.unique odd sameKind.symm
        ⟨F.natAbs_decodeSigned_le odd a, F.intCast_decodeSigned odd a⟩ decoded
  | unsignedInteger =>
    simp only [Masker.decodeScalarAt, PrimeField.decodeUnsigned, PrimeField.reduce,
      Nat.mod_eq_of_lt residue, Except.ok.injEq]
    cases v <;> simp [SecretScalar.kind, SecretScalar.DecodedFrom, eq_comm]
  | boolean =>
    have decided (b : Bool) := F.decodeBool_eq_ok residue (b := b)
    simp only [Masker.decodeScalarAt]
    cases v with
    | boolean b =>
      simp only [SecretScalar.kind, SecretScalar.DecodedFrom, true_and, ← decided]
      cases F.decodeBool a <;> simp
    | _ =>
      simp only [SecretScalar.kind, reduceCtorEq, false_and, iff_false]
      cases F.decodeBool a <;> simp
  | ecdsaPrivateKey =>
    simp only [Masker.decodeScalarAt, map_eq_ok, decodeKeyAt_eq_ok]
    cases v <;> simp [SecretScalar.kind, SecretScalar.DecodedFrom]
  | eddsaPrivateKey =>
    simp only [Masker.decodeScalarAt, map_eq_ok, decodeKeyAt_eq_ok]
    cases v <;> simp [SecretScalar.kind, SecretScalar.DecodedFrom]

/-! ## Chunks of a blob -/

namespace Bytes

variable {size : Nat}

theorem chunkCount_zero (positive : 0 < size) : chunkCount 0 size = 0 := by
  rw [chunkCount, Nat.zero_add]
  exact Nat.div_eq_of_lt (by omega)

theorem chunkCount_of_pos (positive : 0 < size) {length : Nat} (nonempty : 0 < length) :
    chunkCount length size = chunkCount (length - size) size + 1 := by
  rw [chunkCount, chunkCount, ← Nat.add_div_right _ positive]
  by_cases whole : size ≤ length
  · congr 1
    omega
  · rw [Nat.div_eq_of_lt_le (k := 1) (by omega) (by omega),
      Nat.div_eq_of_lt_le (k := 1) (by omega) (by omega)]

theorem chunks_nil (positive : 0 < size) : chunks size [] = [] := by
  rw [chunks, List.length_nil, chunkCount_zero positive]
  rfl

theorem chunks_of_ne_nil (positive : 0 < size) {b : Bytes} (nonempty : b ≠ []) :
    chunks size b = b.take size :: chunks size (b.drop size) := by
  rw [chunks, chunkCount_of_pos positive (List.length_pos_iff.mpr nonempty),
    List.range_succ_eq_map, List.map_cons, List.map_map, chunks, List.length_drop]
  congr 1
  apply List.map_congr_left
  intro i _
  rw [Function.comp_apply, List.drop_drop, Nat.mul_succ, Nat.add_comm]

theorem flatten_chunks (positive : 0 < size) (b : Bytes) : (chunks size b).flatten = b := by
  induction hn : b.length using Nat.strong_induction_on generalizing b with
  | _ n ih =>
    by_cases nonempty : b = []
    · rw [nonempty, chunks_nil positive, List.flatten_nil]
    · have shorter : (b.drop size).length < n := by
        have := List.length_pos_iff.mpr nonempty
        rw [List.length_drop]
        omega
      rw [chunks_of_ne_nil positive nonempty, List.flatten_cons, ih _ shorter _ rfl,
        List.take_append_drop]

theorem length_of_getElem?_chunks {b c : Bytes} {i : Nat} (h : (chunks size b)[i]? = some c) :
    c.length = min size (b.length - size * i) := by
  obtain ⟨k, found, rfl⟩ : ∃ k, (List.range (chunkCount b.length size))[i]? = some k ∧
      (b.drop (size * k)).take size = c := by
    simpa [chunks] using h
  obtain rfl : i = k := by
    obtain ⟨inside, here⟩ := List.getElem?_eq_some_iff.mp found
    simpa using here
  rw [List.length_take, List.length_drop]

theorem length_le_of_mem_chunks {b c : Bytes} (h : c ∈ chunks size b) : c.length ≤ size := by
  obtain ⟨i, found⟩ := List.getElem?_of_mem h
  rw [length_of_getElem?_chunks found]
  exact min_le_left _ _

/-- Byte strings of the number and the lengths of the chunks of a length are the chunks of what they
make up. -/
theorem chunks_flatten (positive : 0 < size) {cs : List Bytes} {length : Nat}
    (count : cs.length = chunkCount length size)
    (lengths : ∀ i c, cs[i]? = some c → c.length = min size (length - size * i)) :
    cs.flatten.length = length ∧ chunks size cs.flatten = cs := by
  induction cs generalizing length with
  | nil =>
    have zero : length = 0 := by
      by_contra nonzero
      rw [chunkCount_of_pos positive (Nat.pos_of_ne_zero nonzero)] at count
      simp at count
    rw [zero, List.flatten_nil]
    exact ⟨rfl, chunks_nil positive⟩
  | cons c rest ih =>
    have nonempty : 0 < length := by
      by_contra zero
      rw [Nat.eq_zero_of_not_pos zero, chunkCount_zero positive] at count
      simp at count
    -- the first chunk is full unless it is the only one
    have first : c.length = min size length := by simpa using lengths 0 c (by simp)
    have countRest : rest.length = chunkCount (length - size) size := by
      rw [chunkCount_of_pos positive nonempty] at count
      exact Nat.succ.inj count
    have lengthsRest : ∀ i d, rest[i]? = some d → d.length = min size (length - size - size * i) := by
      intro i d found
      rw [lengths (i + 1) d (by simpa using found), Nat.mul_succ]
      omega
    obtain ⟨total, others⟩ := ih countRest lengthsRest
    have whole : (c ++ rest.flatten).length = length := by
      rw [List.length_append, total, first]
      omega
    rw [List.flatten_cons]
    refine ⟨whole, ?_⟩
    have taken : (c ++ rest.flatten).take size = c := by
      by_cases long : size ≤ length
      · rw [min_eq_left long] at first
        rw [← first, List.take_left']
        rfl
      · have none : rest.flatten = [] := List.eq_nil_of_length_eq_zero (by omega)
        rw [none, List.append_nil, List.take_of_length_le (by omega)]
    have dropped : (c ++ rest.flatten).drop size = rest.flatten := by
      have parts := List.take_append_drop size (c ++ rest.flatten)
      rw [taken] at parts
      exact List.append_cancel_left parts
    rw [chunks_of_ne_nil positive (List.ne_nil_of_length_pos (by omega)), taken, dropped, others]

end Bytes
end ThresholdMask
