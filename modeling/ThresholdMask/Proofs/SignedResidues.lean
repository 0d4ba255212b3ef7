import Mathlib
import ThresholdMask.Proofs.Arithmetic
import ThresholdMask.Proofs.Decoding

/-!
# Signed residues

An odd number `p` of residues stands for as many integers, those whose magnitude is at most
`(p - 1) / 2`. Such an integer is encoded as its residue (`PrimeField.encodeSigned_eq`), and any
number is decoded as the one such integer that has its residue (`PrimeField.decodeSigned_eq_iff`).
So the two undo each other (`PrimeField.signed_bijection`).

With an even modulus there would be one residue too many: the one half-way is decoded as an integer
that is not encoded.
-/

namespace ThresholdMask.PrimeField

variable {F : PrimeField}

theorem reduceSigned_eq_iff {v : Int} {a : Nat} (below : a < F.modulus) :
    F.reduceSigned v = a ↔ (v : F.Residue) = a := by
  have : NeZero F.modulus := ⟨by omega⟩
  obtain ⟨below', residue⟩ := isResidueOf_iff.mp (F.isResidueOf_reduceSigned v)
  rw [← F.natCast_inj below' below, residue]

variable (odd : F.modulus % 2 = 1)
include odd

/-! ## Encoding -/

/-- An integer is encoded as its residue, if its magnitude is at most half of the field. -/
theorem encodeSigned_eq (v : Int) :
    F.encodeSigned v = if v.natAbs ≤ F.half then .ok (F.reduceSigned v)
      else .error (F.outOfRange (.magnitude v)) := by
  by_cases bound : v.natAbs ≤ F.half
  · have encoded : F.encodeSigned v =
        .ok (if v < 0 then F.modulus - v.natAbs else v.natAbs) := if_neg (not_lt.mpr bound)
    obtain ⟨below, -, residue⟩ := encodeSigned_eq_ok odd encoded
    rw [if_pos bound, encoded, (reduceSigned_eq_iff below).mpr residue]
  · rw [if_neg bound]
    exact if_pos (not_le.mp bound)

theorem exists_encodeSigned_iff {v : Int} :
    (∃ e, F.encodeSigned v = .ok e) ↔ v.natAbs ≤ F.half := by
  rw [encodeSigned_eq odd]
  constructor
  · rintro ⟨e, encoded⟩
    exact (ite_error_eq_ok.mp encoded).1
  · intro bound
    exact ⟨_, if_pos bound⟩

/-! ## Decoding -/

/-- A number is decoded as the integer within half of the field that has its residue. -/
theorem decodeSigned_eq_iff {a : Nat} {v : Int} :
    F.decodeSigned a = v ↔ v.natAbs ≤ F.half ∧ (v : F.Residue) = a := by
  have bound := natAbs_decodeSigned_le odd a
  have residue := intCast_decodeSigned odd a
  constructor
  · rintro rfl
    exact ⟨bound, residue⟩
  · rintro ⟨bound', residue'⟩
    exact eq_of_intCast_eq odd bound bound' (residue.trans residue'.symm)

/-- Only the residue of a number matters. -/
theorem decodeSigned_eq_decodeSigned_iff {a b : Nat} :
    F.decodeSigned a = F.decodeSigned b ↔ a ≡ b [MOD F.modulus] := by
  rw [← ZMod.natCast_eq_natCast_iff, decodeSigned_eq_iff odd, intCast_decodeSigned odd]
  constructor
  · rintro ⟨-, same⟩
    exact same.symm
  · intro same
    exact ⟨natAbs_decodeSigned_le odd b, same.symm⟩

/-! ## Encoding and decoding -/

theorem decodeSigned_of_encodeSigned {v : Int} {e : Nat} (encoded : F.encodeSigned v = .ok e) :
    F.decodeSigned e = v := by
  obtain ⟨-, bound, residue⟩ := encodeSigned_eq_ok odd encoded
  exact (decodeSigned_eq_iff odd).mpr ⟨bound, residue⟩

theorem encodeSigned_decodeSigned (a : Nat) :
    F.encodeSigned (F.decodeSigned a) = .ok (a % F.modulus) := by
  have below : F.reduce a < F.modulus := F.reduce_lt (by omega) a
  have residue : (F.decodeSigned a : F.Residue) = F.reduce a := by
    rw [intCast_decodeSigned odd, natCast_reduce]
  rw [encodeSigned_eq odd, if_pos (natAbs_decodeSigned_le odd a),
    (reduceSigned_eq_iff below).mpr residue]
  rfl

theorem bijOn_decodeSigned :
    Set.BijOn F.decodeSigned (Set.Iio F.modulus) {v | v.natAbs ≤ F.half} := by
  refine ⟨fun a _ => natAbs_decodeSigned_le odd a, fun a below b below' same => ?_,
    fun v bound => ?_⟩
  · have congruent := (decodeSigned_eq_decodeSigned_iff odd).mp same
    exact Nat.ModEq.eq_of_lt_of_lt congruent below below'
  · obtain ⟨e, encoded⟩ := (exists_encodeSigned_iff odd).mpr bound
    exact ⟨e, (encodeSigned_eq_ok odd encoded).1, decodeSigned_of_encodeSigned odd encoded⟩

/-- **Signed residues.** With an odd modulus `p`, just the integers of magnitude at most
`(p - 1) / 2` are encoded, each one as its residue, and the residue is decoded as the integer again.
Every number is decoded as one of these integers, which depends on its residue only and is encoded
as this residue. So the residues below `p` and these integers are in one-to-one correspondence. -/
theorem signed_bijection :
    (∀ v, (∃ e, F.encodeSigned v = .ok e) ↔ v.natAbs ≤ (F.modulus - 1) / 2) ∧
      (∀ v e, F.encodeSigned v = .ok e →
        e = F.reduceSigned v ∧ e < F.modulus ∧ F.decodeSigned e = v) ∧
      (∀ e, (F.decodeSigned e).natAbs ≤ (F.modulus - 1) / 2 ∧
        F.encodeSigned (F.decodeSigned e) = .ok (e % F.modulus)) ∧
      (∀ e e', F.decodeSigned e = F.decodeSigned e' ↔ e ≡ e' [MOD F.modulus]) ∧
      Set.BijOn F.decodeSigned (Set.Iio F.modulus) {v | v.natAbs ≤ (F.modulus - 1) / 2} := by
  refine ⟨fun v => exists_encodeSigned_iff odd, fun v e encoded => ?_,
    fun e => ⟨natAbs_decodeSigned_le odd e, encodeSigned_decodeSigned odd e⟩,
    fun e e' => decodeSigned_eq_decodeSigned_iff odd, bijOn_decodeSigned odd⟩
  obtain ⟨below, -, residue⟩ := encodeSigned_eq_ok odd encoded
  exact ⟨((reduceSigned_eq_iff below).mpr residue).symm, below,
    decodeSigned_of_encodeSigned odd encoded⟩

omit odd

/-- Residues modulo an odd number that is not prime. -/
def nineResidues : PrimeField := ⟨9⟩

/-- Both ends of the range, the first integer outside of it, and a number above the modulus. -/
theorem nineResidues_signed : nineResidues.modulus % 2 = 1 ∧
    (∃ e, nineResidues.encodeSigned (-4) = .ok e ∧ nineResidues.decodeSigned e = -4) ∧
    (∃ e, nineResidues.encodeSigned 4 = .ok e ∧ nineResidues.decodeSigned e = 4) ∧
    (¬∃ e, nineResidues.encodeSigned 5 = .ok e) ∧
    nineResidues.decodeSigned 14 = nineResidues.decodeSigned 5 ∧
    nineResidues.encodeSigned (nineResidues.decodeSigned 14) = .ok 5 := by
  have odd : nineResidues.modulus % 2 = 1 := rfl
  obtain ⟨encoded, inverse, decoded, residues, -⟩ := signed_bijection odd
  obtain ⟨low, lowest⟩ := (encoded (-4)).mpr (by decide)
  obtain ⟨high, highest⟩ := (encoded 4).mpr (by decide)
  exact ⟨odd, ⟨low, lowest, (inverse _ _ lowest).2.2⟩, ⟨high, highest, (inverse _ _ highest).2.2⟩,
    mt (encoded 5).mp (by decide), (residues 14 5).mpr (by decide), (decoded 14).2⟩

end ThresholdMask.PrimeField
