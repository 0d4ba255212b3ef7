import ThresholdMask.Digest.Blake3
import ThresholdMask.Roster

/-!
# Roster fingerprints

The fingerprint of a roster under a context is the BLAKE3 digest of one byte string: the context and
then every identifier in roster order, each behind its length in eight bytes. Because everything is
behind its length, the byte string determines its parts (`Roster.bindingBytes_inj`), whatever bytes
they are made of, so that only a collision of the digest could hide a difference.
-/

namespace ThresholdMask

/-- A byte string behind its length in eight bytes, least significant first. -/
def framed (b : Bytes) : Bytes := Bytes.ofNatLE 8 b.length ++ b

theorem framed_ne_nil (b : Bytes) : framed b ≠ [] := by simp [framed, Bytes.ofNatLE]

/-- A framed string can be read off from whatever follows it, if its length fits into eight bytes. -/
theorem framed_append_inj {a b s t : Bytes} (ha : a.length < 1 <<< (8 * 8))
    (hb : b.length < 1 <<< (8 * 8)) : framed a ++ s = framed b ++ t ↔ a = b ∧ s = t := by
  refine ⟨fun same => ?_, fun ⟨string, rest⟩ => string ▸ rest ▸ rfl⟩
  rw [framed, framed, List.append_assoc, List.append_assoc] at same
  obtain ⟨lengths, rest⟩ := List.append_inj same (by simp)
  exact List.append_inj rest ((Bytes.ofNatLE_inj ha hb).mp lengths)

/-- Framed strings one after the other can be read off, one after the other. -/
theorem flatMap_framed_inj {as bs : List Bytes} (ha : ∀ a ∈ as, a.length < 1 <<< (8 * 8))
    (hb : ∀ b ∈ bs, b.length < 1 <<< (8 * 8)) :
    as.flatMap framed = bs.flatMap framed ↔ as = bs := by
  refine ⟨fun same => ?_, fun same => same ▸ rfl⟩
  induction as generalizing bs with
  | nil =>
    cases bs with
    | nil => rfl
    | cons b rest => exact absurd (List.append_eq_nil_iff.mp same.symm).1 (framed_ne_nil b)
  | cons a rest ih =>
    cases bs with
    | nil => exact absurd (List.append_eq_nil_iff.mp same).1 (framed_ne_nil a)
    | cons b rest' =>
      rw [List.forall_mem_cons] at ha hb
      rw [List.flatMap_cons, List.flatMap_cons] at same
      obtain ⟨first, others⟩ := (framed_append_inj ha.1 hb.1).mp same
      rw [first, ih ha.2 hb.2 others]

namespace Roster

/-- The text that sets these digests apart from all others. -/
def fingerprintContext : String := "veilshare-roster-binding-v1"

/-- The byte string that is hashed: the context, then the parties in order, all framed. -/
def bindingBytes (R : Roster) (context : Bytes) : Bytes :=
  framed context ++ R.parties.flatMap fun p => framed p.bytes

/-- The digest that binds a roster and a context. -/
def fingerprint (R : Roster) (context : Bytes) : FixedBytes 32 :=
  Blake3.deriveKey (Bytes.ofText fingerprintContext) (R.bindingBytes context)

/-- What fits into memory: fewer parties, and fewer bytes in an identifier, than there are
addresses. -/
structure Addressable (R : Roster) : Prop where
  size : R.size < 1 <<< (8 * 8)
  lengths : ∀ p ∈ R.parties, p.bytes.length < 1 <<< (8 * 8)

/-- The hashed string determines the context and the roster. -/
theorem bindingBytes_inj {R T : Roster} (hR : R.Addressable) (hT : T.Addressable)
    {c d : Bytes} (hc : c.length < 1 <<< (8 * 8)) (hd : d.length < 1 <<< (8 * 8)) :
    R.bindingBytes c = T.bindingBytes d ↔ c = d ∧ R = T := by
  have short {R : Roster} (h : R.Addressable) :
      ∀ b ∈ R.parties.map PartyId.bytes, b.length < 1 <<< (8 * 8) := by
    simpa using h.lengths
  have parties : R.parties.map PartyId.bytes = T.parties.map PartyId.bytes ↔ R = T := by
    rw [List.map_inj_right fun p q same => congrArg PartyId.mk same]
    cases R
    cases T
    simp
  rw [bindingBytes, bindingBytes, framed_append_inj hc hd, ← parties,
    ← flatMap_framed_inj (short hR) (short hT), List.flatMap_map, List.flatMap_map]

/-- An identifier that contains the frame of another one is not taken for two. -/
example : bindingBytes ⟨[⟨[1]⟩, ⟨[2]⟩], by decide, by decide⟩ [] ≠
    bindingBytes ⟨[⟨[1] ++ framed [2]⟩], by decide, by decide⟩ [] := by
  decide

end Roster
end ThresholdMask
