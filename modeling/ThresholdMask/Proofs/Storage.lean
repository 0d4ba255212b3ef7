import Mathlib
import ThresholdMask.Proofs.Drawing
import ThresholdMask.Proofs.Mirroring

/-!
# The classification tells what masking produces

A party stores a clear leaf for each public leaf, a field element for each secret scalar and for each
chunk of a blob, keys apart. `Bundle.stored` lists this for a bundle, element by element, from the
bundle itself. The classification counts it beforehand from the clear collection, and the counts are
right for everything that mirrors a value (`Masker.Mirrors.counts`). So every bundle of a masking run
stores what the classification says, and the run draws as many coefficients as follow from it
(`Masker.mask_classified`).
-/

namespace ThresholdMask

/-! ## What a party stores -/

/-- The sorts of what a party stores. -/
inductive StoredSort where
  /-- A public leaf in clear. -/
  | clear
  /-- A field element for a secret integer, natural number or boolean, or for a chunk of a blob. -/
  | share
  | ecdsaKeyShare
  | eddsaKeyShare
  deriving DecidableEq, Repr

/-- The sort of the share of a scalar. -/
def ScalarKind.storedSort : ScalarKind → StoredSort
  | integer | unsignedInteger | boolean => .share
  | ecdsaPrivateKey => .ecdsaKeyShare
  | eddsaPrivateKey => .eddsaKeyShare

/-- What is stored for a secret leaf: one element for a scalar, and one for each chunk of a blob. -/
def Share.stored : Share → List StoredSort
  | .scalar kind _ => [kind.storedSort]
  | .blob shares => shares.chunks.map fun _ => .share

/-- What is stored for a value. -/
def MaskedValue.stored (v : MaskedValue) : List StoredSort := v.leaves (fun _ => [.clear]) Share.stored

/-- What is stored for a bundle. -/
def Bundle.stored (b : Bundle) : List StoredSort := b.toList.flatMap fun e => MaskedValue.stored e.2

namespace Classification

/-- The list has as many elements of each sort as the classification counts. -/
structure Counts (c : Classification) (stored : List StoredSort) : Prop where
  shares : stored.count .share = c.shares
  publicLeaves : stored.count .clear = c.publicLeaves
  ecdsaKeyShares : stored.count .ecdsaKeyShare = c.ecdsaKeyShares
  eddsaKeyShares : stored.count .eddsaKeyShare = c.eddsaKeyShares

namespace Counts

theorem nil : Counts {} [] := ⟨rfl, rfl, rfl, rfl⟩

theorem append {c d : Classification} {stored others : List StoredSort} (h : c.Counts stored)
    (h' : d.Counts others) : (c + d).Counts (stored ++ others) where
  shares := by
    rw [List.count_append, h.shares, h'.shares]
    rfl
  publicLeaves := by
    rw [List.count_append, h.publicLeaves, h'.publicLeaves]
    rfl
  ecdsaKeyShares := by
    rw [List.count_append, h.ecdsaKeyShares, h'.ecdsaKeyShares]
    rfl
  eddsaKeyShares := by
    rw [List.count_append, h.eddsaKeyShares, h'.eddsaKeyShares]
    rfl

/-- There is nothing of any other sort. -/
theorem length_eq {c : Classification} {stored : List StoredSort} (h : c.Counts stored) :
    stored.length = c.total := by
  have sorts : stored.length = stored.count .share + stored.count .clear +
      stored.count .ecdsaKeyShare + stored.count .eddsaKeyShare := by
    clear h
    induction stored with
    | nil => rfl
    | cons sort rest ih =>
      cases sort <;> simp [ih] <;> omega
  rw [sorts, h.shares, h.publicLeaves, h.ecdsaKeyShares, h.eddsaKeyShares]
  rfl

end Counts
end Classification

namespace Masker

variable {m : Masker}

theorem counts_elements {elements : List Value} {copies : List MaskedValue}
    (each : List.Forall₂ (fun v copy =>
      (Classification.ofValue m.chunkSize v).Counts copy.stored) elements copies) :
    (Classification.ofList m.chunkSize elements).Counts (copies.flatMap MaskedValue.stored) := by
  induction each with
  | nil => exact .nil
  | cons first _ ih =>
    rw [Classification.ofList, List.flatMap_cons]
    exact first.append ih

/-- The counts of a value are right for everything that mirrors it. -/
theorem Mirrors.counts {v : Value} {copy : MaskedValue} (h : m.Mirrors v copy) :
    (Classification.ofValue m.chunkSize v).Counts copy.stored := by
  induction h with
  | publicLeaf leaf => exact ⟨rfl, rfl, rfl, rfl⟩
  | scalar v share residue => cases v <;> exact ⟨rfl, rfl, rfl, rfl⟩
  | blob bytes shares count residues =>
    have chunks : shares.length = Bytes.chunkCount bytes.length m.chunkSize :=
      count.trans (Bytes.chunkCount_eq_ceilDiv ..).symm
    have stored : MaskedValue.stored (.secretLeaf (.blob ⟨shares, bytes.length⟩)) =
        List.replicate shares.length .share := List.map_const' ..
    rw [stored, Classification.ofValue, ofSecret_blob, ← chunks]
    constructor <;> simp [List.count_replicate]
  | array inner elements copies length _ each =>
    have pairs : List.Forall₂ (fun v copy =>
        (Classification.ofValue m.chunkSize v).Counts (MaskedValue.stored copy)) elements copies :=
      List.forall₂_iff_get.mpr ⟨length.symm, fun i inside inside' =>
        each i _ _ (List.getElem?_eq_getElem inside) (List.getElem?_eq_getElem inside')⟩
    rw [Classification.ofValue, MaskedValue.stored, ValueTree.leaves, ValueTree.leavesList_eq]
    exact counts_elements pairs
  | tuple left right left' right' _ _ onLeft onRight =>
    rw [Classification.ofValue]
    exact onLeft.append onRight

/-! ## Bundles -/

section Bundles

variable {σ : Type} {S : Sampler σ} {s s' : σ} {values : NamedValues Value}
  {bundles : List (PartyId × Bundle)}

theorem counts_of_mask (h : (m.mask S values).run s = (.ok bundles, s')) {e : PartyId × Bundle}
    (member : e ∈ bundles) : (m.classify values).Counts e.2.stored := by
  have each : List.Forall₂ (fun v copy =>
      (Classification.ofValue m.chunkSize v).Counts (MaskedValue.stored copy))
      (values.toList.map (·.2)) (e.2.toList.map (·.2)) := by
    rw [List.forall₂_map_left_iff, List.forall₂_map_right_iff]
    exact (mirrors_of_mask h member).imp fun _ _ mirrors => mirrors.2.counts
  have counts := counts_elements each
  rwa [List.flatMap_map] at counts

/-- **Classification.** In a successful masking run every bundle stores, of each sort, as much as
the classification of the collection counts, and nothing else. The run draws as many coefficients as
the degree for everything that is counted as shared: for field elements from the masker's field, for
shares of keys from the field of their kind. -/
theorem mask_classified (h : (m.mask S values).run s = (.ok bundles, s')) :
    (∀ e ∈ bundles, (m.classify values).Counts e.2.stored ∧
      e.2.stored.length = (m.classify values).total) ∧
    ∃ bounds, (m.mask S.recording values).run (s, []) = (.ok bundles, (s', bounds)) ∧
      bounds.Perm
        (List.replicate (m.degree * (m.classify values).shares) m.field.modulus ++
          List.replicate (m.degree * (m.classify values).ecdsaKeyShares) m.ecdsaKeyField.modulus ++
          List.replicate (m.degree * (m.classify values).eddsaKeyShares) m.eddsaKeyField.modulus) := by
  refine ⟨fun e member => ?_, m.namedBounds values, ?_, perm_drawBounds values⟩
  · have counts := counts_of_mask h member
    exact ⟨counts, counts.length_eq⟩
  · exact logs_mask values h []

end Bundles

/-- Two chunks, two public numbers and a key of either kind make six elements for each party; the
four secrets among them take a coefficient each. -/
theorem keyring_classified :
    trio.classify keyringValues = ⟨2, 2, 1, 1⟩ ∧
      (∀ e ∈ formed (trio.bundleAt · keyringDealings) trio.roster.points,
        Classification.Counts ⟨2, 2, 1, 1⟩ e.2.stored ∧ e.2.stored.length = 6) ∧
      ∃ bounds, (trio.mask Sampler.tape.recording keyringValues).run ([11, 13, 17, 19], []) =
          (.ok (formed (trio.bundleAt · keyringDealings) trio.roster.points), ([], bounds)) ∧
        bounds.Perm [trio.field.modulus, trio.field.modulus, trio.ecdsaKeyField.modulus,
          trio.eddsaKeyField.modulus] := by
  have counts : trio.classify keyringValues = ⟨2, 2, 1, 1⟩ := by decide +kernel
  have classified := mask_classified mask_keyringValues
  rw [counts] at classified
  exact ⟨counts, classified⟩

end Masker
end ThresholdMask
