import Mathlib
import ThresholdMask.Proofs.Storage

/-!
# Public values are held in clear

Whether a value is public is told by its type, in which an array shows the type that it declares and
not what it holds. In a well-typed value this is enough: a public one has no secret leaf at any depth
(`ValueTree.exists_ofClear`). Masking accepts only well-typed values, so it deals a public one
without a draw and hands the same clear copy to every party (`Masker.mask_public`).
-/

namespace ThresholdMask

/-! ## Trees without secrets -/

namespace ValueTree

variable {σ τ α : Type}

/-- A tree without secret leaves, where others may have them. -/
def ofClear (t : ValueTree Empty) : ValueTree σ := t.map Empty.elim

@[simp] theorem ofClear_array (inner : ValueType) (ts : List (ValueTree Empty)) :
    (ofClear (.array inner ts) : ValueTree σ) = .array inner (ts.map ofClear) := by
  rw [ofClear, map, mapList_eq]
  rfl

/-- There are no secret leaves to replace. -/
theorem map_ofClear (f : σ → τ) (t : ValueTree Empty) : (ofClear t).map f = ofClear t := by
  induction t using ValueTree.induction with
  | publicLeaf leaf => rfl
  | secretLeaf secret => exact secret.elim
  | array inner ts each =>
    rw [ofClear_array, ofClear_array, map, mapList_eq, List.map_map]
    exact congrArg (array inner) (List.map_congr_left each)
  | tuple left right onLeft onRight => exact congrArg₂ tuple onLeft onRight

/-- All that leaves give comes from public leaves. -/
theorem exists_of_mem_leaves_ofClear {ofPublic : PublicLeaf → List α} {ofSecret : σ → List α}
    {a : α} {t : ValueTree Empty} (member : a ∈ (ofClear t).leaves ofPublic ofSecret) :
    ∃ leaf, a ∈ ofPublic leaf := by
  induction t using ValueTree.induction with
  | publicLeaf leaf => exact ⟨leaf, member⟩
  | secretLeaf secret => exact secret.elim
  | array inner ts each =>
    rw [ofClear_array, leaves, leavesList_eq, List.flatMap_map, List.mem_flatMap] at member
    obtain ⟨t, inside, given⟩ := member
    exact each t inside given
  | tuple left right onLeft onRight =>
    rcases List.mem_append.mp member with given | given
    · exact onLeft given
    · exact onRight given

/-- The secret leaves of a tree, in depth-first order. -/
def secretLeaves (v : ValueTree σ) : List σ := v.leaves (fun _ => []) fun secret => [secret]

theorem secretLeaves_ofClear (t : ValueTree Empty) : (ofClear t : ValueTree σ).secretLeaves = [] := by
  rw [List.eq_nil_iff_forall_not_mem]
  intro secret member
  obtain ⟨leaf, given⟩ := exists_of_mem_leaves_ofClear member
  cases given

/-- A well-typed value whose type is public has no secret leaves. -/
theorem exists_ofClear [SecretLeaf σ] {v : ValueTree σ} (typed : v.WellTyped)
    (isPublic : v.type.isSecret = false) : ∃ t, v = ofClear t := by
  induction typed with
  | publicLeaf leaf => exact ⟨.publicLeaf leaf, rfl⟩
  | secretLeaf secret => cases isPublic
  | array inner elements types _ each =>
    -- what the array declares is public, and so are all elements of the declared type
    have clear : ∀ e ∈ elements, e ∈ Set.range (ofClear : ValueTree Empty → ValueTree σ) := by
      intro e member
      have declared : e.type.isSecret = false := by
        rw [types e member]
        exact isPublic
      obtain ⟨t, same⟩ := each e member declared
      exact ⟨t, same.symm⟩
    obtain ⟨ts, rfl⟩ : elements ∈ Set.range (List.map ofClear) := by
      rw [Set.range_list_map]
      exact clear
    exact ⟨.array inner ts, (ofClear_array inner ts).symm⟩
  | tuple left right _ _ onLeft onRight =>
    obtain ⟨publicL, publicR⟩ := Bool.or_eq_false_iff.mp isPublic
    obtain ⟨l, rfl⟩ := onLeft publicL
    obtain ⟨r, rfl⟩ := onRight publicR
    exact ⟨.tuple l r, rfl⟩

end ValueTree

namespace Masker

variable {m : Masker} {σ : Type} {S : Sampler σ}

open ValueTree (ofClear)

/-! ## Masking without draws -/

theorem dealElements_ofClear {inner : ValueType} {ts : List (ValueTree Empty)}
    (types : ∀ t ∈ ts, (ofClear t : Value).type = inner)
    (each : ∀ t ∈ ts, ∀ path, m.dealValue S path (ofClear t) = pure (ofClear t)) {path : Path}
    {start : Nat} :
    m.dealElements S path inner start (ts.map ofClear) = pure (ts.map ofClear) := by
  induction ts generalizing start with
  | nil =>
    unfold dealElements
    rfl
  | cons t rest ih =>
    rw [List.forall_mem_cons] at types each
    rw [List.map_cons, dealElements_cons types.1, each.1, pure_bind, ih types.2 each.2, pure_bind,
      List.map_cons]

/-- A value without secret leaves is its own dealing, and nothing is drawn for it. -/
theorem dealValue_ofClear {t : ValueTree Empty} (typed : (ofClear t : Value).WellTyped) :
    ∀ path, m.dealValue S path (ofClear t) = pure (ofClear t) := by
  induction t using ValueTree.induction with
  | publicLeaf leaf =>
    intro path
    show m.dealValue S path (.publicLeaf leaf) = _
    unfold dealValue
    rfl
  | secretLeaf secret => exact secret.elim
  | array inner ts each =>
    intro path
    rw [ValueTree.ofClear_array] at typed
    cases typed with
    | array _ _ types typed =>
      rw [List.forall_mem_map] at types typed
      rw [ValueTree.ofClear_array, ValueTree.ofClear_array]
      unfold dealValue
      rw [dealElements_ofClear types fun t member => each t member (typed t member), pure_bind]
  | tuple left right onLeft onRight =>
    intro path
    cases typed with
    | tuple _ _ typedL typedR =>
      show m.dealValue S path (.tuple (ofClear left) (ofClear right)) = _
      unfold dealValue
      rw [onLeft typedL, pure_bind, onRight typedR, pure_bind]
      rfl

/-- What mirrors a value without secret leaves is the value itself. -/
theorem Mirrors.eq_ofClear {t : ValueTree Empty} : ∀ {copy : MaskedValue},
    m.Mirrors (ofClear t) copy → copy = ofClear t := by
  induction t using ValueTree.induction with
  | publicLeaf leaf =>
    intro copy h
    cases h with
    | publicLeaf leaf => rfl
  | secretLeaf secret => exact secret.elim
  | array inner ts each =>
    intro copy h
    rw [ValueTree.ofClear_array] at h ⊢
    cases h with
    | array _ _ copies length mirrors =>
      rw [List.length_map] at length
      refine congrArg _ (List.ext_getElem (length.trans (List.length_map ..).symm) ?_)
      intro i inside inside'
      have found : (ts.map (ofClear : _ → Value))[i]? = some (ofClear ts[i]) := by
        rw [List.getElem?_map, List.getElem?_eq_getElem (length ▸ inside), Option.map_some]
      rw [List.getElem_map]
      exact each _ (List.getElem_mem _) (mirrors i _ _ found (List.getElem?_eq_getElem inside))
  | tuple left right onLeft onRight =>
    intro copy h
    cases h with
    | tuple _ _ left' right' mirrorsL mirrorsR =>
      rw [onLeft mirrorsL, onRight mirrorsR]
      rfl

theorem mirrors_ofClear (m : Masker) (t : ValueTree Empty) :
    m.Mirrors (ofClear t) (ofClear t) := by
  induction t using ValueTree.induction with
  | publicLeaf leaf => exact .publicLeaf leaf
  | secretLeaf secret => exact secret.elim
  | array inner ts each =>
    rw [ValueTree.ofClear_array, ValueTree.ofClear_array]
    refine .array _ _ _ (by rw [List.length_map, List.length_map]) ?_
    intro i v copy found found'
    rw [List.getElem?_map] at found found'
    obtain ⟨t, here, rfl⟩ := Option.map_eq_some_iff.mp found
    rw [here] at found'
    obtain rfl := Option.some.inj found'
    exact each t (List.mem_of_getElem? here)
  | tuple left right onLeft onRight => exact .tuple _ _ _ _ onLeft onRight

/-- The classification counts nothing as shared for a value without secret leaves. -/
theorem ofValue_ofClear (m : Masker) (t : ValueTree Empty) :
    (Classification.ofValue m.chunkSize (ofClear t)).shares = 0 ∧
      (Classification.ofValue m.chunkSize (ofClear t)).ecdsaKeyShares = 0 ∧
      (Classification.ofValue m.chunkSize (ofClear t)).eddsaKeyShares = 0 := by
  have none (sort : StoredSort) (shared : sort ≠ .clear) :
      (MaskedValue.stored (ofClear t)).count sort = 0 := by
    rw [List.count_eq_zero]
    intro member
    obtain ⟨leaf, given⟩ := ValueTree.exists_of_mem_leaves_ofClear member
    exact shared (List.mem_singleton.mp given)
  have counts := (m.mirrors_ofClear t).counts
  rw [← counts.shares, ← counts.ecdsaKeyShares, ← counts.eddsaKeyShares]
  exact ⟨none _ (by decide), none _ (by decide), none _ (by decide)⟩

/-! ## Public values of a collection -/

variable {s s' : σ} {values : NamedValues Value} {bundles : List (PartyId × Bundle)}

theorem wellTyped_of_mask (h : (m.mask S values).run s = (.ok bundles, s')) {name : String}
    {v : Value} (named : values.get? name = some v) : v.WellTyped := by
  obtain ⟨dealings, -, names, represented⟩ := mask_eq_ok h
  have dealt : name ∈ dealings.map (·.1) := names ▸ NamedValues.exists_get?.mp ⟨v, named⟩
  obtain ⟨e, member, rfl⟩ := List.mem_map.mp dealt
  exact (represented e.1 v e.2 (NamedValues.mem_toList_iff.mpr named) member).wellTyped

/-- **Public values.** Under the name of a value whose type is public, every bundle of a masking run
holds the same copy, without a secret leaf. No draw is made for the value, and the classification
counts neither field elements nor shares of keys for it. -/
theorem mask_public (h : (m.mask S values).run s = (.ok bundles, s')) {name : String} {v : Value}
    (named : values.get? name = some v) (isPublic : v.isPublic = true) :
    ∃ (dealing : Dealing) (copy : MaskedValue),
      (∀ {τ : Type} (T : Sampler τ) (path : Path), m.dealValue T path v = pure dealing) ∧
      (∀ x, m.maskedAt x dealing = copy) ∧
      copy.secretLeaves = [] ∧
      (∀ e ∈ bundles, e.2.get? name = some copy) ∧
      (Classification.ofValue m.chunkSize v).shares = 0 ∧
      (Classification.ofValue m.chunkSize v).ecdsaKeyShares = 0 ∧
      (Classification.ofValue m.chunkSize v).eddsaKeyShares = 0 := by
  have typed := wellTyped_of_mask h named
  obtain ⟨t, rfl⟩ := ValueTree.exists_ofClear typed (Bool.not_eq_true' _ ▸ isPublic)
  have held : ∀ e ∈ bundles, e.2.get? name = some (ofClear t) := by
    intro e member
    obtain ⟨copy, found, mirrors⟩ := exists_mirror h member named
    rw [found, mirrors.eq_ofClear]
  exact ⟨ofClear t, ofClear t, fun T path => dealValue_ofClear typed path,
    fun x => ValueTree.map_ofClear _ t, ValueTree.secretLeaves_ofClear t, held, m.ofValue_ofClear t⟩

/-- The public numbers beside the keys and the blobs. -/
def keyringSizes : Value :=
  .array (.publicLeaf .integer) [.publicLeaf (.integer (-1)), .publicLeaf (.integer 2)]

theorem get?_keyringSizes : keyringValues.get? "sizes" = some keyringSizes := by
  rw [← NamedValues.mem_toList_iff, keyringValues, NamedValues.toList_ofList (by decide)]
  exact List.mem_cons_of_mem _ (List.mem_cons_of_mem _ List.mem_cons_self)

theorem keyringSizes_public :
    ∃ (dealing : Dealing) (copy : MaskedValue),
      (∀ {τ : Type} (T : Sampler τ) (path : Path),
        trio.dealValue T path keyringSizes = pure dealing) ∧
      (∀ x, trio.maskedAt x dealing = copy) ∧
      copy.secretLeaves = [] ∧
      (∀ e ∈ formed (trio.bundleAt · keyringDealings) trio.roster.points,
        e.2.get? "sizes" = some copy) ∧
      (Classification.ofValue trio.chunkSize keyringSizes).shares = 0 ∧
      (Classification.ofValue trio.chunkSize keyringSizes).ecdsaKeyShares = 0 ∧
      (Classification.ofValue trio.chunkSize keyringSizes).eddsaKeyShares = 0 :=
  mask_public mask_keyringValues get?_keyringSizes rfl

end Masker
end ThresholdMask
