import Mathlib
import ThresholdMask.Value

/-!
# What values show beside their secrets

Two values are the same in public if they have the same type, the same public leaves and blobs of
the same lengths, each listed in depth-first order. Where arrays hold elements of their declared
types, this is all there is to their *outlines*, the values with their secrets blanked
(`Value.outline_eq`).
-/

namespace ThresholdMask

/-! ## Leaves in order -/

namespace ValueTree

variable {σ α : Type}

mutual

/-- What the leaves of a tree give, in depth-first order. -/
def leaves (ofPublic : PublicLeaf → List α) (ofSecret : σ → List α) : ValueTree σ → List α
  | .publicLeaf leaf => ofPublic leaf
  | .secretLeaf secret => ofSecret secret
  | .array _ elements => leavesList ofPublic ofSecret elements
  | .tuple left right => leaves ofPublic ofSecret left ++ leaves ofPublic ofSecret right

/-- What the leaves of the trees of a list give. -/
def leavesList (ofPublic : PublicLeaf → List α) (ofSecret : σ → List α) :
    List (ValueTree σ) → List α
  | [] => []
  | v :: rest => leaves ofPublic ofSecret v ++ leavesList ofPublic ofSecret rest

end

@[simp] theorem leavesList_eq (ofPublic : PublicLeaf → List α) (ofSecret : σ → List α)
    (vs : List (ValueTree σ)) :
    leavesList ofPublic ofSecret vs = vs.flatMap (leaves ofPublic ofSecret) := by
  induction vs with
  | nil => rfl
  | cons v rest ih => rw [leavesList, ih, List.flatMap_cons]

/-- Leaves that are replaced give what is made of their replacements. -/
theorem leaves_map {τ : Type} (f : σ → τ) (ofPublic : PublicLeaf → List α)
    (ofSecret : τ → List α) (v : ValueTree σ) :
    (v.map f).leaves ofPublic ofSecret = v.leaves ofPublic fun secret => ofSecret (f secret) := by
  induction v using ValueTree.induction with
  | publicLeaf leaf => rfl
  | secretLeaf secret => rfl
  | array inner elements each =>
    rw [map, mapList_eq, leaves, leaves, leavesList_eq, leavesList_eq, List.flatMap_map]
    exact List.flatMap_congr each
  | tuple left right onLeft onRight => rw [map, leaves, leaves, onLeft, onRight]

end ValueTree

/-- How much the leaves of a tree of this type give, where leaves of a kind all give as much. -/
def ValueType.leafCount (ofPublic : PublicKind → Nat) (ofSecret : SecretKind → Nat) :
    ValueType → Nat
  | publicLeaf kind => ofPublic kind
  | secretLeaf kind => ofSecret kind
  | array inner size => size * inner.leafCount ofPublic ofSecret
  | tuple left right => left.leafCount ofPublic ofSecret + right.leafCount ofPublic ofSecret

namespace ValueTree

variable {σ α : Type} [SecretLeaf σ] {ofPublic : PublicLeaf → List α} {ofSecret : σ → List α}
  {countPublic : PublicKind → Nat} {countSecret : SecretKind → Nat}

theorem length_leaves (onPublic : ∀ leaf, (ofPublic leaf).length = countPublic leaf.kind)
    (onSecret : ∀ secret, (ofSecret secret).length = countSecret (SecretLeaf.kind secret))
    {v : ValueTree σ} (typed : v.WellTyped) :
    (v.leaves ofPublic ofSecret).length = v.type.leafCount countPublic countSecret := by
  induction typed with
  | publicLeaf leaf => exact onPublic leaf
  | secretLeaf secret => exact onSecret secret
  | array inner elements types typed each =>
    rw [leaves, type, ValueType.leafCount]
    induction elements with
    | nil => rw [leavesList, List.length_nil, List.length_nil, Nat.zero_mul]
    | cons e rest ih =>
      rw [List.forall_mem_cons] at types typed each
      rw [leavesList, List.length_append, each.1, types.1, ih types.2 typed.2 each.2,
        List.length_cons, Nat.succ_mul, Nat.add_comm]
  | tuple left right _ _ onLeft onRight =>
    rw [leaves, List.length_append, onLeft, onRight, type, ValueType.leafCount]

end ValueTree

/-! ## Values that are the same in public -/

namespace Secret

/-- The length of a blob. -/
def blobLengths : Secret → List Nat
  | scalar _ => []
  | blob bytes => [bytes.length]

/-- The kind of a secret, and the length of a blob. -/
def outline : Secret → SecretKind × Nat
  | scalar v => (.scalar v.kind, 0)
  | blob bytes => (.blob, bytes.length)

end Secret

namespace Value

/-- The public leaves of a value, in depth-first order. -/
def publicLeaves (v : Value) : List PublicLeaf := v.leaves (fun leaf => [leaf]) fun _ => []

/-- The lengths of the blobs of a value, in depth-first order. -/
def blobLengths (v : Value) : List Nat := v.leaves (fun _ => []) Secret.blobLengths

/-- A value with its secrets blanked. -/
def outline (v : Value) : ValueTree (SecretKind × Nat) := v.map Secret.outline

/-- The values differ at most in their secrets: they have the same type, the same public leaves and
blobs of the same lengths. -/
structure SameInPublic (v w : Value) : Prop where
  type : v.type = w.type
  publicLeaves : v.publicLeaves = w.publicLeaves
  blobLengths : v.blobLengths = w.blobLengths

theorem length_publicLeaves {v : Value} (typed : v.WellTyped) :
    v.publicLeaves.length = v.type.leafCount (fun _ => 1) fun _ => 0 :=
  ValueTree.length_leaves (fun _ => rfl) (fun _ => rfl) typed

theorem length_blobLengths {v : Value} (typed : v.WellTyped) :
    v.blobLengths.length = v.type.leafCount (fun _ => 0)
      fun kind => if kind = .blob then 1 else 0 := by
  refine ValueTree.length_leaves (fun _ => rfl) (fun secret => ?_) typed
  cases secret <;> rfl

/-- Of values of the same type, the parts that come first give as many leaves. -/
theorem SameInPublic.of_append {v w : Value} (typed : v.WellTyped) (typed' : w.WellTyped)
    (types : v.type = w.type) {leaves leaves' : List PublicLeaf} {lengths lengths' : List Nat}
    (sameLeaves : v.publicLeaves ++ leaves = w.publicLeaves ++ leaves')
    (sameLengths : v.blobLengths ++ lengths = w.blobLengths ++ lengths') :
    v.SameInPublic w ∧ leaves = leaves' ∧ lengths = lengths' := by
  obtain ⟨leavesHere, leavesThere⟩ := List.append_inj sameLeaves
    (by rw [length_publicLeaves typed, length_publicLeaves typed', types])
  obtain ⟨lengthsHere, lengthsThere⟩ := List.append_inj sameLengths
    (by rw [length_blobLengths typed, length_blobLengths typed', types])
  exact ⟨⟨types, leavesHere, lengthsHere⟩, leavesThere, lengthsThere⟩

theorem outline_elements_eq {inner : ValueType} {elements elements' : List Value}
    (each : ∀ v ∈ elements, ∀ {w : Value}, v.WellTyped → w.WellTyped → v.SameInPublic w →
      v.outline = w.outline)
    (length : elements.length = elements'.length)
    (types : ∀ v ∈ elements, v.type = inner) (types' : ∀ v ∈ elements', v.type = inner)
    (typed : ∀ v ∈ elements, v.WellTyped) (typed' : ∀ v ∈ elements', v.WellTyped)
    (leaves : ValueTree.leavesList (fun leaf => [leaf]) (fun _ => []) elements =
      ValueTree.leavesList (fun leaf => [leaf]) (fun _ => []) elements')
    (lengths : ValueTree.leavesList (fun _ => []) Secret.blobLengths elements =
      ValueTree.leavesList (fun _ => []) Secret.blobLengths elements') :
    elements.map outline = elements'.map outline := by
  induction elements generalizing elements' with
  | nil => rw [List.eq_nil_of_length_eq_zero length.symm]
  | cons v rest ih =>
    cases elements' with
    | nil => cases length
    | cons w rest' =>
      rw [List.forall_mem_cons] at each types types' typed typed'
      -- the lists of leaves do not show where an element ends, but its type does
      obtain ⟨first, leaves, lengths⟩ := SameInPublic.of_append typed.1 typed'.1
        (types.1.trans types'.1.symm) leaves lengths
      rw [List.map_cons, List.map_cons, each.1 typed.1 typed'.1 first,
        ih each.2 (Nat.succ.inj length) types.2 types'.2 typed.2 typed'.2 leaves lengths]

/-- Well-typed values that are the same in public have the same outline. -/
theorem outline_eq {v : Value} : ∀ {w : Value}, v.WellTyped → w.WellTyped → v.SameInPublic w →
    v.outline = w.outline := by
  induction v using ValueTree.induction with
  | publicLeaf leaf =>
    intro w _ _ same
    obtain ⟨types, leaves, -⟩ := same
    cases w with
    | publicLeaf leaf' => rw [List.singleton_inj.mp leaves]
    | _ => cases types
  | secretLeaf secret =>
    intro w _ _ same
    obtain ⟨types, -, lengths⟩ := same
    cases w with
    | secretLeaf secret' =>
      have outlines : secret.outline = secret'.outline := by
        cases secret with
        | scalar v =>
          cases secret' with
          | scalar w =>
            have kinds := SecretKind.scalar.inj (ValueType.secretLeaf.inj types)
            rw [Secret.outline, Secret.outline, kinds]
          | blob bytes' => cases types
        | blob bytes =>
          cases secret' with
          | scalar w => cases types
          | blob bytes' =>
            rw [Secret.outline, Secret.outline, List.singleton_inj.mp lengths]
      rw [outline, outline, ValueTree.map, ValueTree.map, outlines]
    | _ => cases types
  | array inner elements each =>
    intro w typed typed' same
    obtain ⟨types, leaves, lengths⟩ := same
    cases w with
    | array inner' elements' =>
      obtain ⟨rfl, length⟩ := ValueType.array.inj types
      cases typed with
      | array _ _ elementTypes elementsTyped =>
        cases typed' with
        | array _ _ elementTypes' elementsTyped' =>
          have outlines := outline_elements_eq each length elementTypes elementTypes' elementsTyped
            elementsTyped' leaves lengths
          rw [outline, outline, ValueTree.map, ValueTree.map, ValueTree.mapList_eq,
            ValueTree.mapList_eq]
          exact congrArg _ outlines
    | _ => cases types
  | tuple left right onLeft onRight =>
    intro w typed typed' same
    obtain ⟨types, leaves, lengths⟩ := same
    cases w with
    | tuple left' right' =>
      obtain ⟨typeL, typeR⟩ := ValueType.tuple.inj types
      cases typed with
      | tuple _ _ typedL typedR =>
        cases typed' with
        | tuple _ _ typedL' typedR' =>
          obtain ⟨sameL, leavesR, lengthsR⟩ :=
            SameInPublic.of_append typedL typedL' typeL leaves lengths
          have outlineL := onLeft typedL typedL' sameL
          have outlineR := onRight typedR typedR' ⟨typeR, leavesR, lengthsR⟩
          rw [outline, outline] at outlineL outlineR ⊢
          rw [ValueTree.map, ValueTree.map, outlineL, outlineR]
    | _ => cases types

end Value
end ThresholdMask
