import Mathlib
import ThresholdMask.Proofs.ColumnMasking
import ThresholdMask.Proofs.Places
import ThresholdMask.Proofs.RoundTrip

/-!
# Bundles have the shape of the collection

What a party holds of a value mirrors it (`Masker.Mirrors`): the same tree with the same declared
types, public leaves as they are, and at the secret leaves residues of the fields in which they are
shared. Where steps lead to a part of the value, they lead to a mirror of this part in what the
party holds (`Masker.Mirrors.follow?`).

Contributions that are coherent with a value mirror it, and the bundles of a masking run are
coherent with the collection, so that they have its shape (`Masker.mask_shape`). The bundles that
come of zipping columns of shares are these bundles (`Columnwise.mask_eq`): the zips lose nothing.
-/

namespace ThresholdMask

/-- Only the last chunk may be short. -/
theorem Bytes.chunkCount_eq_ceilDiv (length size : Nat) :
    chunkCount length size = length ⌈/⌉ size :=
  (Nat.ceilDiv_eq_add_pred_div length size).symm

namespace Masker

variable {m : Masker}

/-! ## Mirrors of a value -/

/-- The masked value has the tree of the value, with the same declared types and the same public
leaves. It holds a residue for a scalar, in the field in which scalars of this kind are shared, and
for a blob its length and a residue for every chunk. -/
inductive Mirrors (m : Masker) : Value → MaskedValue → Prop
  | publicLeaf (leaf : PublicLeaf) : Mirrors m (.publicLeaf leaf) (.publicLeaf leaf)
  | scalar (v : SecretScalar) (share : Nat) (residue : share < (m.fieldOf v.kind).modulus) :
      Mirrors m (.secretLeaf (.scalar v)) (.secretLeaf (.scalar v.kind share))
  | blob (bytes : Bytes) (shares : List Nat) (count : shares.length = bytes.length ⌈/⌉ m.chunkSize)
      (residues : ∀ share ∈ shares, share < m.field.modulus) :
      Mirrors m (.secretLeaf (.blob bytes)) (.secretLeaf (.blob ⟨shares, bytes.length⟩))
  | array (inner : ValueType) (elements : List Value) (copies : List MaskedValue)
      (length : copies.length = elements.length)
      (each : ∀ (i : Nat) v copy, elements[i]? = some v → copies[i]? = some copy →
        Mirrors m v copy) :
      Mirrors m (.array inner elements) (.array inner copies)
  | tuple (left right : Value) (left' right' : MaskedValue) (onLeft : Mirrors m left left')
      (onRight : Mirrors m right right') : Mirrors m (.tuple left right) (.tuple left' right')

namespace Mirrors

variable {v : Value} {copy : MaskedValue}

theorem type_eq (h : m.Mirrors v copy) : copy.type = v.type := by
  induction h with
  | publicLeaf leaf => rfl
  | scalar v share residue => rfl
  | blob bytes shares count residues => rfl
  | array inner elements copies length each _ => rw [ValueTree.type, ValueTree.type, length]
  | tuple left right left' right' _ _ typeL typeR =>
    rw [ValueTree.type, ValueTree.type, typeL, typeR]

/-- A step leads to a part of the value and to a mirror of it, or to nothing in both. -/
theorem child? (h : m.Mirrors v copy) (s : PathStep) :
    Option.Rel m.Mirrors (v.child? s) (copy.child? s) := by
  cases h with
  | publicLeaf leaf => cases s <;> exact .none
  | scalar v share residue => cases s <;> exact .none
  | blob bytes shares count residues => cases s <;> exact .none
  | array inner elements copies length each =>
    cases s with
    | left => exact .none
    | right => exact .none
    | index i =>
      show Option.Rel m.Mirrors elements[i]? copies[i]?
      by_cases inside : i < elements.length
      · have inside' : i < copies.length := length ▸ inside
        rw [List.getElem?_eq_getElem inside, List.getElem?_eq_getElem inside']
        exact .some (each i _ _ (List.getElem?_eq_getElem inside)
          (List.getElem?_eq_getElem inside'))
      · rw [List.getElem?_eq_none (not_lt.mp inside),
          List.getElem?_eq_none (length ▸ not_lt.mp inside)]
        exact .none
  | tuple left right left' right' onLeft onRight =>
    cases s with
    | index i => exact .none
    | left => exact .some onLeft
    | right => exact .some onRight

/-- Steps lead to a part of the value and to a mirror of it, or to nothing in both. -/
theorem follow? (h : m.Mirrors v copy) (steps : List PathStep) :
    Option.Rel (fun part held => m.Mirrors part held ∧ held.type = part.type) (v.follow? steps)
      (copy.follow? steps) := by
  induction steps generalizing v copy with
  | nil => exact .some ⟨h, h.type_eq⟩
  | cons s steps ih =>
    -- the first step leads to mirrors, and from there the others do
    have step := h.child? s
    rw [ValueTree.follow?, ValueTree.follow?]
    revert step
    cases v.child? s <;> cases copy.child? s <;> intro step
    · exact .none
    · cases step
    · cases step
    · cases step with
      | some part => exact ih part

end Mirrors

/-! ## Coherent contributions -/

theorem Sharer.Consistent.lt_of_mem {s : Sharer} {shares : List (PartyId × Nat)} {secret : Nat}
    (h : s.Consistent shares secret) {share : PartyId × Nat} (member : share ∈ shares) :
    share.2 < s.field.modulus := by
  obtain ⟨g, -, liesOn, -⟩ := h
  exact (liesOn share member).1

theorem CoherentChunks.lt_modulus {chunks : List Bytes} {columns : List (PartyId × List Nat)}
    (h : m.CoherentChunks chunks columns) {c : PartyId × List Nat} (member : c ∈ columns) :
    ∀ share ∈ c.2, share < m.field.modulus := by
  intro share inside
  obtain ⟨i, found⟩ := List.getElem?_of_mem inside
  -- the share stands in a row, since every column has one share per chunk
  have within : i < chunks.length := by
    rw [← h.1 c member]
    exact (List.getElem?_eq_some_iff.mp found).1
  have row := h.2 i chunks[i] (List.getElem?_eq_getElem within)
  have entry : (c.1, share) ∈ partsOf (·[i]?) columns := mem_partsOf.mpr ⟨c.2, member, found⟩
  exact Sharer.Consistent.lt_of_mem row entry

/-- Contributions that are coherent with a value mirror it. -/
theorem Coherent.mirrors {v : Value} : ∀ {cs : List Contribution}, m.Coherent v cs →
    ∀ c ∈ cs, m.Mirrors v c.2 := by
  induction v using ValueTree.induction with
  | publicLeaf leaf =>
    intro cs h c member
    unfold Coherent at h
    rw [h c member]
    exact .publicLeaf leaf
  | secretLeaf secret =>
    intro cs h c member
    cases secret with
    | scalar v =>
      unfold Coherent at h
      obtain ⟨shares, secret, rfl, consistent, -⟩ := h
      obtain ⟨share, there, same⟩ := mem_formed.mp member
      rw [same]
      exact .scalar v share (Sharer.Consistent.lt_of_mem consistent there)
    | blob bytes =>
      unfold Coherent at h
      obtain ⟨columns, rfl, coherent⟩ := h
      obtain ⟨shares, there, same⟩ := mem_formed.mp member
      rw [same]
      refine .blob bytes shares ?_ (coherent.lt_modulus there)
      rw [coherent.1 _ there, Bytes.length_chunks, Bytes.chunkCount_eq_ceilDiv]
  | array inner elements each =>
    intro cs h c member
    unfold Coherent at h
    obtain ⟨columns, rfl, shape, coherent⟩ := h
    obtain ⟨copies, there, same⟩ := mem_formed.mp member
    rw [same]
    refine .array inner elements copies (shape _ there).1 ?_
    intro i v copy found found'
    have entry : (c.1, copy) ∈ partsOf (·[i]?) columns := mem_partsOf.mpr ⟨copies, there, found'⟩
    exact each v (List.mem_of_getElem? found) (coherent.getElem? found) _ entry
  | tuple left right onLeft onRight =>
    intro cs h c member
    unfold Coherent at h
    obtain ⟨sides, rfl, hl, hr⟩ := h
    obtain ⟨s, there, same⟩ := mem_formed.mp member
    rw [same]
    exact .tuple left right s.1 s.2 (onLeft hl (c.1, s.1) (mem_formed.mpr ⟨s, there, rfl⟩))
      (onRight hr (c.1, s.2) (mem_formed.mpr ⟨s, there, rfl⟩))

/-! ## Bundles -/

section Bundles

variable {σ : Type} {S : Sampler σ} {s s' : σ} {values : NamedValues Value}
  {bundles : List (PartyId × Bundle)}

/-- Every bundle of a masking run holds mirrors of the values, under their names and in their
order. -/
theorem mirrors_of_mask (h : (m.mask S values).run s = (.ok bundles, s'))
    {e : PartyId × Bundle} (member : e ∈ bundles) :
    List.Forall₂ (fun entry held => entry.1 = held.1 ∧ m.Mirrors entry.2 held.2) values.toList
      e.2.toList := by
  obtain ⟨names, coherent⟩ := coherent_of_mask h (List.Subset.refl bundles)
  refine (forall₂_entries_iff values.nodup_names (R := fun _ v copy => m.Mirrors v copy)
    fun _ _ _ => Iff.rfl).mpr ⟨(names e member).symm, ?_⟩
  intro name v copy here there
  have part : (e.1, copy) ∈ partsOf (·.get? name) bundles :=
    mem_partsOf.mpr ⟨e.2, member, NamedValues.mem_toList_iff.mp there⟩
  exact (coherent name v (NamedValues.mem_toList_iff.mp here)).mirrors _ part

theorem exists_mirror (h : (m.mask S values).run s = (.ok bundles, s')) {e : PartyId × Bundle}
    (member : e ∈ bundles) {name : String} {v : Value} (named : values.get? name = some v) :
    ∃ copy, e.2.get? name = some copy ∧ m.Mirrors v copy := by
  obtain ⟨names, mirrors⟩ : values.names = e.2.names ∧ _ :=
    (forall₂_entries_iff values.nodup_names (R := fun _ v copy => m.Mirrors v copy)
      fun _ _ _ => Iff.rfl).mp (mirrors_of_mask h member)
  have carried : name ∈ values.names := NamedValues.exists_get?.mp ⟨v, named⟩
  obtain ⟨copy, found⟩ := NamedValues.exists_get?.mpr (names ▸ carried : name ∈ e.2.names)
  exact ⟨copy, found, mirrors name v copy (NamedValues.mem_toList_iff.mpr named)
    (NamedValues.mem_toList_iff.mpr found)⟩

/-- **Shape.** A successful masking run gives one bundle to each party of the roster, and zipping
columns of shares gives the same bundles. Each bundle carries the names of the collection in its
order, and what it holds under a name has, at every depth, the form and the type of what the
collection has there. -/
theorem mask_shape (h : (m.mask S values).run s = (.ok bundles, s')) :
    (Columnwise.mask m S values).run s = (.ok bundles, s') ∧
      bundles.map (·.1) = m.roster.parties ∧
      ∀ e ∈ bundles, e.2.names = values.names ∧
        ∀ name v, values.get? name = some v → ∃ copy, e.2.get? name = some copy ∧
          ∀ steps, Option.Rel (fun part held => m.Mirrors part held ∧ held.type = part.type)
            (v.follow? steps) (copy.follow? steps) := by
  refine ⟨?_, map_fst_of_mask h, fun e member => ⟨?_, ?_⟩⟩
  · rw [Columnwise.mask_eq, h]
  · exact (coherent_of_mask h (List.Subset.refl bundles)).1 e member
  · intro name v named
    obtain ⟨copy, found, mirrors⟩ := exists_mirror h member named
    exact ⟨copy, found, mirrors.follow?⟩

end Bundles

/-! ### Keys, blobs and public numbers -/

/-- The number as the 32 bytes of a private key. -/
def keyOfNat (n : Nat) : FixedBytes keySize := ⟨Bytes.ofNatBE keySize n, Bytes.length_ofNatBE _ n⟩

/-- A collection with a key of either kind, a blob of two chunks beside an empty one, and public
numbers. -/
def keyringValues : NamedValues Value := .ofList
  [("keys", .tuple (.secretLeaf (.scalar (.ecdsaPrivateKey (keyOfNat 5))))
      (.secretLeaf (.scalar (.eddsaPrivateKey (keyOfNat 6))))),
    ("notes", .array (.secretLeaf .blob)
      [.secretLeaf (.blob [1, 0, 0, 0, 0, 0, 0, 8]), .secretLeaf (.blob [])]),
    ("sizes", .array (.publicLeaf .integer)
      [.publicLeaf (.integer (-1)), .publicLeaf (.integer 2)])]

/-- What is dealt for the collection if the coefficients are 11, 13, 17 and 19. -/
def keyringDealings : List (String × Dealing) :=
  [("keys", .tuple (.secretLeaf (.scalar .ecdsaPrivateKey [5, 11]))
      (.secretLeaf (.scalar .eddsaPrivateKey [6, 13]))),
    ("notes", .array (.secretLeaf .blob)
      [.secretLeaf (.blob [[1, 17], [8, 19]] 8), .secretLeaf (.blob [] 0)]),
    ("sizes", .array (.publicLeaf .integer)
      [.publicLeaf (.integer (-1)), .publicLeaf (.integer 2)])]

theorem mask_keyringValues : (trio.mask Sampler.tape keyringValues).run [11, 13, 17, 19] =
    (.ok (formed (trio.bundleAt · keyringDealings) trio.roster.points), []) := by
  have dealt : @Eq (Except MaskError (List (String × Dealing)) × List Nat)
      ((trio.deal Sampler.tape keyringValues).run [11, 13, 17, 19]) (.ok keyringDealings, []) := by
    decide +kernel
  exact mask_of_deal dealt

theorem keyring_shape :
    (Columnwise.mask trio Sampler.tape keyringValues).run [11, 13, 17, 19] =
        (.ok (formed (trio.bundleAt · keyringDealings) trio.roster.points), []) ∧
      (formed (trio.bundleAt · keyringDealings) trio.roster.points).map (·.1) =
        trio.roster.parties ∧
      ∀ e ∈ formed (trio.bundleAt · keyringDealings) trio.roster.points,
        e.2.names = keyringValues.names ∧
          ∀ name v, keyringValues.get? name = some v → ∃ copy, e.2.get? name = some copy ∧
            ∀ steps, Option.Rel (fun part held => trio.Mirrors part held ∧ held.type = part.type)
              (v.follow? steps) (copy.follow? steps) :=
  mask_shape mask_keyringValues

end Masker
end ThresholdMask
