import Mathlib
import ThresholdMask.Proofs.Coherence
import ThresholdMask.Proofs.Verdict

/-!
# Unmasking accepts what is coherent

Unmasking a value succeeds exactly on contributions that are coherent with some value, and gives
this value, in whatever order shares are visited (`Masker.unmaskValue_eq_ok_iff`). The first
contribution leads the recursion of `unmaskValue`, while coherence recurses on the value; both come
to the same since a coherent value has the type of every contribution.
-/

namespace ThresholdMask

/-! ## Forms -/

section Forms

variable {v : MaskedValue}

theorem sameKind_scalar_iff {kind : ScalarKind} :
    v.type.sameKind (.secretLeaf (.scalar kind)) = true ↔
      ∃ y, v = .secretLeaf (.scalar kind y) := by
  rcases v with leaf | ⟨k, y⟩ | elements | sides <;>
    simp [ValueTree.type, SecretLeaf.kind, ValueType.sameKind]

theorem sameKind_blob_iff :
    v.type.sameKind (.secretLeaf .blob) = true ↔ ∃ b, v = .secretLeaf (.blob b) := by
  rcases v with leaf | ⟨k, y⟩ | elements | sides <;>
    simp [ValueTree.type, SecretLeaf.kind, ValueType.sameKind]

theorem sameKind_tuple_iff {l r : ValueType} :
    v.type.sameKind (.tuple l r) = true ↔
      ∃ s : MaskedValue × MaskedValue, v = .tuple s.1 s.2 := by
  rcases v with leaf | ⟨k, y⟩ | elements | sides <;> simp [ValueTree.type, ValueType.sameKind]

/-- What contributions of one form have in it. -/
theorem partsOf_scalars {kind : ScalarKind} (shares : List (PartyId × Nat)) :
    partsOf (MaskedValue.scalarShare? kind)
      (formed (fun y => .secretLeaf (.scalar kind y)) shares) = shares := by
  apply partsOf_formed_self
  intro y
  exact if_pos rfl

theorem partsOf_blobs (blobs : List (PartyId × BlobShares)) :
    partsOf MaskedValue.blobShares? (formed (fun b => .secretLeaf (.blob b)) blobs) = blobs := by
  apply partsOf_formed_self
  intro b
  rfl

theorem partsOf_columns (inner : ValueType) (columns : List (PartyId × List MaskedValue)) :
    partsOf Masker.elements? (formed (.array inner) columns) = columns := by
  apply partsOf_formed_self
  intro elements
  rfl

theorem partsOf_lefts (sides : List (PartyId × MaskedValue × MaskedValue)) :
    partsOf MaskedValue.left? (formed (fun s => .tuple s.1 s.2) sides) = formed Prod.fst sides := by
  apply partsOf_formed
  intro s
  rfl

theorem partsOf_rights (sides : List (PartyId × MaskedValue × MaskedValue)) :
    partsOf MaskedValue.right? (formed (fun s => .tuple s.1 s.2) sides) = formed Prod.snd sides := by
  apply partsOf_formed
  intro s
  rfl

end Forms

section Checks

variable {path : Path} {others : List Contribution}

theorem checkKinds_eq_ok {expected : ValueType} :
    checkKinds path expected others = .ok () ↔
      ∀ c ∈ others, c.2.type.sameKind expected = true := by
  rw [checkKinds, eachContribution_eq_ok]
  simp only [ite_error_eq_ok, and_true]

theorem checkKinds_scalar_eq_ok {kind : ScalarKind} :
    checkKinds path (.secretLeaf (.scalar kind)) others = .ok () ↔
      ∃ shares, others = formed (fun y => .secretLeaf (.scalar kind y)) shares := by
  rw [checkKinds_eq_ok, exists_formed]
  simp only [sameKind_scalar_iff]

theorem checkKinds_blob_eq_ok :
    checkKinds path (.secretLeaf .blob) others = .ok () ↔
      ∃ blobs, others = formed (fun b => .secretLeaf (.blob b)) blobs := by
  rw [checkKinds_eq_ok, exists_formed]
  simp only [sameKind_blob_iff]

theorem checkKinds_tuple_eq_ok {l r : ValueType} :
    checkKinds path (.tuple l r) others = .ok () ↔
      ∃ sides : List (PartyId × MaskedValue × MaskedValue),
        others = formed (fun s => .tuple s.1 s.2) sides := by
  rw [checkKinds_eq_ok, exists_formed]
  simp only [sameKind_tuple_iff]

namespace Masker

theorem checkPublic_eq_ok {leaf : PublicLeaf} :
    checkPublic path leaf others = .ok () ↔ ∀ c ∈ others, c.2 = .publicLeaf leaf := by
  rw [checkPublic, eachContribution_eq_ok]
  simp only [ite_error_eq_ok, and_true]

theorem checkElements_eq_ok {p : PartyId} {inner : ValueType} {elements : List MaskedValue} :
    checkElements path p inner elements = .ok () ↔ ∀ e ∈ elements, e.type = inner := by
  unfold checkElements
  cases found : elements.find? (·.type ≠ inner) with
  | none => simpa using found
  | some e =>
    have member := List.mem_of_find?_eq_some found
    have differ : e.type ≠ inner := by simpa using List.find?_some found
    simp only [reduceCtorEq, false_iff]
    exact fun each => differ (each e member)

theorem checkColumn_eq_ok {p : PartyId} {inner : ValueType} {length : Nat} {v : MaskedValue} :
    checkColumn path inner length p v = .ok () ↔
      ∃ elements, v = .array inner elements ∧ elements.length = length ∧
        ∀ e ∈ elements, e.type = inner := by
  cases v with
  | array declared elements =>
    rw [checkColumn, ite_error_eq_ok, checkElements_eq_ok]
    constructor
    · rintro ⟨⟨rfl, length⟩, types⟩
      exact ⟨elements, rfl, length, types⟩
    · rintro ⟨elements', same, length, types⟩
      obtain ⟨rfl, rfl⟩ := ValueTree.array.inj same
      exact ⟨⟨rfl, length⟩, types⟩
  | _ => simp [checkColumn]

/-- The other columns have the shape of the first if they pass the check. -/
theorem checkColumns_eq_ok {inner : ValueType} {length : Nat} :
    eachContribution (checkColumn path inner length) others = .ok () ↔
      ∃ columns, others = formed (.array inner) columns ∧
        ∀ c ∈ columns, c.2.length = length ∧ ∀ e ∈ c.2, e.type = inner := by
  rw [eachContribution_eq_ok]
  simp only [checkColumn_eq_ok]
  constructor
  · intro each
    obtain ⟨columns, rfl⟩ := (exists_formed (.array inner)).mpr fun c member =>
      (each c member).imp fun elements h => h.1
    refine ⟨columns, rfl, ?_⟩
    intro c member
    obtain ⟨elements, same, shape⟩ := each _ (List.mem_map_of_mem member)
    rwa [← (ValueTree.array.inj same).2] at shape
  · rintro ⟨columns, rfl, shape⟩ c member
    obtain ⟨elements, there, same⟩ := mem_formed.mp member
    exact ⟨elements, same, shape _ there⟩

end Masker
end Checks

namespace Masker

variable {m : Masker} {visit : VisitOrder} {path : Path}

/-! ## Secret leaves -/

theorem reconstructAt_eq_ok (fits : m.RosterFits) (kind : ScalarKind)
    {shares : List (PartyId × Nat)} (enough : m.Enough shares) {position secret : Nat} :
    m.reconstructAt visit path position (m.fieldOf kind) shares = .ok secret ↔
      (m.sharer (m.fieldOf kind)).Consistent shares secret := by
  rw [reconstructAt, mapError_eq_ok, Sharer.reconstruct_eq_ok_iff_of_perm (visit.perm_arrange ..)]
  exact Sharer.reconstruct_ofList_eq_ok_iff (s := m.sharer (m.fieldOf kind)) (fits kind) enough

theorem unmaskScalar_eq_ok (fits : m.RosterFits) {kind : ScalarKind}
    {shares : List (PartyId × Nat)} (enough : m.Enough shares) {v : SecretScalar} :
    m.unmaskScalar visit path kind shares = .ok v ↔ v.kind = kind ∧ ∃ secret,
      (m.sharer (m.fieldOf kind)).Consistent shares secret ∧
        v.DecodedFrom (m.fieldOf kind) secret := by
  rw [unmaskScalar, bind_eq_ok]
  simp only [reconstructAt_eq_ok fits kind enough]
  constructor
  · rintro ⟨secret, consistent, decoded⟩
    rw [decodeScalarAt_eq_ok_iff (m.odd_fieldOf kind) consistent.lt] at decoded
    exact ⟨decoded.1, secret, consistent, decoded.2⟩
  · rintro ⟨sameKind, secret, consistent, decoded⟩
    refine ⟨secret, consistent, ?_⟩
    rw [decodeScalarAt_eq_ok_iff (m.odd_fieldOf kind) consistent.lt]
    exact ⟨sameKind, decoded⟩

theorem unmaskChunk_eq_ok (fits : m.RosterFits) {size i : Nat}
    {blobs : List (PartyId × BlobShares)} (enough : m.Enough blobs)
    (whole : ∀ c ∈ blobs, i < c.2.chunks.length) {chunk : Bytes} :
    m.unmaskChunk visit path size blobs i = .ok chunk ↔
      chunk.length = min m.chunkSize (size - m.chunkSize * i) ∧
        (m.sharer m.field).Consistent (partsOf (·.chunks[i]?) blobs) chunk.toNatLE := by
  have parts : m.Enough (partsOf (·.chunks[i]?) blobs) := enough.partsOf fun c member =>
    Option.isSome_iff_exists.mpr ⟨_, List.getElem?_eq_getElem (whole c member)⟩
  have opened : ∀ secret, m.reconstructAt visit path i m.field _ = .ok secret ↔ _ := fun _ =>
    reconstructAt_eq_ok fits .integer parts
  rw [unmaskChunk, bind_eq_ok]
  simp only [mapError_eq_ok, PrimeField.decodeChunk_eq_ok]
  constructor
  · rintro ⟨secret, reconstructed, length, rfl⟩
    exact ⟨length, (opened _).mp reconstructed⟩
  · rintro ⟨length, consistent⟩
    exact ⟨_, (opened _).mpr consistent, length, rfl⟩

theorem forall₂_range_iff {α : Type} {R : Nat → α → Prop} {n : Nat} {l : List α} :
    List.Forall₂ R (List.range n) l ↔ l.length = n ∧ ∀ i a, l[i]? = some a → R i a := by
  rw [List.forall₂_iff_get]
  simp only [List.length_range, List.get_eq_getElem, List.getElem_range]
  constructor
  · rintro ⟨rfl, each⟩
    refine ⟨rfl, ?_⟩
    intro i a found
    obtain ⟨inside, rfl⟩ := List.getElem?_eq_some_iff.mp found
    exact each i inside inside
  · rintro ⟨rfl, each⟩
    exact ⟨rfl, fun i _ inside => each i _ (List.getElem?_eq_getElem inside)⟩

/-- Blobs that agree with the first have as many chunks as it has. -/
theorem length_chunks_of_agree (p : PartyId) {first : BlobShares}
    {others : List (PartyId × BlobShares)} {count : Nat} (own : first.chunks.length = count)
    {u : Unit} (agree : eachContribution (fun p b =>
      if b.chunks.length = first.chunks.length ∧ b.byteLength = first.byteLength then .ok ()
      else .error (.typeMismatch path p (formOf first) (formOf b))) others = .ok u) :
    ∀ c ∈ (p, first) :: others, c.2.chunks.length = count := by
  have like := eachContribution_eq_ok.mp agree
  rw [List.forall_mem_cons, ← own]
  exact ⟨rfl, fun c member => (ite_error_eq_ok.mp (like c member)).1.1⟩

/-- The checks of `unmaskBlob` and the chunks that it rebuilds. -/
theorem unmaskBlob_eq_ok_iff_chunks {p : PartyId} {first : BlobShares}
    {others : List (PartyId × BlobShares)} {bytes : Bytes} :
    m.unmaskBlob visit path p first others = .ok bytes ↔
      first.chunks.length = Bytes.chunkCount first.byteLength m.chunkSize ∧
        (∀ c ∈ others, c.2.chunks.length = first.chunks.length ∧
          c.2.byteLength = first.byteLength) ∧
        ∃ chunks : List Bytes,
          (chunks.length = Bytes.chunkCount first.byteLength m.chunkSize ∧
            ∀ i chunk, chunks[i]? = some chunk →
              m.unmaskChunk visit path first.byteLength ((p, first) :: others) i = .ok chunk) ∧
          chunks.flatten = bytes := by
  unfold unmaskBlob
  dsimp only
  rw [throw_ite_eq_ok, not_not, check_bind_eq_ok, eachContribution_eq_ok, bind_eq_ok]
  simp only [ite_error_eq_ok, and_true, pure_eq_ok, mapM_eq_ok, forall₂_range_iff]

/-- A blob that is unmasked has the chunks that the columns stand for. -/
theorem coherentChunks_of_unmaskBlob (fits : m.RosterFits) {p : PartyId} {first : BlobShares}
    {others : List (PartyId × BlobShares)} (enough : m.Enough ((p, first) :: others))
    {bytes : Bytes} (h : m.unmaskBlob visit path p first others = .ok bytes) :
    ∃ columns, (p, first) :: others = formed (BlobShares.mk · bytes.length) columns ∧
      m.CoherentChunks (bytes.chunks m.chunkSize) columns := by
  obtain ⟨count, agree, chunks, ⟨number, rebuilt⟩, rfl⟩ := unmaskBlob_eq_ok_iff_chunks.mp h
  have shape : ∀ c ∈ (p, first) :: others, c.2.chunks.length = chunks.length ∧
      c.2.byteLength = first.byteLength := by
    rw [List.forall_mem_cons, number, ← count]
    exact ⟨⟨rfl, rfl⟩, agree⟩
  have opened : ∀ i (chunk : Bytes), chunks[i]? = some chunk →
      chunk.length = min m.chunkSize (first.byteLength - m.chunkSize * i) ∧
        (m.sharer m.field).Consistent (partsOf (·.chunks[i]?) ((p, first) :: others))
          chunk.toNatLE := by
    intro i chunk found
    obtain ⟨inside, -⟩ := List.getElem?_eq_some_iff.mp found
    rw [← unmaskChunk_eq_ok fits enough fun c member => (shape c member).1 ▸ inside]
    exact rebuilt i chunk found
  -- the lengths that the chunks were decoded with make them the chunks of what they make up
  obtain ⟨total, cut⟩ := Bytes.chunks_flatten m.chunkSize_pos number fun i chunk found =>
    (opened i chunk found).1
  obtain ⟨columns, same⟩ := (exists_formed (BlobShares.mk · first.byteLength)).mpr
    fun c member => ⟨c.2.chunks, by rw [← (shape c member).2]⟩
  rw [same] at shape opened
  rw [total, cut]
  refine ⟨columns, same, fun c member => (shape _ (List.mem_map_of_mem member)).1, ?_⟩
  intro i chunk found
  have consistent := (opened i chunk found).2
  rwa [partsOf_comp] at consistent

theorem unmaskBlob_of_coherentChunks (fits : m.RosterFits) {p : PartyId} {first : BlobShares}
    {others : List (PartyId × BlobShares)} (enough : m.Enough ((p, first) :: others))
    {bytes : Bytes} {columns : List (PartyId × List Nat)}
    (same : (p, first) :: others = formed (BlobShares.mk · bytes.length) columns)
    (coherent : m.CoherentChunks (bytes.chunks m.chunkSize) columns) :
    m.unmaskBlob visit path p first others = .ok bytes := by
  obtain ⟨lengths, consistent⟩ := coherent
  have shape : ∀ c ∈ (p, first) :: others,
      c.2.chunks.length = Bytes.chunkCount bytes.length m.chunkSize ∧
        c.2.byteLength = bytes.length := by
    rw [same]
    intro c member
    obtain ⟨column, there, form⟩ := mem_formed.mp member
    rw [form, ← Bytes.length_chunks]
    exact ⟨lengths _ there, rfl⟩
  obtain ⟨count, size⟩ := shape (p, first) List.mem_cons_self
  have rebuilt : ∀ i chunk, (bytes.chunks m.chunkSize)[i]? = some chunk →
      m.unmaskChunk visit path first.byteLength ((p, first) :: others) i = .ok chunk := by
    intro i chunk found
    obtain ⟨inside, -⟩ := List.getElem?_eq_some_iff.mp found
    rw [Bytes.length_chunks] at inside
    rw [unmaskChunk_eq_ok fits enough fun c member => (shape c member).1 ▸ inside, size, same,
      partsOf_comp]
    exact ⟨Bytes.length_of_getElem?_chunks found, consistent i chunk found⟩
  refine unmaskBlob_eq_ok_iff_chunks.mpr ⟨?_, ?_, bytes.chunks m.chunkSize, ⟨?_, rebuilt⟩,
    Bytes.flatten_chunks m.chunkSize_pos bytes⟩
  · rw [count, size]
  · intro c member
    rw [count, size]
    exact shape c (List.mem_cons_of_mem _ member)
  · rw [size, Bytes.length_chunks]

theorem unmaskBlob_eq_ok (fits : m.RosterFits) {p : PartyId} {first : BlobShares}
    {others : List (PartyId × BlobShares)} (enough : m.Enough ((p, first) :: others))
    {bytes : Bytes} :
    m.unmaskBlob visit path p first others = .ok bytes ↔ ∃ columns,
      (p, first) :: others = formed (BlobShares.mk · bytes.length) columns ∧
        m.CoherentChunks (bytes.chunks m.chunkSize) columns := by
  constructor
  · exact coherentChunks_of_unmaskBlob fits enough
  · rintro ⟨columns, same, coherent⟩
    exact unmaskBlob_of_coherentChunks fits enough same coherent

/-! ## Arrays -/

/-- The elements are rebuilt one by one if each is. -/
theorem unmaskElements_eq_ok {p : PartyId} {elements : List MaskedValue}
    (each : ∀ e ∈ elements, ∀ {path others v}, m.Enough ((p, e) :: others) →
      (m.unmaskValue visit path p e others = .ok v ↔ m.Coherent v ((p, e) :: others)))
    {start : Nat} {columns : List (PartyId × List MaskedValue)}
    (enough : m.Enough ((p, elements) :: columns))
    (shape : ∀ c ∈ columns, c.2.length = elements.length) {vs : List Value} :
    m.unmaskElements visit path p start elements columns = .ok vs ↔
      vs.length = elements.length ∧ m.CoherentElements vs ((p, elements) :: columns) := by
  induction elements generalizing start columns vs with
  | nil =>
    rw [unmaskElements, pure_eq_ok, List.length_nil, List.length_eq_zero_iff]
    constructor
    · rintro rfl
      exact ⟨rfl, trivial⟩
    · rintro ⟨rfl, -⟩
      rfl
  | cons e rest ih =>
    rw [List.forall_mem_cons] at each
    have whole : ∀ c ∈ (p, e :: rest) :: columns, c.2.length = rest.length + 1 := by
      rw [List.forall_mem_cons]
      exact ⟨rfl, shape⟩
    -- no party is lost on the way to the first row, or to the other ones
    have heads := enough.partsOf (isSome_head?_of_length whole)
    have tails : m.Enough ((p, rest) :: formed List.tail columns) :=
      (enough.formed : m.Enough (formed List.tail _))
    have shorter : ∀ c ∈ formed List.tail columns, c.2.length = rest.length :=
      length_tail_of_length shape
    have first : ∀ path v, m.unmaskValue visit path p e _ = .ok v ↔ _ := fun _ _ => each.1 heads
    have others : ∀ start vs, m.unmaskElements visit path p start rest _ = .ok vs ↔ _ := fun _ _ =>
      ih each.2 tails shorter
    rw [unmaskElements, bind_eq_ok]
    simp only [bind_eq_ok, pure_eq_ok]
    constructor
    · rintro ⟨v, rebuilt, vs', rebuilt', rfl⟩
      obtain ⟨length, coherent⟩ := (others _ _).mp rebuilt'
      exact ⟨by rw [List.length_cons, length, List.length_cons],
        (first _ _).mp rebuilt, coherent⟩
    · rintro ⟨length, coherent⟩
      cases vs with
      | nil => cases length
      | cons v vs' =>
        exact ⟨v, (first _ _).mpr coherent.1, vs',
          (others _ _).mpr ⟨Nat.succ.inj length, coherent.2⟩, rfl⟩

/-- The elements of an array one by one, each with the entries of the other columns at its index. -/
theorem unmaskElements_eq_mapM (p : PartyId) (elements : List MaskedValue) :
    ∀ (start : Nat) (columns : List (PartyId × List MaskedValue)),
      m.unmaskElements visit path p start elements columns =
        (List.finRange elements.length).mapM fun i : Fin elements.length =>
          m.unmaskValue visit (path.index (start + i)) p elements[i]
            (partsOf (fun column => column[i.val]?) columns) := by
  induction elements with
  | nil =>
    intro start columns
    rw [unmaskElements]
    rfl
  | cons e rest ih =>
    intro start columns
    have others := ih (start + 1) (formed List.tail columns)
    simp only [partsOf_tail, Nat.add_assoc, Nat.add_comm 1] at others
    rw [unmaskElements, partsOf_head?]
    show (m.unmaskValue visit (path.index start) p e _ >>= fun v =>
      m.unmaskElements visit path p (start + 1) rest (formed List.tail columns) >>= fun vs =>
        pure (v :: vs)) = (List.finRange (rest.length + 1)).mapM _
    rw [others, List.finRange_succ, List.mapM_cons, List.mapM_map]
    rfl

/-! ## Values -/

theorem unmaskValue_publicLeaf_eq_ok {p : PartyId} {leaf : PublicLeaf}
    {others : List Contribution} {v : Value} :
    m.unmaskValue visit path p (.publicLeaf leaf) others = .ok v ↔
      m.Coherent v ((p, .publicLeaf leaf) :: others) := by
  rw [unmaskValue, check_bind_eq_ok, check_bind_eq_ok, checkKinds_eq_ok, checkPublic_eq_ok,
    pure_eq_ok]
  constructor
  · rintro ⟨-, each, rfl⟩
    rw [Coherent, List.forall_mem_cons]
    exact ⟨rfl, each⟩
  · intro h
    have types := h.type_eq _ List.mem_cons_self
    cases v with
    | publicLeaf leaf' =>
      rw [Coherent, List.forall_mem_cons] at h
      obtain ⟨same, each⟩ := h
      obtain rfl : leaf = leaf' := ValueTree.publicLeaf.inj same
      refine ⟨?_, each, rfl⟩
      intro c member
      rw [each c member]
      exact ValueType.sameKind_refl _
    | _ => cases types

theorem unmaskValue_scalar_eq_ok (fits : m.RosterFits) {p : PartyId} {kind : ScalarKind}
    {y : Nat} {others : List Contribution}
    (enough : m.Enough ((p, .secretLeaf (.scalar kind y)) :: others)) {v : Value} :
    m.unmaskValue visit path p (.secretLeaf (.scalar kind y)) others = .ok v ↔
      m.Coherent v ((p, .secretLeaf (.scalar kind y)) :: others) := by
  -- the contributions that pass `checkKinds` are those of this form
  let form (y : Nat) : MaskedValue := .secretLeaf (.scalar kind y)
  have injective : form.Injective := fun y z h => by simpa [form] using h
  have inverse : ∀ y, MaskedValue.scalarShare? kind (form y) = some y := fun y => if_pos rfl
  have opened {shares : List (PartyId × Nat)} (same : others = formed form shares)
      {w : SecretScalar} :
      m.unmaskScalar visit path kind
          ((p, y) :: partsOf (MaskedValue.scalarShare? kind) others) = .ok w ↔
        w.kind = kind ∧ ∃ secret, (m.sharer (m.fieldOf kind)).Consistent ((p, y) :: shares) secret ∧
          w.DecodedFrom (m.fieldOf kind) secret := by
    rw [same] at enough ⊢
    rw [partsOf_formed_self inverse]
    exact unmaskScalar_eq_ok fits (enough : m.Enough (formed form ((p, y) :: shares))).of_formed
  rw [unmaskValue, check_bind_eq_ok, checkKinds_scalar_eq_ok, bind_eq_ok]
  simp only [pure_eq_ok]
  constructor
  · rintro ⟨⟨shares, same⟩, w, rebuilt, rfl⟩
    obtain ⟨rfl, secret, consistent, decoded⟩ := (opened same).mp rebuilt
    rw [Coherent, same]
    exact ⟨(p, y) :: shares, secret, rfl, consistent, decoded⟩
  · intro h
    have types := h.type_eq _ List.mem_cons_self
    cases v with
    | secretLeaf leaf =>
      cases leaf with
      | scalar w =>
        unfold Coherent at h
        obtain ⟨shares, secret, same, consistent, decoded⟩ := h
        -- the kind of the leaf is that of the share, by their types
        cases types
        obtain ⟨rest, rfl, tail⟩ := eq_formed_of_cons_eq injective same
        exact ⟨⟨rest, tail⟩, w, (opened tail).mpr ⟨rfl, secret, consistent, decoded⟩, rfl⟩
      | blob bytes => cases types
    | _ => cases types

theorem unmaskValue_blob_eq_ok (fits : m.RosterFits) {p : PartyId} {blob : BlobShares}
    {others : List Contribution} (enough : m.Enough ((p, .secretLeaf (.blob blob)) :: others))
    {v : Value} :
    m.unmaskValue visit path p (.secretLeaf (.blob blob)) others = .ok v ↔
      m.Coherent v ((p, .secretLeaf (.blob blob)) :: others) := by
  let form (b : BlobShares) : MaskedValue := .secretLeaf (.blob b)
  have injective : form.Injective := fun b c h => by simpa [form] using h
  have inverse : ∀ b, MaskedValue.blobShares? (form b) = some b := fun _ => rfl
  have opened {blobs : List (PartyId × BlobShares)} (same : others = formed form blobs)
      {bytes : Bytes} :
      m.unmaskBlob visit path p blob (partsOf MaskedValue.blobShares? others) = .ok bytes ↔
        m.Coherent (.secretLeaf (.blob bytes)) ((p, form blob) :: others) := by
    rw [same] at enough ⊢
    rw [partsOf_formed_self inverse, Coherent,
      unmaskBlob_eq_ok fits (enough : m.Enough (formed form ((p, blob) :: blobs))).of_formed]
    refine exists_congr fun columns => and_congr_left fun _ => ?_
    -- coherence speaks of columns of chunks, unmasking of blobs: one form is in the other
    rw [← formed_cons form (p, blob), ← formed_comp (BlobShares.mk · bytes.length) form,
      (formed_injective injective).eq_iff]
  rw [unmaskValue, check_bind_eq_ok, checkKinds_blob_eq_ok, bind_eq_ok]
  simp only [pure_eq_ok]
  constructor
  · rintro ⟨⟨blobs, same⟩, bytes, rebuilt, rfl⟩
    exact (opened same).mp rebuilt
  · intro h
    have types := h.type_eq _ List.mem_cons_self
    cases v with
    | secretLeaf leaf =>
      cases leaf with
      | scalar w => cases types
      | blob bytes =>
        have forms := h
        unfold Coherent at forms
        obtain ⟨columns, same, -⟩ := forms
        obtain ⟨blobs, others⟩ := (exists_formed form).mpr fun c member => by
          have there := same ▸ List.mem_cons_of_mem (p, form blob) member
          obtain ⟨chunks, -, here⟩ := mem_formed.mp there
          exact ⟨_, here⟩
        exact ⟨⟨blobs, others⟩, bytes, (opened others).mpr h, rfl⟩
    | _ => cases types

theorem unmaskValue_array_eq_ok {p : PartyId} {inner : ValueType} {elements : List MaskedValue}
    (each : ∀ e ∈ elements, ∀ {path others v}, m.Enough ((p, e) :: others) →
      (m.unmaskValue visit path p e others = .ok v ↔ m.Coherent v ((p, e) :: others)))
    {others : List Contribution} (enough : m.Enough ((p, .array inner elements) :: others))
    {v : Value} :
    m.unmaskValue visit path p (.array inner elements) others = .ok v ↔
      m.Coherent v ((p, .array inner elements) :: others) := by
  let form (elements : List MaskedValue) : MaskedValue := .array inner elements
  have injective : form.Injective := fun a b h => (ValueTree.array.inj h).2
  have inverse : ∀ elements, elements? (form elements) = some elements := fun _ => rfl
  have opened {columns : List (PartyId × List MaskedValue)}
      (same : others = formed form columns)
      (shape : ∀ c ∈ columns, c.2.length = elements.length) {vs : List Value} :
      m.unmaskElements visit path p 0 elements (partsOf elements? others) = .ok vs ↔
        vs.length = elements.length ∧ m.CoherentElements vs ((p, elements) :: columns) := by
    rw [same] at enough ⊢
    rw [partsOf_formed_self inverse]
    exact unmaskElements_eq_ok each
      (enough : m.Enough (formed form ((p, elements) :: columns))).of_formed shape
  rw [unmaskValue, check_bind_eq_ok, checkKinds_eq_ok, check_bind_eq_ok, checkElements_eq_ok,
    check_bind_eq_ok, checkColumns_eq_ok, bind_eq_ok]
  simp only [pure_eq_ok]
  constructor
  · rintro ⟨-, types, ⟨columns, same, shape⟩, vs, rebuilt, rfl⟩
    obtain ⟨length, coherent⟩ := (opened same fun c member => (shape c member).1).mp rebuilt
    rw [Coherent, same]
    refine ⟨(p, elements) :: columns, rfl, ?_, coherent⟩
    rw [List.forall_mem_cons, length]
    exact ⟨⟨rfl, types⟩, shape⟩
  · intro h
    have kinds := h.type_eq
    have types := kinds _ List.mem_cons_self
    cases v with
    | array inner' vs =>
      obtain ⟨rfl, length⟩ := ValueType.array.inj types
      unfold Coherent at h
      obtain ⟨columns, same, shape, coherent⟩ := h
      obtain ⟨rest, rfl, tail⟩ := eq_formed_of_cons_eq injective same
      rw [List.forall_mem_cons, ← length] at shape
      refine ⟨?_, shape.1.2, ⟨rest, tail, shape.2⟩, vs,
        (opened tail fun c member => (shape.2 c member).1).mpr ⟨length.symm, coherent⟩, rfl⟩
      intro c member
      rw [kinds c (List.mem_cons_of_mem _ member)]
      rfl
    | _ => cases types

theorem unmaskValue_tuple_eq_ok {p : PartyId} {left right : MaskedValue}
    (onLeft : ∀ {path others v}, m.Enough ((p, left) :: others) →
      (m.unmaskValue visit path p left others = .ok v ↔ m.Coherent v ((p, left) :: others)))
    (onRight : ∀ {path others v}, m.Enough ((p, right) :: others) →
      (m.unmaskValue visit path p right others = .ok v ↔ m.Coherent v ((p, right) :: others)))
    {others : List Contribution} (enough : m.Enough ((p, .tuple left right) :: others))
    {v : Value} :
    m.unmaskValue visit path p (.tuple left right) others = .ok v ↔
      m.Coherent v ((p, .tuple left right) :: others) := by
  let form (s : MaskedValue × MaskedValue) : MaskedValue := .tuple s.1 s.2
  have injective : form.Injective := fun a b h =>
    Prod.ext (ValueTree.tuple.inj h).1 (ValueTree.tuple.inj h).2
  have lefts : ∀ s, MaskedValue.left? (form s) = some s.1 := fun _ => rfl
  have rights : ∀ s, MaskedValue.right? (form s) = some s.2 := fun _ => rfl
  have sides {rest : List (PartyId × MaskedValue × MaskedValue)}
      (same : others = formed form rest) :
      (∀ {path l}, m.unmaskValue visit path p left (partsOf MaskedValue.left? others) = .ok l ↔
        m.Coherent l (formed Prod.fst ((p, left, right) :: rest))) ∧
      (∀ {path r}, m.unmaskValue visit path p right (partsOf MaskedValue.right? others) = .ok r ↔
        m.Coherent r (formed Prod.snd ((p, left, right) :: rest))) := by
    rw [same] at enough ⊢
    have whole : m.Enough (formed form ((p, left, right) :: rest)) := enough
    have onFst : m.Enough (formed Prod.fst ((p, left, right) :: rest)) := whole.of_formed.formed
    have onSnd : m.Enough (formed Prod.snd ((p, left, right) :: rest)) := whole.of_formed.formed
    rw [partsOf_formed lefts, partsOf_formed rights]
    exact ⟨onLeft onFst, onRight onSnd⟩
  rw [unmaskValue, check_bind_eq_ok, checkKinds_tuple_eq_ok, bind_eq_ok]
  simp only [bind_eq_ok, pure_eq_ok]
  constructor
  · rintro ⟨⟨rest, same⟩, l, onL, r, onR, rfl⟩
    rw [Coherent, same]
    exact ⟨(p, left, right) :: rest, rfl, (sides same).1.mp onL, (sides same).2.mp onR⟩
  · intro h
    have types := h.type_eq _ List.mem_cons_self
    cases v with
    | tuple l r =>
      unfold Coherent at h
      obtain ⟨all, same, onL, onR⟩ := h
      obtain ⟨rest, rfl, tail⟩ := eq_formed_of_cons_eq injective (a := (left, right)) same
      exact ⟨⟨rest, tail⟩, l, (sides tail).1.mpr onL, r, (sides tail).2.mpr onR, rfl⟩
    | _ => cases types

/-- **Acceptance of a value.** The contributions of enough parties are unmasked to a value exactly if
they are coherent with it. -/
theorem unmaskValue_eq_ok_iff (fits : m.RosterFits) {p : PartyId} {first : MaskedValue} :
    ∀ {path others v}, m.Enough ((p, first) :: others) →
      (m.unmaskValue visit path p first others = .ok v ↔ m.Coherent v ((p, first) :: others)) := by
  induction first using ValueTree.induction with
  | publicLeaf leaf =>
    intro path others v _
    exact unmaskValue_publicLeaf_eq_ok
  | secretLeaf share =>
    intro path others v enough
    cases share with
    | scalar kind y => exact unmaskValue_scalar_eq_ok fits enough
    | blob blob => exact unmaskValue_blob_eq_ok fits enough
  | array inner elements each =>
    intro path others v enough
    exact unmaskValue_array_eq_ok each enough
  | tuple left right onLeft onRight =>
    intro path others v enough
    exact unmaskValue_tuple_eq_ok onLeft onRight enough

end Masker
end ThresholdMask
