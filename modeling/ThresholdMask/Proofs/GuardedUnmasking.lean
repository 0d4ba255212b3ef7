import Mathlib
import ThresholdMask.Proofs.Guards
import ThresholdMask.Proofs.Opening

/-!
# Unmasking with guarded accesses

Unmasking written once more with all of its accesses guarded: reading the first bundle and the first
contribution, the share of a chunk and the entry of a column by index, and taking the bytes of a
blob that are rebuilt from its length.

On every jar, whatever its bundles hold, the guarded program gives the answer of `Masker.unmask`
(`Guarded.unmask_eq_answer`), so that no access is out of range. What keeps the accesses in range is
set up in other places: a check of the kinds leaves contributions of one form, a check of the
columns leaves columns of one length, and the bytes of a blob rebuilt so far fill all the chunks
before the one that comes next.
-/

namespace ThresholdMask

namespace Guarded

variable {m : Masker} {visit : VisitOrder} {path : Path}

/-! ## Secret leaves -/

/-- Reconstruct the shares at a path, for a blob those of the chunk at a position. -/
def reconstructAt (m : Masker) (visit : VisitOrder) (path : Path) (position : Nat) (F : PrimeField)
    (shares : List (PartyId × Nat)) : Guarded UnmaskError Nat :=
  let visited := visit.arrange path position (PartyShares.ofList shares)
  mapFailure (UnmaskError.ofReconstruct path) (reconstruct (m.sharer F) visited)

/-- The share that a party contributes in place of a value of the expected type. -/
def shareOf (path : Path) (expected : ValueType) (share : MaskedValue → Option Nat)
    (c : Contribution) : Guarded UnmaskError (PartyId × Nat) :=
  match share c.2 with
  | some y => .ok (c.1, y)
  | none => fail (mismatch path c.1 expected c.2.type)

/-- Collect the shares of contributions that must be of the first one's type. -/
def gather (path : Path) (share : MaskedValue → Option Nat) (contributions : List Contribution) :
    Guarded UnmaskError (List (PartyId × Nat)) := do
  let first ← readAt contributions 0
  contributions.mapM (shareOf path first.2.type share)

/-- Rebuild a scalar. -/
def unmaskScalar (m : Masker) (visit : VisitOrder) (path : Path) (kind : ScalarKind)
    (contributions : List Contribution) : Guarded UnmaskError SecretScalar := do
  let shares ← gather path (MaskedValue.scalarShare? kind) contributions
  let secret ← reconstructAt m visit path 0 (m.fieldOf kind) shares
  decodeScalarAt (m.fieldOf kind) path kind secret

/-- The blob that a party contributes, which must be like the first one. -/
def blobOf (path : Path) (first : BlobShares) (c : Contribution) :
    Guarded UnmaskError (PartyId × BlobShares) :=
  match c.2 with
  | .secretLeaf (.blob b) =>
    if b.chunks.length = first.chunks.length ∧ b.byteLength = first.byteLength then .ok (c.1, b)
    else fail (.typeMismatch path c.1 (Masker.formOf first) (Masker.formOf b))
  | other => fail (mismatch path c.1 (.secretLeaf .blob) other.type)

/-- Rebuild a chunk of a blob and put it behind the bytes rebuilt so far. -/
def nextChunk (m : Masker) (visit : VisitOrder) (path : Path) (total size : Nat)
    (blobs : List (PartyId × BlobShares)) (bytes : Bytes) (position : Nat) :
    Guarded UnmaskError Bytes := do
  let shares ← rowAt (formed BlobShares.chunks blobs) position
  let secret ← reconstructAt m visit path position m.field shares
  let room ← subtract total bytes.length
  let chunk ← answer ((m.field.decodeChunk secret (min size room)).mapError (.encoding path))
  return bytes ++ chunk

/-- Rebuild a blob. -/
def unmaskBlob (m : Masker) (visit : VisitOrder) (path : Path) (p : PartyId) (first : BlobShares)
    (contributions : List Contribution) : Guarded UnmaskError Bytes := do
  let size ← chunkSize m.field
  let count ← chunkCount first.byteLength size
  if first.chunks.length ≠ count then
    fail (.typeMismatch path p (.blob count first.byteLength) (Masker.formOf first))
  else
    let blobs ← contributions.mapM (blobOf path first)
    (List.range count).foldlM (nextChunk m visit path first.byteLength size blobs) []

/-! ## Public leaves -/

/-- Take the first contribution, which all others must be equal to. -/
def unmaskPublic (path : Path) (contributions : List Contribution) : Guarded UnmaskError Value := do
  let (p, first) ← readAt contributions 0
  answer (eachContribution (fun q v =>
    if v = first then .ok () else .error (.inconsistency path q)) contributions.tail)
  match MaskedValue.publicValue? first with
  | some v => .ok v
  | none => fail (mismatch path p first.type first.type)

/-! ## Values -/

/-- The size of the first of the contributions, on which their unmasking recurses. -/
noncomputable def headSize : List Contribution → Nat
  | [] => 0
  | c :: _ => sizeOf c.2

theorem headSize_rowAt {ε : Type} {p : PartyId} {inner : ValueType} {elements : List MaskedValue}
    {columns : List (PartyId × List MaskedValue)} {others : List Contribution} {i : Nat}
    {row : List Contribution}
    (read : (rowAt ((p, elements) :: columns) i : Guarded ε _) = .ok row) :
    headSize row < headSize ((p, .array inner elements) :: others) := by
  unfold rowAt at read
  rw [List.mapM_cons, bind_eq_ok] at read
  obtain ⟨c, first, rest⟩ := read
  obtain ⟨e, here, entry⟩ := bind_eq_ok.mp first
  obtain ⟨tail, -, whole⟩ := bind_eq_ok.mp rest
  obtain rfl := pure_eq_ok.mp entry
  obtain rfl := pure_eq_ok.mp whole
  unfold readAt at here
  split at here
  · obtain rfl := Except.ok.inj here
    have member := List.sizeOf_lt_of_mem (List.getElem_mem (l := elements) ‹_›)
    simp only [headSize, ValueTree.array.sizeOf_spec]
    omega
  · cases here

/-- Rebuild a value from the contributions, of which the first one is the reference. -/
def unmaskValue (m : Masker) (visit : VisitOrder) (path : Path)
    (contributions : List Contribution) : Guarded UnmaskError Value :=
  match contributions with
  | [] => .error .outOfRange
  | (p, .publicLeaf leaf) :: others => do
    answer (checkKinds path (.publicLeaf leaf.kind) others)
    unmaskPublic path ((p, .publicLeaf leaf) :: others)
  | (p, .secretLeaf (.scalar kind y)) :: others => do
    answer (checkKinds path (.secretLeaf (.scalar kind)) others)
    let v ← unmaskScalar m visit path kind ((p, .secretLeaf (.scalar kind y)) :: others)
    return .secretLeaf (.scalar v)
  | (p, .secretLeaf (.blob blob)) :: others => do
    answer (checkKinds path (.secretLeaf .blob) others)
    let bytes ← unmaskBlob m visit path p blob ((p, .secretLeaf (.blob blob)) :: others)
    return .secretLeaf (.blob bytes)
  | (p, .array inner elements) :: others => do
    answer (checkKinds path (.array inner elements.length) others)
    answer (Masker.checkElements path p inner elements)
    answer (eachContribution (Masker.checkColumn path inner elements.length) others)
    let values ← (List.range elements.length).mapM fun i =>
      (rowAt ((p, elements) :: partsOf Masker.elements? others) i).andThen fun row _ =>
        unmaskValue m visit (path.index i) row
    return .array inner values
  | (p, .tuple left right) :: others => do
    answer (checkKinds path (.tuple left.type right.type) others)
    let l ← unmaskValue m visit path.left
      (partsOf MaskedValue.left? ((p, .tuple left right) :: others))
    let r ← unmaskValue m visit path.right
      (partsOf MaskedValue.right? ((p, .tuple left right) :: others))
    return .tuple l r
termination_by headSize contributions
decreasing_by
  · exact headSize_rowAt ‹_›
  · show sizeOf left < 1 + sizeOf left + sizeOf right
    omega
  · show sizeOf right < 1 + sizeOf left + sizeOf right
    omega

/-! ## Jars -/

/-- Open a jar. -/
def unmask (m : Masker) (jar : BundleJar) (visit : VisitOrder := .gathered) :
    Guarded UnmaskError (NamedValues Value) :=
  if jar.binding ≠ m.fingerprint ∨ jar.roster ≠ m.roster then fail .foreignJar
  else if jar.size < m.threshold then fail (.insufficientShares none jar.size m.threshold)
  else
    match m.absent? jar with
    | some p => fail (.missingParty none p)
    | none => do
      let (firstParty, first) ← readAt jar.elements 0
      answer (eachContribution (Masker.checkNames firstParty first) jar.elements.tail)
      let entries ← first.names.mapM fun name => do
        let v ← unmaskValue m visit (Path.ofName name) (partsOf (·.get? name) jar.elements)
        return (name, v)
      return NamedValues.ofList entries

/-! ## Guards make no difference at secret leaves -/

theorem two_le_modulus (m : Masker) (kind : ScalarKind) : 2 ≤ (m.fieldOf kind).modulus :=
  (m.prime_fieldOf kind).out.two_le

theorem reconstructAt_eq (kind : ScalarKind) (position : Nat) (shares : List (PartyId × Nat)) :
    reconstructAt m visit path position (m.fieldOf kind) shares =
      answer (m.reconstructAt visit path position (m.fieldOf kind) shares) := by
  have big : 2 ≤ (m.sharer (m.fieldOf kind)).field.modulus := two_le_modulus m kind
  rw [reconstructAt, reconstruct_eq_answer big, ← answer_mapError]
  rfl

section Shares

variable {share : MaskedValue → Option Nat} {form : Nat → MaskedValue}
  (inverse : ∀ y, share (form y) = some y)
include inverse

theorem mapM_shareOf (expected : ValueType) (shares : List (PartyId × Nat)) :
    (formed form shares).mapM (shareOf path expected share) = .ok shares := by
  induction shares with
  | nil => rfl
  | cons e rest ih =>
    rw [formed_cons, List.mapM_cons, ih]
    unfold shareOf
    simp only [inverse, ok_bind]
    rfl

theorem gather_formed (e : PartyId × Nat) (shares : List (PartyId × Nat)) :
    gather path share (formed form (e :: shares)) = .ok (e :: shares) := by
  unfold gather
  rw [formed_cons, readAt_zero_cons, ok_bind, ← formed_cons, mapM_shareOf inverse]

end Shares

theorem unmaskScalar_eq (kind : ScalarKind) (e : PartyId × Nat) (shares : List (PartyId × Nat)) :
    unmaskScalar m visit path kind (formed (fun y => .secretLeaf (.scalar kind y)) (e :: shares)) =
      answer (m.unmaskScalar visit path kind (e :: shares)) := by
  have inverse : ∀ y, MaskedValue.scalarShare? kind (.secretLeaf (.scalar kind y)) = some y :=
    fun y => if_pos rfl
  unfold unmaskScalar Masker.unmaskScalar
  rw [gather_formed inverse, ok_bind, reconstructAt_eq, answer_bind]
  simp only [decodeScalarAt_eq (two_le_modulus m kind)]

theorem mapM_blobOf (first : BlobShares) (blobs : List (PartyId × BlobShares)) :
    (formed (fun b => .secretLeaf (.blob b)) blobs).mapM (blobOf path first) =
      answer (eachContribution (fun p b =>
        if b.chunks.length = first.chunks.length ∧ b.byteLength = first.byteLength then .ok ()
        else .error (.typeMismatch path p (Masker.formOf first) (Masker.formOf b))) blobs) >>=
          fun _ => .ok blobs := by
  induction blobs with
  | nil => rfl
  | cons c rest ih =>
    rw [formed_cons, List.mapM_cons, eachContribution, answer_bind, ih]
    unfold blobOf
    dsimp only
    split
    · rw [ok_bind, answer_ok, ok_bind]
      cases eachContribution _ rest <;> rfl
    · rfl

/-! ## Guards make no difference in blobs -/

/-- The chunks before the last one are full. -/
theorem mul_lt_of_lt_chunkCount {total size i : Nat} (h : i < Bytes.chunkCount total size) :
    size * i < total := by
  have positive : 0 < size := Nat.pos_of_ne_zero fun zero => by
    rw [zero, Bytes.chunkCount, Nat.div_zero] at h
    exact Nat.not_lt_zero i h
  rw [Bytes.chunkCount, Nat.lt_div_iff_mul_lt positive, Nat.mul_comm] at h
  omega

theorem chunkCount_eq {length size : Nat} (positive : 0 < size) :
    (chunkCount length size : Guarded UnmaskError Nat) = .ok (Bytes.chunkCount length size) :=
  if_neg positive.ne'

theorem length_of_unmaskChunk {total i : Nat} {blobs : List (PartyId × BlobShares)} {chunk : Bytes}
    (h : m.unmaskChunk visit path total blobs i = .ok chunk) :
    chunk.length = min m.chunkSize (total - m.chunkSize * i) := by
  obtain ⟨secret, -, decoded⟩ := bind_eq_ok.mp h
  exact (PrimeField.decodeChunk_eq_ok.mp (mapError_eq_ok.mp decoded)).1

/-- A step of the loop over the chunks, where the bytes so far fill all the chunks before it. -/
theorem nextChunk_eq {total i : Nat} {blobs : List (PartyId × BlobShares)} {bytes : Bytes}
    (whole : ∀ c ∈ blobs, i < c.2.chunks.length) (within : m.chunkSize * i ≤ total)
    (filled : bytes.length = m.chunkSize * i) :
    nextChunk m visit path total m.chunkSize blobs bytes i =
      answer (m.unmaskChunk visit path total blobs i >>= fun chunk => pure (bytes ++ chunk)) := by
  have long : ∀ c ∈ formed BlobShares.chunks blobs, i < c.2.length := by
    intro c member
    obtain ⟨b, there, same⟩ := mem_formed.mp member
    exact same ▸ whole _ there
  have reconstructed (shares) : reconstructAt m visit path i m.field shares =
      answer (m.reconstructAt visit path i m.field shares) := reconstructAt_eq .integer i shares
  unfold nextChunk Masker.unmaskChunk
  rw [rowAt_of_lt long, ok_bind, partsOf_comp, reconstructed, filled]
  simp only [subtract_of_le within, ok_bind, bind_assoc, answer_bind, answer_pure]

/-- The loop over the chunks from one of them on. -/
theorem foldlM_nextChunk {total : Nat} {blobs : List (PartyId × BlobShares)}
    (whole : ∀ c ∈ blobs, c.2.chunks.length = Bytes.chunkCount total m.chunkSize)
    (k : Nat) : ∀ (start : Nat) (bytes : Bytes),
      start + k = Bytes.chunkCount total m.chunkSize →
      (0 < k → bytes.length = m.chunkSize * start) →
      (List.range' start k).foldlM (nextChunk m visit path total m.chunkSize blobs) bytes =
        answer ((List.range' start k).mapM (m.unmaskChunk visit path total blobs) >>= fun chunks =>
          pure (bytes ++ chunks.flatten)) := by
  induction k with
  | zero =>
    intro start bytes _ _
    simp [answer_pure]
  | succ k ih =>
    intro start bytes count filled
    have here : start < Bytes.chunkCount total m.chunkSize := by omega
    have within := mul_lt_of_lt_chunkCount here
    have step : nextChunk m visit path total m.chunkSize blobs bytes start = _ :=
      nextChunk_eq (fun c member => (whole c member).symm ▸ here) within.le
        (filled (Nat.succ_pos k))
    rw [List.range'_succ, List.foldlM_cons, List.mapM_cons, step]
    cases rebuilt : m.unmaskChunk visit path total blobs start with
    | error e => rfl
    | ok chunk =>
      -- a chunk that is not the last one is full
      have next : 0 < k → (bytes ++ chunk).length = m.chunkSize * (start + 1) := by
        intro more
        have after : start + 1 < Bytes.chunkCount total m.chunkSize := by omega
        have room := mul_lt_of_lt_chunkCount after
        rw [Nat.mul_succ] at room ⊢
        rw [List.length_append, filled (Nat.succ_pos k), length_of_unmaskChunk rebuilt]
        omega
      show (List.range' (start + 1) k).foldlM _ (bytes ++ chunk) = _
      rw [ih (start + 1) (bytes ++ chunk) (by omega) next]
      cases (List.range' (start + 1) k).mapM (m.unmaskChunk visit path total blobs) with
      | error e => rfl
      | ok chunks => simp [answer, pure, Except.pure, bind, Except.bind, Except.mapError]

theorem unmaskBlob_eq (p : PartyId) (first : BlobShares) (others : List (PartyId × BlobShares)) :
    unmaskBlob m visit path p first
        (formed (fun b => .secretLeaf (.blob b)) ((p, first) :: others)) =
      answer (m.unmaskBlob visit path p first others) := by
  have size : (chunkSize m.field : Guarded UnmaskError Nat) = .ok m.chunkSize :=
    chunkSize_eq (two_le_modulus m .integer)
  unfold unmaskBlob Masker.unmaskBlob
  rw [size, ok_bind, chunkCount_eq m.chunkSize_pos, ok_bind]
  dsimp only
  by_cases count : first.chunks.length = Bytes.chunkCount first.byteLength m.chunkSize
  · rw [if_neg (not_not.mpr count), if_neg (not_not.mpr count), mapM_blobOf, eachContribution,
      if_pos ⟨rfl, rfl⟩, answer_bind, answer_bind]
    show (answer (eachContribution _ others) >>= _) >>= _ = answer (eachContribution _ others) >>= _
    rw [bind_assoc]
    apply answer_bind_congr
    intro _ agree
    have whole := Masker.length_chunks_of_agree p count agree
    rw [ok_bind, List.range_eq_range',
      foldlM_nextChunk whole _ 0 [] (Nat.zero_add _) (fun _ => rfl)]
    simp only [List.nil_append]
  · rw [if_pos count, if_pos count]
    rfl

/-! ## Guards make no difference in values -/

theorem unmaskPublic_eq (p : PartyId) (leaf : PublicLeaf) (others : List Contribution) :
    unmaskPublic path ((p, .publicLeaf leaf) :: others) =
      answer (Masker.checkPublic path leaf others >>= fun _ => pure (.publicLeaf leaf)) := by
  unfold unmaskPublic
  rw [readAt_zero_cons, ok_bind, answer_bind]
  rfl

/-- Columns of one length have a row at every index. -/
theorem mapM_rowAt {p : PartyId} {elements : List MaskedValue}
    {columns : List (PartyId × List MaskedValue)}
    (lengths : ∀ c ∈ columns, c.2.length = elements.length)
    (each : ∀ e ∈ elements, ∀ {path others},
      unmaskValue m visit path ((p, e) :: others) = answer (m.unmaskValue visit path p e others)) :
    ((List.range elements.length).mapM fun i =>
      (rowAt ((p, elements) :: columns) i).andThen fun row _ =>
        unmaskValue m visit (path.index i) row) =
        answer (m.unmaskElements visit path p 0 elements columns) := by
  rw [Masker.unmaskElements_eq_mapM, answer_mapM, ← List.map_coe_finRange_eq_range, List.mapM_map]
  congr 1
  funext i
  have long : ∀ c ∈ (p, elements) :: columns, i.val < c.2.length := by
    rw [List.forall_mem_cons]
    exact ⟨i.isLt, fun c member => (lengths c member).symm ▸ i.isLt⟩
  have first : elements[i.val]? = some elements[i] := List.getElem?_eq_getElem i.isLt
  rw [Function.comp_apply, andThen_of_ok (rowAt_of_lt long),
    partsOf_cons_some (a := elements) first, each elements[i] (List.getElem_mem i.isLt),
    Nat.zero_add]

theorem unmaskValue_scalar_eq (p : PartyId) (kind : ScalarKind) (y : Nat)
    (others : List Contribution) :
    unmaskValue m visit path ((p, .secretLeaf (.scalar kind y)) :: others) =
      answer (m.unmaskValue visit path p (.secretLeaf (.scalar kind y)) others) := by
  rw [unmaskValue, Masker.unmaskValue, answer_bind]
  apply answer_bind_congr
  intro _ checked
  obtain ⟨shares, rfl⟩ := checkKinds_scalar_eq_ok.mp checked
  have rebuilt : unmaskScalar m visit path kind _ = _ := unmaskScalar_eq kind (p, y) shares
  rw [formed_cons] at rebuilt
  rw [partsOf_scalars, rebuilt]
  exact (answer_bind_pure _ _).symm

theorem unmaskValue_blob_eq (p : PartyId) (blob : BlobShares) (others : List Contribution) :
    unmaskValue m visit path ((p, .secretLeaf (.blob blob)) :: others) =
      answer (m.unmaskValue visit path p (.secretLeaf (.blob blob)) others) := by
  rw [unmaskValue, Masker.unmaskValue, answer_bind]
  apply answer_bind_congr
  intro _ checked
  obtain ⟨blobs, rfl⟩ := checkKinds_blob_eq_ok.mp checked
  have rebuilt : unmaskBlob m visit path p blob _ = _ := unmaskBlob_eq p blob blobs
  rw [formed_cons] at rebuilt
  rw [partsOf_blobs, rebuilt]
  exact (answer_bind_pure _ _).symm

theorem unmaskValue_array_eq (p : PartyId) {inner : ValueType} {elements : List MaskedValue}
    (each : ∀ e ∈ elements, ∀ {path others},
      unmaskValue m visit path ((p, e) :: others) = answer (m.unmaskValue visit path p e others))
    (others : List Contribution) :
    unmaskValue m visit path ((p, .array inner elements) :: others) =
      answer (m.unmaskValue visit path p (.array inner elements) others) := by
  rw [unmaskValue, Masker.unmaskValue]
  simp only [answer_bind]
  apply answer_bind_congr
  intro _ _
  apply answer_bind_congr
  intro _ _
  apply answer_bind_congr
  intro _ checked
  obtain ⟨columns, rfl, shape⟩ := Masker.checkColumns_eq_ok.mp checked
  rw [partsOf_columns, mapM_rowAt (fun c member => (shape c member).1) each]
  rfl

/-- Whatever parties contribute to a value, its accesses are in range. -/
theorem unmaskValue_eq_answer {first : MaskedValue} : ∀ {path p others},
    unmaskValue m visit path ((p, first) :: others) =
      answer (m.unmaskValue visit path p first others) := by
  induction first using ValueTree.induction with
  | publicLeaf leaf =>
    intro path p others
    rw [unmaskValue, Masker.unmaskValue, unmaskPublic_eq]
    simp only [answer_bind]
  | secretLeaf share =>
    intro path p others
    cases share with
    | scalar kind y => exact unmaskValue_scalar_eq p kind y others
    | blob blob => exact unmaskValue_blob_eq p blob others
  | array inner elements each =>
    intro path p others
    exact unmaskValue_array_eq p (fun e member => each e member) others
  | tuple left right onLeft onRight =>
    intro path p others
    have lefts : partsOf MaskedValue.left? ((p, .tuple left right) :: others) =
        (p, left) :: partsOf MaskedValue.left? others := rfl
    have rights : partsOf MaskedValue.right? ((p, .tuple left right) :: others) =
        (p, right) :: partsOf MaskedValue.right? others := rfl
    rw [unmaskValue, Masker.unmaskValue, lefts, rights, onLeft, onRight]
    simp only [answer_bind, answer_pure]

/-! ## Guards make no difference in jars -/

/-- The entries of the first bundle one by one. -/
theorem mapM_unmaskNamed (p : PartyId) (first : Bundle) (others : List (PartyId × Bundle)) :
    (first.names.mapM fun name => do
      let v ← unmaskValue m visit (Path.ofName name) (partsOf (·.get? name) ((p, first) :: others))
      return (name, v)) = answer (first.toList.mapM (m.unmaskNamed visit p others)) := by
  rw [answer_mapM, NamedValues.names, List.mapM_map]
  apply mapM_congr
  intro e member
  have found : first.get? e.1 = some e.2 := NamedValues.mem_toList_iff.mp member
  unfold Masker.unmaskNamed
  rw [Function.comp_apply, partsOf_cons_some (a := first) found, unmaskValue_eq_answer]
  exact (answer_bind_pure _ _).symm

/-- **Ranges.** On every jar the guarded program gives the answer of the plain one. -/
theorem unmask_eq_answer (m : Masker) (jar : BundleJar) (visit : VisitOrder) :
    unmask m jar visit = answer (m.unmask jar visit) := by
  unfold unmask Masker.unmask
  by_cases foreign : jar.binding ≠ m.fingerprint ∨ jar.roster ≠ m.roster
  · rw [if_pos foreign, if_pos foreign]
    rfl
  · rw [if_neg foreign, if_neg foreign]
    by_cases few : jar.size < m.threshold
    · rw [if_pos few, if_pos few]
      rfl
    · rw [if_neg few, if_neg few]
      cases m.absent? jar with
      | some p => rfl
      | none =>
        -- a threshold is never zero, so that there is a first bundle
        have some : 0 < jar.elements.length := by
          rw [jar.length_elements]
          exact lt_of_lt_of_le (Nat.succ_pos _) (not_lt.mp few)
        obtain ⟨⟨p, first⟩, others, elements⟩ := List.exists_cons_of_length_pos some
        rw [elements]
        dsimp only
        unfold Masker.unmaskBundles
        rw [readAt_zero_cons, ok_bind, answer_bind, List.tail_cons, answer_bind_congr]
        intro _ _
        rw [mapM_unmaskNamed]
        exact (answer_bind_pure _ _).symm

end Guarded
end ThresholdMask
