import Mathlib
import ThresholdMask.Masker.Unmasking
import ThresholdMask.Proofs.Decoding
import ThresholdMask.Proofs.Primality
import ThresholdMask.Proofs.Reconstruction

/-!
# Contributions that stand for a value

What parties hold of a value is a list of contributions, one masked value for each party.
`Masker.Coherent` says by recursion on a clear value what its contributions look like: the same leaf
from everyone where the value is public, shares on one polynomial where it is secret, and for arrays
and tuples coherent contributions to the elements and to the sides.

Contributions of different types are never coherent with the same value (`Coherent.type_eq`), and the
contributions of a quorum fix the value that any contributions that include them can be coherent
with (`Coherent.unique`).
-/

namespace ThresholdMask

/-! ## Contributions of one form -/

section Formed

variable {α β γ : Type}

/-- Contributions of one form, given by what each party has in its place. -/
def formed (form : α → β) (parts : List (PartyId × α)) : List (PartyId × β) :=
  parts.map fun e => (e.1, form e.2)

@[simp] theorem formed_cons (form : α → β) (e : PartyId × α) (parts : List (PartyId × α)) :
    formed form (e :: parts) = (e.1, form e.2) :: formed form parts := rfl

@[simp] theorem map_fst_formed (form : α → β) (parts : List (PartyId × α)) :
    (formed form parts).map (·.1) = parts.map (·.1) := by
  rw [formed, List.map_map]
  rfl

theorem formed_comp (form : α → β) (outer : β → γ) (parts : List (PartyId × α)) :
    formed outer (formed form parts) = formed (fun a => outer (form a)) parts := by
  rw [formed, formed, List.map_map]
  rfl

theorem formed_injective {form : α → β} (injective : form.Injective) :
    (formed form).Injective :=
  List.map_injective_iff.mpr fun _ _ same =>
    Prod.ext (Prod.mk.inj same).1 (injective (Prod.mk.inj same).2)

theorem formed_congr {form form' : α → β} {parts : List (PartyId × α)}
    (same : ∀ e ∈ parts, form e.2 = form' e.2) : formed form parts = formed form' parts :=
  List.map_congr_left fun e member => by rw [same e member]

theorem mem_formed {form : α → β} {parts : List (PartyId × α)} {c : PartyId × β} :
    c ∈ formed form parts ↔ ∃ a, (c.1, a) ∈ parts ∧ c.2 = form a := by
  rw [formed, List.mem_map]
  constructor
  · rintro ⟨e, member, rfl⟩
    exact ⟨e.2, member, rfl⟩
  · rintro ⟨a, member, same⟩
    exact ⟨(c.1, a), member, Prod.ext rfl same.symm⟩

theorem exists_formed (form : α → β) {cs : List (PartyId × β)} :
    (∃ parts, cs = formed form parts) ↔ ∀ c ∈ cs, ∃ a, c.2 = form a := by
  constructor
  · rintro ⟨parts, rfl⟩ c member
    obtain ⟨a, -, same⟩ := mem_formed.mp member
    exact ⟨a, same⟩
  · induction cs with
    | nil => exact fun _ => ⟨[], rfl⟩
    | cons c rest ih =>
      intro each
      rw [List.forall_mem_cons] at each
      obtain ⟨⟨a, same⟩, others⟩ := each
      obtain ⟨parts, rfl⟩ := ih others
      exact ⟨(c.1, a) :: parts, by rw [formed_cons, ← same]⟩

theorem formed_subset {form : α → β} (injective : form.Injective)
    {parts others : List (PartyId × α)} (h : formed form parts ⊆ formed form others) :
    parts ⊆ others := by
  intro e member
  obtain ⟨a, there, same⟩ := mem_formed.mp (h (List.mem_map_of_mem member))
  rwa [← injective same] at there

/-- Some of the contributions of a form come from some of its parts. -/
theorem exists_formed_of_subset {form : α → β} {parts : List (PartyId × α)}
    {cs : List (PartyId × β)} (h : cs ⊆ formed form parts) :
    ∃ some, some ⊆ parts ∧ cs = formed form some := by
  induction cs with
  | nil => exact ⟨[], List.nil_subset _, rfl⟩
  | cons c rest ih =>
    obtain ⟨first, others⟩ := List.cons_subset.mp h
    obtain ⟨a, member, same⟩ := mem_formed.mp first
    obtain ⟨some, part, rfl⟩ := ih others
    exact ⟨(c.1, a) :: some, List.cons_subset.mpr ⟨member, part⟩, by rw [formed_cons, ← same]⟩

theorem eq_formed_of_cons_eq {form : α → β} (injective : form.Injective) {p : PartyId} {a : α}
    {cs : List (PartyId × β)} {parts : List (PartyId × α)}
    (h : (p, form a) :: cs = formed form parts) :
    ∃ rest, parts = (p, a) :: rest ∧ cs = formed form rest := by
  cases parts with
  | nil => cases h
  | cons first rest =>
    obtain ⟨head, tail⟩ := List.cons.inj h
    obtain ⟨sameParty, same⟩ := Prod.mk.inj head
    exact ⟨rest, by rw [sameParty, injective same], tail⟩

theorem formed_mono (form : α → β) {parts others : List (PartyId × α)} (h : parts ⊆ others) :
    formed form parts ⊆ formed form others := List.map_subset _ h

theorem formed_subperm (form : α → β) {parts others : List (PartyId × α)}
    (h : parts.Subperm others) : (formed form parts).Subperm (formed form others) := by
  obtain ⟨sublist, perm, inOrder⟩ := h
  exact ⟨formed form sublist, perm.map _, inOrder.map _⟩

/-! ## Parts of contributions -/

theorem mem_partsOf {part : α → Option β} {cs : List (PartyId × α)} {e : PartyId × β} :
    e ∈ partsOf part cs ↔ ∃ a, (e.1, a) ∈ cs ∧ part a = some e.2 := by
  rw [partsOf, List.mem_filterMap]
  constructor
  · rintro ⟨c, member, found⟩
    obtain ⟨b, here, rfl⟩ := Option.map_eq_some_iff.mp found
    exact ⟨c.2, member, here⟩
  · rintro ⟨a, member, here⟩
    exact ⟨(e.1, a), member, congrArg (Option.map (e.1, ·)) here⟩

theorem partsOf_mono (part : α → Option β) {cs others : List (PartyId × α)} (h : cs ⊆ others) :
    partsOf part cs ⊆ partsOf part others := by
  intro e member
  obtain ⟨a, there, found⟩ := mem_partsOf.mp member
  exact mem_partsOf.mpr ⟨a, h there, found⟩

theorem partsOf_cons_some {part : α → Option β} {p : PartyId} {a : α} {b : β}
    (found : part a = some b) (cs : List (PartyId × α)) :
    partsOf part ((p, a) :: cs) = (p, b) :: partsOf part cs :=
  List.filterMap_cons_some (congrArg (Option.map (p, ·)) found)

theorem partsOf_comp (form : α → β) (part : β → Option γ) (parts : List (PartyId × α)) :
    partsOf part (formed form parts) = partsOf (fun a => part (form a)) parts :=
  List.filterMap_map

/-- The parts of contributions that all have one. -/
theorem partsOf_formed {form : α → β} {part : β → Option γ} {inner : α → γ}
    (whole : ∀ a, part (form a) = some (inner a)) (parts : List (PartyId × α)) :
    partsOf part (formed form parts) = formed inner parts := by
  rw [partsOf, formed, List.filterMap_map, formed, ← List.filterMap_eq_map']
  apply List.filterMap_congr
  intro e _
  simp only [Function.comp_apply, whole, Option.map_some]

theorem partsOf_formed_self {form : α → β} {part : β → Option α}
    (inverse : ∀ a, part (form a) = some a) (parts : List (PartyId × α)) :
    partsOf part (formed form parts) = parts :=
  (partsOf_formed inverse parts).trans (List.map_id parts)

/-- No party is lost if every contribution has the part. -/
theorem map_fst_partsOf {part : α → Option β} {cs : List (PartyId × α)}
    (whole : ∀ c ∈ cs, (part c.2).isSome) : (partsOf part cs).map (·.1) = cs.map (·.1) := by
  induction cs with
  | nil => rfl
  | cons c rest ih =>
    rw [List.forall_mem_cons] at whole
    obtain ⟨b, found⟩ := Option.isSome_iff_exists.mp whole.1
    have first : partsOf part (c :: rest) = (c.1, b) :: partsOf part rest :=
      partsOf_cons_some found rest
    rw [first, List.map_cons, List.map_cons, ih whole.2]

/-- Columns that are not empty have a first row. -/
theorem isSome_head?_of_length {columns : List (PartyId × List α)} {n : Nat}
    (lengths : ∀ c ∈ columns, c.2.length = n + 1) : ∀ c ∈ columns, (c.2.head?).isSome := by
  intro c member
  rw [List.isSome_head?, ← List.length_pos_iff, lengths c member]
  exact Nat.succ_pos n

/-- The other rows make columns that are one shorter. -/
theorem length_tail_of_length {columns : List (PartyId × List α)} {n : Nat}
    (lengths : ∀ c ∈ columns, c.2.length = n + 1) :
    ∀ c ∈ formed List.tail columns, c.2.length = n := by
  intro c member
  obtain ⟨column, there, same⟩ := mem_formed.mp member
  rw [same, List.length_tail, lengths _ there, Nat.add_sub_cancel]

theorem eachContribution_eq_ok {check : PartyId → α → Except UnmaskError Unit}
    {cs : List (PartyId × α)} :
    eachContribution check cs = .ok () ↔ ∀ c ∈ cs, check c.1 c.2 = .ok () := by
  induction cs with
  | nil => simp [eachContribution]
  | cons c rest ih =>
    rw [eachContribution, check_bind_eq_ok, ih, List.forall_mem_cons]

end Formed

namespace Masker

/-! ## Fields in use -/

/-- The roster has fewer parties than any field in use has elements. -/
def RosterFits (m : Masker) : Prop := ∀ kind, m.roster.size < (m.fieldOf kind).modulus

theorem fieldOf_cases (m : Masker) (kind : ScalarKind) :
    m.fieldOf kind = m.prime.field ∨ m.fieldOf kind = PrimeField.secp256k1Order ∨
      m.fieldOf kind = PrimeField.ed25519Order := by
  cases kind with
  | integer | unsignedInteger | boolean => exact .inl rfl
  | ecdsaPrivateKey =>
    rw [fieldOf, ecdsaKeyField]
    cases m.options.ecdsaKeyField with
    | curve => exact .inr (.inl rfl)
    | masker => exact .inl rfl
  | eddsaPrivateKey =>
    rw [fieldOf, eddsaKeyField]
    cases m.options.eddsaKeyField with
    | curve => exact .inr (.inr rfl)
    | masker => exact .inl rfl

instance prime_fieldOf (m : Masker) (kind : ScalarKind) : Fact (m.fieldOf kind).modulus.Prime := by
  rcases m.fieldOf_cases kind with same | same | same
  · exact ⟨same ▸ m.prime.prime_modulus⟩
  · exact ⟨same ▸ PrimeField.prime_secp256k1Order⟩
  · exact ⟨same ▸ PrimeField.prime_ed25519Order⟩

instance prime_field (m : Masker) : Fact m.field.modulus.Prime := m.prime_fieldOf .integer

instance prime_sharer (m : Masker) (F : PrimeField) [prime : Fact F.modulus.Prime] :
    Fact (m.sharer F).field.modulus.Prime := prime

theorem odd_fieldOf (m : Masker) (kind : ScalarKind) : (m.fieldOf kind).modulus % 2 = 1 := by
  rcases m.fieldOf_cases kind with same | same | same
  · rw [same]
    cases m.prime <;> decide
  · rw [same]
    decide
  · rw [same]
    decide

theorem chunkSize_pos (m : Masker) : 0 < m.chunkSize := by
  rw [chunkSize, field]
  cases m.prime <;> decide

/-! ## Coherence -/

/-- The shares of the chunks of a blob: every party has one per chunk, and those of a chunk stand
for the number that the chunk writes. -/
def CoherentChunks (m : Masker) (chunks : List Bytes) (columns : List (PartyId × List Nat)) :
    Prop :=
  (∀ c ∈ columns, c.2.length = chunks.length) ∧
    ∀ (i : Nat) (chunk : Bytes), chunks[i]? = some chunk →
      (m.sharer m.field).Consistent (partsOf (·[i]?) columns) chunk.toNatLE

mutual

/-- The contributions are what parties hold of the value. -/
def Coherent (m : Masker) : Value → List Contribution → Prop
  | .publicLeaf leaf, cs => ∀ c ∈ cs, c.2 = .publicLeaf leaf
  | .secretLeaf (.scalar v), cs => ∃ shares secret,
      cs = formed (fun y => .secretLeaf (.scalar v.kind y)) shares ∧
      (m.sharer (m.fieldOf v.kind)).Consistent shares secret ∧
      v.DecodedFrom (m.fieldOf v.kind) secret
  | .secretLeaf (.blob bytes), cs => ∃ columns,
      cs = formed (fun chunks => .secretLeaf (.blob ⟨chunks, bytes.length⟩)) columns ∧
      m.CoherentChunks (bytes.chunks m.chunkSize) columns
  | .array inner elements, cs => ∃ columns,
      cs = formed (.array inner) columns ∧
      (∀ c ∈ columns, c.2.length = elements.length ∧ ∀ e ∈ c.2, e.type = inner) ∧
      CoherentElements m elements columns
  | .tuple left right, cs => ∃ sides : List (PartyId × MaskedValue × MaskedValue),
      cs = formed (fun s => .tuple s.1 s.2) sides ∧
      Coherent m left (formed Prod.fst sides) ∧ Coherent m right (formed Prod.snd sides)

/-- The columns are what parties hold of the elements of an array. -/
def CoherentElements (m : Masker) : List Value → List (PartyId × List MaskedValue) → Prop
  | [], _ => True
  | v :: rest, columns =>
    Coherent m v (partsOf List.head? columns) ∧ CoherentElements m rest (formed List.tail columns)

end

/-- The first entries of columns are those at the index zero. -/
theorem partsOf_head? (columns : List (PartyId × List MaskedValue)) :
    partsOf List.head? columns = partsOf (fun column => column[0]?) columns := by
  congr 1
  funext column
  exact List.head?_eq_getElem?

/-- Without the first entries the indices are smaller by one. -/
theorem partsOf_tail (i : Nat) (columns : List (PartyId × List MaskedValue)) :
    partsOf (fun column => column[i]?) (formed List.tail columns) =
      partsOf (fun column => column[i + 1]?) columns := by
  rw [partsOf_comp]
  congr 1
  funext column
  exact List.getElem?_tail

/-- What parties hold of an element of an array is found at its index. -/
theorem CoherentElements.getElem? {m : Masker} {elements : List Value}
    {columns : List (PartyId × List MaskedValue)} (h : m.CoherentElements elements columns)
    {i : Nat} {v : Value} (found : elements[i]? = some v) :
    m.Coherent v (partsOf (·[i]?) columns) := by
  induction elements generalizing columns i with
  | nil => cases found
  | cons w rest ih =>
    rw [CoherentElements] at h
    cases i with
    | zero =>
      obtain rfl : w = v := Option.some.inj found
      rw [← partsOf_head?]
      exact h.1
    | succ i =>
      rw [← partsOf_tail]
      exact ih h.2 found

/-! ## Types -/

/-- Coherent contributions have the type of the value. -/
theorem Coherent.type_eq {m : Masker} {v : Value} : ∀ {cs : List Contribution}, m.Coherent v cs →
    ∀ c ∈ cs, c.2.type = v.type := by
  induction v using ValueTree.induction with
  | publicLeaf leaf =>
    intro cs h c member
    unfold Coherent at h
    rw [h c member]
    rfl
  | secretLeaf secret =>
    intro cs h c member
    cases secret with
    | scalar v =>
      unfold Coherent at h
      obtain ⟨shares, -, rfl, -⟩ := h
      obtain ⟨y, -, same⟩ := mem_formed.mp member
      rw [same]
      rfl
    | blob bytes =>
      unfold Coherent at h
      obtain ⟨columns, rfl, -⟩ := h
      obtain ⟨chunks, -, same⟩ := mem_formed.mp member
      rw [same]
      rfl
  | array inner elements _ =>
    intro cs h c member
    unfold Coherent at h
    obtain ⟨columns, rfl, shape, -⟩ := h
    obtain ⟨column, there, same⟩ := mem_formed.mp member
    rw [same, ValueTree.type, ValueTree.type, (shape _ there).1]
  | tuple left right onLeft onRight =>
    intro cs h c member
    unfold Coherent at h
    obtain ⟨sides, rfl, hl, hr⟩ := h
    obtain ⟨s, there, same⟩ := mem_formed.mp member
    rw [same, ValueTree.type, ValueTree.type, ← onLeft hl (c.1, s.1) (mem_formed.mpr ⟨s, there, rfl⟩),
      ← onRight hr (c.1, s.2) (mem_formed.mpr ⟨s, there, rfl⟩)]

/-! ## Uniqueness -/

/-- Contributions of at least as many distinct parties of the roster as unmask. -/
abbrev Enough (m : Masker) {α : Type} (cs : List (PartyId × α)) : Prop :=
  m.roster.Quorum m.threshold (cs.map (·.1))

theorem Enough.exists_mem {m : Masker} {α : Type} {cs : List (PartyId × α)} (h : m.Enough cs) :
    ∃ c, c ∈ cs := by
  have enough : m.threshold ≤ cs.length := by simpa using h.enough
  exact List.exists_mem_of_length_pos (lt_of_lt_of_le (Nat.succ_pos _) enough)

theorem Enough.formed {m : Masker} {α β : Type} {form : α → β} {parts : List (PartyId × α)}
    (h : m.Enough parts) : m.Enough (ThresholdMask.formed form parts) := by
  rwa [Enough, map_fst_formed]

theorem Enough.of_formed {m : Masker} {α β : Type} {form : α → β} {parts : List (PartyId × α)}
    (h : m.Enough (ThresholdMask.formed form parts)) : m.Enough parts := by
  rwa [Enough, map_fst_formed] at h

theorem Enough.partsOf {m : Masker} {α β : Type} {part : α → Option β} {cs : List (PartyId × α)}
    (h : m.Enough cs) (whole : ∀ c ∈ cs, (part c.2).isSome) :
    m.Enough (ThresholdMask.partsOf part cs) := by
  rwa [Enough, map_fst_partsOf whole]

/-- The shares of enough parties fix the secret of all shares that they are part of. -/
theorem Enough.secret_eq {m : Masker} (fits : m.RosterFits) (kind : ScalarKind)
    {shares others : List (PartyId × Nat)} {secret secret' : Nat} (enough : m.Enough shares)
    (h : (m.sharer (m.fieldOf kind)).Consistent shares secret)
    (h' : (m.sharer (m.fieldOf kind)).Consistent others secret') (part : shares ⊆ others) :
    secret = secret' :=
  Sharer.Consistent.unique (s := m.sharer (m.fieldOf kind)) (fits kind) enough h h' part

theorem CoherentChunks.unique {m : Masker} (fits : m.RosterFits) {chunks chunks' : List Bytes}
    {columns others : List (PartyId × List Nat)} (enough : m.Enough columns)
    (h : m.CoherentChunks chunks columns) (h' : m.CoherentChunks chunks' others)
    (part : columns ⊆ others)
    (lengths : ∀ (i : Nat) (c c' : Bytes), chunks[i]? = some c → chunks'[i]? = some c' →
      c.length = c'.length) :
    chunks = chunks' := by
  obtain ⟨e, member⟩ := enough.exists_mem
  have count : chunks.length = chunks'.length :=
    (h.1 e member).symm.trans (h'.1 e (part member))
  apply List.ext_getElem?
  intro i
  by_cases inside : i < chunks.length
  · obtain ⟨c, found⟩ : ∃ c, chunks[i]? = some c := ⟨_, List.getElem?_eq_getElem inside⟩
    obtain ⟨c', found'⟩ : ∃ c', chunks'[i]? = some c' :=
      ⟨_, List.getElem?_eq_getElem (count ▸ inside)⟩
    have whole : ∀ c ∈ columns, (c.2[i]?).isSome := fun c member =>
      Option.isSome_iff_exists.mpr ⟨_, List.getElem?_eq_getElem (h.1 c member ▸ inside)⟩
    have value : c.toNatLE = c'.toNatLE :=
      (enough.partsOf whole).secret_eq fits .integer (h.2 i c found) (h'.2 i c' found')
        (partsOf_mono _ part)
    have same : c = c' := (Bytes.toNatLE_inj (lengths i c c' found found')).mp value
    rw [found, found', same]
  · rw [List.getElem?_eq_none (Nat.le_of_not_lt inside),
      List.getElem?_eq_none (count ▸ Nat.le_of_not_lt inside)]

theorem Coherent.unique_publicLeaf {m : Masker} {leaf leaf' : PublicLeaf}
    {cs others : List Contribution} (enough : m.Enough cs) (h : m.Coherent (.publicLeaf leaf) cs)
    (h' : m.Coherent (.publicLeaf leaf') others) (part : cs ⊆ others) : leaf = leaf' := by
  unfold Coherent at h h'
  obtain ⟨c, member⟩ := enough.exists_mem
  exact ValueTree.publicLeaf.inj ((h c member).symm.trans (h' c (part member)))

theorem Coherent.unique_scalar {m : Masker} (fits : m.RosterFits) {v w : SecretScalar}
    (kinds : v.kind = w.kind) {cs others : List Contribution} (enough : m.Enough cs)
    (h : m.Coherent (.secretLeaf (.scalar v)) cs)
    (h' : m.Coherent (.secretLeaf (.scalar w)) others) (part : cs ⊆ others) : v = w := by
  unfold Coherent at h h'
  obtain ⟨shares, secret, rfl, consistent, decoded⟩ := h
  obtain ⟨shares', secret', rfl, consistent', decoded'⟩ := h'
  rw [← kinds] at consistent' decoded' part
  have within : shares ⊆ shares' := formed_subset (fun y z same => by simpa using same) part
  rw [← enough.of_formed.secret_eq fits v.kind consistent consistent' within] at decoded'
  exact SecretScalar.DecodedFrom.unique (m.odd_fieldOf v.kind) kinds decoded decoded'

theorem Coherent.unique_blob {m : Masker} (fits : m.RosterFits) {bytes bytes' : Bytes}
    {cs others : List Contribution} (enough : m.Enough cs)
    (h : m.Coherent (.secretLeaf (.blob bytes)) cs)
    (h' : m.Coherent (.secretLeaf (.blob bytes')) others) (part : cs ⊆ others) :
    bytes = bytes' := by
  unfold Coherent at h h'
  obtain ⟨columns, rfl, coherent⟩ := h
  obtain ⟨columns', rfl, coherent'⟩ := h'
  -- every contribution carries the length, so that both blobs are cut alike
  have size : bytes.length = bytes'.length := by
    obtain ⟨c, member⟩ := enough.exists_mem
    obtain ⟨chunks, -, here⟩ := mem_formed.mp member
    obtain ⟨chunks', -, there⟩ := mem_formed.mp (part member)
    simpa using (congrArg (fun b => b.byteLength) (Share.blob.inj (ValueTree.secretLeaf.inj
      (here.symm.trans there))))
  rw [← size] at part
  have within : columns ⊆ columns' := formed_subset (fun a b same => by simpa using same) part
  have chunks := coherent.unique fits enough.of_formed coherent' within fun i c c' found found' => by
    rw [Bytes.length_of_getElem?_chunks found, Bytes.length_of_getElem?_chunks found', size]
  rw [← Bytes.flatten_chunks m.chunkSize_pos bytes, chunks,
    Bytes.flatten_chunks m.chunkSize_pos bytes']

theorem CoherentElements.unique {m : Masker} {elements elements' : List Value}
    (each : ∀ v ∈ elements, ∀ {cs others w}, m.Enough cs → m.Coherent v cs → m.Coherent w others →
      cs ⊆ others → v = w)
    {columns others : List (PartyId × List MaskedValue)} (enough : m.Enough columns)
    (shape : ∀ c ∈ columns, c.2.length = elements.length)
    (shape' : ∀ c ∈ others, c.2.length = elements'.length)
    (h : m.CoherentElements elements columns) (h' : m.CoherentElements elements' others)
    (part : columns ⊆ others) : elements = elements' := by
  have length : elements.length = elements'.length := by
    obtain ⟨c, member⟩ := enough.exists_mem
    exact (shape c member).symm.trans (shape' c (part member))
  induction elements generalizing elements' columns others with
  | nil => exact (List.eq_nil_of_length_eq_zero length.symm).symm
  | cons v rest ih =>
    cases elements' with
    | nil => cases length
    | cons w rest' =>
      rw [CoherentElements] at h h'
      rw [List.forall_mem_cons] at each
      -- the first row fixes the first element, and the other rows are left to `ih`
      have first : v = w :=
        each.1 (enough.partsOf (isSome_head?_of_length shape)) h.1 h'.1 (partsOf_mono _ part)
      rw [first, ih each.2 enough.formed (length_tail_of_length shape)
        (length_tail_of_length shape') h.2 h'.2 (formed_mono _ part) (Nat.succ.inj length)]

/-- **Uniqueness.** Contributions of enough parties fix the value that they, and any contributions
they are part of, are coherent with. -/
theorem Coherent.unique {m : Masker} (fits : m.RosterFits) {v : Value} :
    ∀ {cs others : List Contribution} {w : Value}, m.Enough cs → m.Coherent v cs →
      m.Coherent w others → cs ⊆ others → v = w := by
  induction v using ValueTree.induction with
  | publicLeaf leaf =>
    intro cs others w enough h h' part
    obtain ⟨c, member⟩ := enough.exists_mem
    -- a contribution has the types of both values, so that their constructors are the same
    have types := (h.type_eq c member).symm.trans (h'.type_eq c (part member))
    cases w with
    | publicLeaf leaf' => rw [h.unique_publicLeaf enough h' part]
    | _ => cases types
  | secretLeaf secret =>
    intro cs others w enough h h' part
    obtain ⟨c, member⟩ := enough.exists_mem
    have types := (h.type_eq c member).symm.trans (h'.type_eq c (part member))
    cases w with
    | secretLeaf secret' =>
      rw [ValueTree.type, ValueTree.type, ValueType.secretLeaf.injEq] at types
      cases secret with
      | scalar v =>
        cases secret' with
        | scalar w => rw [h.unique_scalar fits (SecretKind.scalar.inj types) enough h' part]
        | blob bytes' => cases types
      | blob bytes =>
        cases secret' with
        | scalar w => cases types
        | blob bytes' => rw [h.unique_blob fits enough h' part]
    | _ => cases types
  | array inner elements each =>
    intro cs others w enough h h' part
    obtain ⟨c, member⟩ := enough.exists_mem
    have types := (h.type_eq c member).symm.trans (h'.type_eq c (part member))
    cases w with
    | array inner' elements' =>
      obtain ⟨rfl, -⟩ := ValueType.array.inj types
      unfold Coherent at h h'
      obtain ⟨columns, rfl, shape, coherent⟩ := h
      obtain ⟨columns', rfl, shape', coherent'⟩ := h'
      rw [coherent.unique each enough.of_formed (fun c there => (shape c there).1)
        (fun c there => (shape' c there).1) coherent'
        (formed_subset (fun a b same => (ValueTree.array.inj same).2) part)]
    | _ => cases types
  | tuple left right onLeft onRight =>
    intro cs others w enough h h' part
    obtain ⟨c, member⟩ := enough.exists_mem
    have types := (h.type_eq c member).symm.trans (h'.type_eq c (part member))
    cases w with
    | tuple left' right' =>
      unfold Coherent at h h'
      obtain ⟨sides, rfl, hl, hr⟩ := h
      obtain ⟨sides', rfl, hl', hr'⟩ := h'
      have within : sides ⊆ sides' := formed_subset
        (fun a b same => Prod.ext (ValueTree.tuple.inj same).1 (ValueTree.tuple.inj same).2) part
      rw [onLeft enough.of_formed.formed hl hl' (formed_mono _ within),
        onRight enough.of_formed.formed hr hr' (formed_mono _ within)]
    | _ => cases types

end Masker
end ThresholdMask
