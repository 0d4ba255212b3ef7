import Mathlib
import ThresholdMask.Proofs.Agreement
import ThresholdMask.Proofs.Failures

/-!
# Whom a failure blames

A failure of unmasking may name a party. If the bundles that come first in roster order, as many as
unmask, are untouched bundles of one masking run, then the party that is named has put in another
bundle than its own (`Masker.unmask_blames`), whatever the parties further down the roster have put
in and in whatever order shares are visited.

The first bundles lead every comparison, and their shares fix every polynomial. So the checks that
compare contributions accept all that is honest, and the polynomial through the first shares is the
one that was dealt; what does not pass deviates from what was dealt. The order of visiting decides
which share is found first of several that are no residues, and none of these was dealt.
-/

namespace ThresholdMask

/-! ## Deviating contributions -/

section Deviating

variable {α β : Type} {honest cs : List (PartyId × α)} {p : PartyId}

/-- The party makes a contribution that is not among the honest ones. -/
def Deviates (honest cs : List (PartyId × α)) (p : PartyId) : Prop :=
  ∃ a, (p, a) ∈ cs ∧ (p, a) ∉ honest

theorem Deviates.formed {form : α → β} (injective : form.Injective) (h : Deviates honest cs p) :
    Deviates (ThresholdMask.formed form honest) (ThresholdMask.formed form cs) p := by
  obtain ⟨a, member, other⟩ := h
  refine ⟨form a, mem_formed.mpr ⟨a, member, rfl⟩, fun genuine => ?_⟩
  obtain ⟨b, there, same⟩ := mem_formed.mp genuine
  exact other (injective same ▸ there)

theorem Deviates.of_formed {form : α → β}
    (h : Deviates (ThresholdMask.formed form honest) (ThresholdMask.formed form cs) p) :
    Deviates honest cs p := by
  obtain ⟨b, member, other⟩ := h
  obtain ⟨a, there, same⟩ := mem_formed.mp member
  exact ⟨a, there, fun genuine => other (mem_formed.mpr ⟨a, genuine, same⟩)⟩

/-- Where a part is not the honest one, neither is the whole. -/
theorem Deviates.of_partsOf {part : α → Option β}
    (h : Deviates (partsOf part honest) (partsOf part cs) p) : Deviates honest cs p := by
  obtain ⟨b, member, other⟩ := h
  obtain ⟨a, there, found⟩ := mem_partsOf.mp member
  exact ⟨a, there, fun genuine => other (mem_partsOf.mpr ⟨a, genuine, found⟩)⟩

end Deviating

/-- The failures that name a guilty party. -/
inductive Blames (guilty : PartyId → Prop) : UnmaskError → Prop
  | typeMismatch {p : PartyId} (path : Path) (expected found : MaskedForm) (h : guilty p) :
      Blames guilty (.typeMismatch path p expected found)
  | inconsistency {p : PartyId} (path : Path) (h : guilty p) :
      Blames guilty (.inconsistency path p)
  | corruption {p : PartyId} (path : Path) (h : guilty p) :
      Blames guilty (.corruption path (some p))

theorem Blames.mono {guilty guilty' : PartyId → Prop} {e : UnmaskError} (h : Blames guilty e)
    (imp : ∀ p, guilty p → guilty' p) : Blames guilty' e := by
  cases h with
  | typeMismatch path expected found h => exact .typeMismatch path expected found (imp _ h)
  | inconsistency path h => exact .inconsistency path (imp _ h)
  | corruption path h => exact .corruption path (imp _ h)

theorem FailsOnly.blames_mono {α : Type} {x : Except UnmaskError α}
    {guilty guilty' : PartyId → Prop} (h : FailsOnly (Blames guilty) x)
    (imp : ∀ p, guilty p → guilty' p) : FailsOnly (Blames guilty') x :=
  h.mono fun _ blames => blames.mono imp

/-- A check that accepts all that is honest, and blames the party that it refuses, blames nobody
else. -/
theorem failsOnly_of_accepts {α : Type} {check : PartyId → α → Except UnmaskError Unit}
    {honest cs others : List (PartyId × α)} (part : others ⊆ cs)
    (accepts : ∀ c ∈ honest, check c.1 c.2 = .ok ())
    (blames : ∀ c ∈ others, Deviates honest cs c.1 →
      FailsOnly (Blames (Deviates honest cs)) (check c.1 c.2)) :
    FailsOnly (Blames (Deviates honest cs)) (eachContribution check others) := by
  refine .eachContribution fun c member => ?_
  by_cases genuine : c ∈ honest
  · rw [accepts c genuine]
    exact .ok ()
  · exact blames c member ⟨c.2, part member, genuine⟩

/-! ## Honest shares first -/

theorem filterMap_lookup_of_sublist {α : Type} {parties : List PartyId}
    (nodup : parties.Nodup) {entries : List (PartyId × α)}
    (inOrder : (entries.map (·.1)).Sublist parties) :
    parties.filterMap (fun p => (entries.lookup p).map (p, ·)) = entries := by
  induction parties generalizing entries with
  | nil => rw [List.map_eq_nil_iff.mp (List.sublist_nil.mp inOrder), List.filterMap_nil]
  | cons p rest ih =>
    obtain ⟨fresh, nodup⟩ := List.nodup_cons.mp nodup
    by_cases first : ∃ a others, entries = (p, a) :: others
    · obtain ⟨a, others, rfl⟩ := first
      have later : ∀ q ∈ rest, (((p, a) :: others).lookup q).map (q, ·) =
          (others.lookup q).map (q, ·) := by
        intro q member
        have differ : (q == p) = false := by
          rw [beq_eq_false_iff_ne]
          exact fun same => fresh (same ▸ member)
        rw [List.lookup_cons, differ]
      rw [List.filterMap_cons_some (b := (p, a)) (by rw [List.lookup_cons_self]; rfl),
        List.filterMap_congr later, ih nodup (List.cons_sublist_cons.mp inOrder)]
    · -- the first party has no entry, as the entries' parties are all further down
      have behind : (entries.map (·.1)).Sublist rest := by
        cases entries with
        | nil => exact List.nil_sublist rest
        | cons e others =>
          refine List.Sublist.of_cons_of_ne (fun same => first ⟨e.2, others, ?_⟩) inOrder
          rw [← same]
      have absent : entries.lookup p = none := by
        rw [List.lookup_eq_none_iff]
        intro e member
        rw [bne_iff_ne]
        exact fun same => fresh (same ▸ behind.subset (List.mem_map_of_mem member))
      rw [List.filterMap_cons_none (by rw [absent]; rfl), ih nodup behind]

namespace Sharer

variable {s : Sharer}

/-- Shares that are listed in roster order make points in this order. -/
theorem map_pointsOf (s : Sharer) {shares : PartyShares}
    (inOrder : (shares.entries.map (·.1)).Sublist s.roster.parties) :
    (s.pointsOf shares).map (fun pt => (pt.1, pt.2.2)) = shares.entries := by
  have listed := filterMap_lookup_of_sublist s.roster.nodup inOrder
  rw [← Roster.map_fst_points, List.filterMap_map] at listed
  rw [pointsOf, List.map_filterMap]
  conv => rhs; rw [← listed]
  congr 1
  funext e
  show Option.map _ (Option.map _ (shares.get? e.1)) = Option.map _ (shares.get? e.1)
  rw [Option.map_map]
  rfl

/-- Shares of enough parties, of which those that come first in the roster are honest, fail to give
a secret only for a share that is not honest, and its party is named, in whatever order the shares
are visited. -/
theorem exists_deviates_of_reconstruct [Fact s.field.modulus.Prime]
    (fits : s.roster.size < s.field.modulus) {shares visited : PartyShares}
    (perm : visited.entries.Perm shares.entries) {honest : List (PartyId × Nat)} {secret : Nat}
    (consistent : s.Consistent honest secret)
    (inOrder : (shares.entries.map (·.1)).Sublist s.roster.parties)
    (enough : s.threshold ≤ shares.size) (lowest : shares.entries.take s.threshold ⊆ honest)
    {e : ReconstructError} (failed : s.reconstruct visited = .error e) :
    ∃ p, Deviates honest shares.entries p ∧ (e = .corruption p ∨ e = .invalidShare p) := by
  obtain ⟨g, low, on, -⟩ := consistent
  have value : ∀ pt ∈ s.pointsOf shares, (pt.1, pt.2.2) ∈ honest →
      g.eval (pt.2.1 : s.field.Residue) = pt.2.2 := by
    intro pt point genuine
    obtain ⟨-, x, found, value⟩ := on _ genuine
    obtain rfl : x = pt.2.1 := Option.some.inj (found.symm.trans (mem_pointsOf.mp point).1)
    exact value
  -- points come in roster order, so that only an entry at fault depends on the order of the visit
  have points : s.pointsOf visited = s.pointsOf shares := pointsOf_eq_of_perm perm
  have size : visited.size = shares.size := perm.length_eq
  have verdict := s.verdict_reconstruct visited
  rw [failed] at verdict
  cases verdict with
  | insufficient few => exact absurd (size ▸ enough) (not_le.mpr few)
  | @unsound entry _ first =>
    obtain ⟨visitedEntry, unsound⟩ := mem_of_firstUnsound? first
    have member : entry ∈ shares.entries := perm.mem_iff.mp visitedEntry
    have onRoster : entry.1 ∈ s.roster.parties := inOrder.subset (List.mem_map_of_mem member)
    refine ⟨entry.1, ⟨entry.2, member, fun genuine => ?_⟩, .inr ?_⟩
    · exact unsound ⟨onRoster, (on entry genuine).1⟩
    · rw [fault, if_pos onRoster]
  | colliding _ _ collide => exact absurd (apart_base fits visited) collide
  | @corrupted f pt enough' sound apart through first =>
    have listed : (s.base visited).map (fun pt => (pt.1, pt.2.2)) =
        shares.entries.take s.threshold := by
      rw [base, List.map_take, points, s.map_pointsOf inOrder]
    -- the polynomial through the first shares is the one that was dealt
    have dealt : s.Fits g (s.base visited) := by
      refine ⟨low, fun pt member => value pt (points ▸ List.mem_of_mem_take member) (lowest ?_)⟩
      rw [← listed]
      exact List.mem_map_of_mem (f := fun pt => (pt.1, pt.2.2)) member
    obtain rfl : f = g := (existsUnique_fits_base enough' sound apart).unique through dealt
    have point : pt ∈ s.pointsOf shares :=
      points ▸ List.mem_of_mem_drop (List.mem_of_find?_eq_some first)
    have off : ¬f.eval (pt.2.1 : s.field.Residue) = pt.2.2 := by
      simpa using List.find?_some first
    exact ⟨pt.1, ⟨pt.2.2, (mem_pointsOf.mp point).2, mt (value pt point) off⟩, .inl rfl⟩

end Sharer

/-! ## Honest contributions first -/

namespace Masker

variable {m : Masker} {visit : VisitOrder}

/-- The contributions come in roster order, and the first ones, as many as unmask, are honest. -/
structure HonestBase (m : Masker) {α : Type} (honest cs : List (PartyId × α)) : Prop where
  inOrder : (cs.map (·.1)).Sublist m.roster.parties
  lowest : ∃ base others, cs = base ++ others ∧ base.length = m.threshold ∧ base ⊆ honest

section HonestBase

variable {α β : Type} {honest cs : List (PartyId × α)}

/-- There are enough honest contributions. -/
theorem HonestBase.exists_quorum (h : m.HonestBase honest cs) :
    ∃ base, m.Enough base ∧ base ⊆ cs ∧ base ⊆ honest := by
  obtain ⟨inOrder, base, others, rfl, length, genuine⟩ := h
  have sublist : (base.map (·.1)).Sublist m.roster.parties :=
    ((List.sublist_append_left base others).map _).trans inOrder
  refine ⟨base, ⟨sublist.nodup m.roster.nodup, sublist.subset, ?_⟩, ?_, genuine⟩
  · rw [List.length_map, length]
  · exact List.subset_append_left base others

theorem HonestBase.enough (h : m.HonestBase honest cs) : m.Enough cs := by
  refine ⟨h.inOrder.nodup m.roster.nodup, h.inOrder.subset, ?_⟩
  obtain ⟨-, base, others, rfl, length, -⟩ := h
  rw [List.length_map, List.length_append, length]
  exact Nat.le_add_right _ _

theorem HonestBase.head {c : PartyId × α} {others : List (PartyId × α)}
    (h : m.HonestBase honest (c :: others)) : c ∈ honest := by
  obtain ⟨-, base, later, split, length, genuine⟩ := h
  cases base with
  | nil => cases length
  | cons first rest =>
    rw [(List.cons.inj split).1]
    exact genuine List.mem_cons_self

theorem HonestBase.of_formed {form : α → β} (injective : form.Injective)
    (h : m.HonestBase (formed form honest) (formed form cs)) : m.HonestBase honest cs := by
  obtain ⟨inOrder, base, others, split, length, genuine⟩ := h
  rw [map_fst_formed] at inOrder
  obtain ⟨base', others', rfl, rfl, -⟩ := List.map_eq_append_iff.mp split
  refine ⟨inOrder, base', others', rfl, ?_, formed_subset injective genuine⟩
  rwa [List.length_map] at length

theorem HonestBase.formed (form : α → β) (h : m.HonestBase honest cs) :
    m.HonestBase (ThresholdMask.formed form honest) (ThresholdMask.formed form cs) := by
  obtain ⟨inOrder, base, others, rfl, length, genuine⟩ := h
  refine ⟨by rwa [map_fst_formed], _, _, List.map_append, ?_, formed_mono form genuine⟩
  rwa [List.length_map]

/-- Parts that every contribution has. -/
theorem HonestBase.partsOf {part : α → Option β} (h : m.HonestBase honest cs)
    (whole : ∀ c ∈ cs, (part c.2).isSome) :
    m.HonestBase (ThresholdMask.partsOf part honest) (ThresholdMask.partsOf part cs) := by
  obtain ⟨inOrder, base, others, rfl, length, genuine⟩ := h
  refine ⟨by rwa [map_fst_partsOf whole], _, _, List.filterMap_append, ?_,
    partsOf_mono part genuine⟩
  have parties := map_fst_partsOf fun c member => whole c (List.mem_append_left others member)
  have same := congrArg List.length parties
  rw [List.length_map, List.length_map, length] at same
  exact same

end HonestBase

/-! ## Secret leaves -/

variable {path : Path}

/-- Shares of which the first are honest give the honest secret or blame a party. -/
theorem failsOnly_reconstructAt_bind (fits : m.RosterFits) (kind : ScalarKind)
    {honest shares : List (PartyId × Nat)} (base : m.HonestBase honest shares) {secret : Nat}
    (consistent : (m.sharer (m.fieldOf kind)).Consistent honest secret) {α : Type}
    {next : Nat → Except UnmaskError α} {position : Nat}
    (onward : FailsOnly (Blames (Deviates honest shares)) (next secret)) :
    FailsOnly (Blames (Deviates honest shares))
      (m.reconstructAt visit path position (m.fieldOf kind) shares >>= next) := by
  refine .bind (.mapError fun e failed => ?_) fun secret' reconstructed => ?_
  · have entries := PartyShares.entries_ofList base.enough.nodup
    obtain ⟨inOrder, lowest, others, split, length, genuine⟩ := base
    have size : m.threshold ≤ (PartyShares.ofList shares).size := by
      rw [PartyShares.size, entries, split, List.length_append, length]
      exact Nat.le_add_right _ _
    have first : (PartyShares.ofList shares).entries.take m.threshold ⊆ honest := by
      rw [entries, split, List.take_left' length]
      exact genuine
    rw [← entries] at inOrder
    obtain ⟨p, deviates, named⟩ :=
      Sharer.exists_deviates_of_reconstruct (s := m.sharer (m.fieldOf kind)) (fits kind)
        (visit.perm_arrange ..) consistent inOrder size first failed
    rw [entries] at deviates
    rcases named with rfl | rfl
    · exact .corruption path deviates
    · exact .corruption path deviates
  · -- the first shares are honest, and they fix the secret
    obtain ⟨lowest, quorum, part, genuine⟩ := base.exists_quorum
    have opened := ((reconstructAt_eq_ok fits kind base.enough).mp reconstructed).of_subset part
    rw [quorum.secret_eq fits kind opened consistent genuine]
    exact onward

theorem failsOnly_unmaskScalar_honest (fits : m.RosterFits) {v : SecretScalar}
    {honest shares : List (PartyId × Nat)} (base : m.HonestBase honest shares) {secret : Nat}
    (consistent : (m.sharer (m.fieldOf v.kind)).Consistent honest secret)
    (decoded : v.DecodedFrom (m.fieldOf v.kind) secret) :
    FailsOnly (Blames (Deviates honest shares)) (m.unmaskScalar visit path v.kind shares) := by
  refine failsOnly_reconstructAt_bind fits v.kind base consistent ?_
  have opened : decodeScalarAt path (m.fieldOf v.kind) v.kind secret = .ok v :=
    (decodeScalarAt_eq_ok_iff (m.odd_fieldOf v.kind) consistent.lt).mpr ⟨rfl, decoded⟩
  rw [opened]
  exact .ok v

theorem failsOnly_unmaskChunk_honest (fits : m.RosterFits) {bytes chunk : Bytes} {i : Nat}
    (found : (bytes.chunks m.chunkSize)[i]? = some chunk)
    {honest blobs : List (PartyId × BlobShares)} (base : m.HonestBase honest blobs)
    (whole : ∀ c ∈ blobs, i < c.2.chunks.length)
    (consistent : (m.sharer m.field).Consistent (partsOf (·.chunks[i]?) honest) chunk.toNatLE) :
    FailsOnly (Blames (Deviates honest blobs)) (m.unmaskChunk visit path bytes.length blobs i) := by
  have parts : m.HonestBase (partsOf (·.chunks[i]?) honest) (partsOf (·.chunks[i]?) blobs) :=
    base.partsOf fun c member =>
      Option.isSome_iff_exists.mpr ⟨_, List.getElem?_eq_getElem (whole c member)⟩
  have opened : m.field.decodeChunk chunk.toNatLE
      (min m.chunkSize (bytes.length - m.chunkSize * i)) = .ok chunk :=
    PrimeField.decodeChunk_eq_ok.mpr ⟨Bytes.length_of_getElem?_chunks found, rfl⟩
  have fails : FailsOnly (Blames (Deviates (partsOf (·.chunks[i]?) honest)
      (partsOf (·.chunks[i]?) blobs))) (m.unmaskChunk visit path bytes.length blobs i) := by
    refine failsOnly_reconstructAt_bind fits .integer parts consistent ?_
    dsimp only
    rw [opened]
    exact .ok chunk
  exact fails.blames_mono fun _ => Deviates.of_partsOf

theorem failsOnly_unmaskBlob_honest (fits : m.RosterFits) {bytes : Bytes}
    {columns : List (PartyId × List Nat)}
    (coherent : m.CoherentChunks (bytes.chunks m.chunkSize) columns) {p : PartyId}
    {first : BlobShares} {others : List (PartyId × BlobShares)}
    (base : m.HonestBase (formed (BlobShares.mk · bytes.length) columns) ((p, first) :: others)) :
    FailsOnly (Blames (Deviates (formed (BlobShares.mk · bytes.length) columns)
        ((p, first) :: others)))
      (m.unmaskBlob visit path p first others) := by
  obtain ⟨lengths, consistent⟩ := coherent
  have shape : ∀ c ∈ formed (BlobShares.mk · bytes.length) columns,
      c.2.chunks.length = Bytes.chunkCount bytes.length m.chunkSize ∧
        c.2.byteLength = bytes.length := by
    intro c member
    obtain ⟨column, there, form⟩ := mem_formed.mp member
    rw [form, ← Bytes.length_chunks]
    exact ⟨lengths _ there, rfl⟩
  obtain ⟨count, size⟩ := shape (p, first) base.head
  unfold unmaskBlob
  dsimp only at count size ⊢
  rw [size, if_neg (not_not.mpr count)]
  refine .bind (failsOnly_of_accepts (List.subset_cons_self _ _) ?_ ?_) fun _ agree => ?_
  · intro c genuine
    rw [count]
    exact if_pos (shape c genuine)
  · intro c _ deviates
    exact .ite_error (fun _ => .ok ()) fun _ => .typeMismatch path _ _ deviates
  · rw [← size] at count agree
    have whole := length_chunks_of_agree p count agree
    refine .bind (.mapM fun i inside => ?_) fun chunks _ => .ok _
    have bound : i < (bytes.chunks m.chunkSize).length := by
      rw [Bytes.length_chunks]
      exact List.mem_range.mp inside
    have found := List.getElem?_eq_getElem bound
    refine failsOnly_unmaskChunk_honest fits found base ?_ ?_
    · intro c member
      rw [whole c member, size, ← Bytes.length_chunks]
      exact bound
    · rw [partsOf_comp]
      exact consistent i _ found

/-! ## Values -/

variable {honest : List Contribution} {p : PartyId} {others : List Contribution}

/-- The kinds of honest contributions are that of the value. -/
theorem failsOnly_checkKinds_honest {v : Value} (coherent : m.Coherent v honest)
    {first : MaskedValue} (genuine : (p, first) ∈ honest) :
    FailsOnly (Blames (Deviates honest ((p, first) :: others)))
      (checkKinds path first.type others) := by
  refine failsOnly_of_accepts (List.subset_cons_self _ _) ?_ ?_
  · intro c member
    rw [coherent.type_eq c member, coherent.type_eq _ genuine]
    exact if_pos (ValueType.sameKind_refl _)
  · intro c _ deviates
    exact .ite_error (fun _ => .ok ()) fun _ => .typeMismatch path _ _ deviates

/-- What parties contribute to the value, if those that come first contribute what was dealt to
them, fails to be unmasked only by blaming a party that deviates. -/
def BlamesDeviating (m : Masker) (visit : VisitOrder) (v : Value) : Prop :=
  ∀ {path : Path} {p : PartyId} {first : MaskedValue} {others honest : List Contribution},
    m.Coherent v honest → m.HonestBase honest ((p, first) :: others) →
      FailsOnly (Blames (Deviates honest ((p, first) :: others)))
        (m.unmaskValue visit path p first others)

theorem blamesDeviating_publicLeaf (leaf : PublicLeaf) :
    m.BlamesDeviating visit (.publicLeaf leaf) := by
  intro path p first others honest coherent base
  have kinds : FailsOnly _ (checkKinds path first.type others) :=
    failsOnly_checkKinds_honest coherent base.head
  unfold Coherent at coherent
  obtain rfl : first = .publicLeaf leaf := coherent _ base.head
  rw [unmaskValue]
  refine .bind kinds fun _ _ => ?_
  refine .bind (failsOnly_of_accepts (List.subset_cons_self _ _) ?_ ?_) fun _ _ => .ok _
  · exact fun c member => if_pos (coherent c member)
  · intro c _ deviates
    exact .ite_error (fun _ => .ok ()) fun _ => .inconsistency path deviates

theorem blamesDeviating_scalar (fits : m.RosterFits) (v : SecretScalar) :
    m.BlamesDeviating visit (.secretLeaf (.scalar v)) := by
  intro path p first others honest coherent base
  let form (y : Nat) : MaskedValue := .secretLeaf (.scalar v.kind y)
  have injective : form.Injective := fun y z h => by simpa [form] using h
  have kinds : FailsOnly _ (checkKinds path first.type others) :=
    failsOnly_checkKinds_honest coherent base.head
  unfold Coherent at coherent
  obtain ⟨dealt, secret, rfl, consistent, decoded⟩ := coherent
  obtain ⟨y, -, rfl⟩ := mem_formed.mp base.head
  rw [unmaskValue]
  refine .bind kinds fun _ checked => ?_
  obtain ⟨shares, rfl⟩ := checkKinds_scalar_eq_ok.mp checked
  have within : m.HonestBase dealt ((p, y) :: shares) := base.of_formed injective
  rw [partsOf_scalars]
  refine .bind ?_ fun _ _ => .ok _
  exact (failsOnly_unmaskScalar_honest fits within consistent decoded).blames_mono fun _ =>
    Deviates.formed injective

theorem blamesDeviating_blob (fits : m.RosterFits) (bytes : Bytes) :
    m.BlamesDeviating visit (.secretLeaf (.blob bytes)) := by
  intro path p first others honest coherent base
  let form (b : BlobShares) : MaskedValue := .secretLeaf (.blob b)
  have injective : form.Injective := fun b c h => by simpa [form] using h
  have kinds : FailsOnly _ (checkKinds path first.type others) :=
    failsOnly_checkKinds_honest coherent base.head
  unfold Coherent at coherent
  obtain ⟨columns, same, chunks⟩ := coherent
  rw [← formed_comp (BlobShares.mk · bytes.length) form] at same
  subst same
  obtain ⟨blob, -, rfl⟩ := mem_formed.mp base.head
  rw [unmaskValue]
  refine .bind kinds fun _ checked => ?_
  obtain ⟨blobs, rfl⟩ := checkKinds_blob_eq_ok.mp checked
  have within : m.HonestBase _ ((p, blob) :: blobs) := base.of_formed injective
  rw [partsOf_blobs]
  refine .bind ?_ fun _ _ => .ok _
  exact (failsOnly_unmaskBlob_honest fits chunks within).blames_mono fun _ =>
    Deviates.formed injective

theorem blamesDeviating_array {inner : ValueType} {elements : List Value}
    (each : ∀ v ∈ elements, m.BlamesDeviating visit v) :
    m.BlamesDeviating visit (.array inner elements) := by
  intro path p first others honest coherent base
  let form (column : List MaskedValue) : MaskedValue := .array inner column
  have injective : form.Injective := fun a b h => (ValueTree.array.inj h).2
  have kinds : FailsOnly _ (checkKinds path first.type others) :=
    failsOnly_checkKinds_honest coherent base.head
  unfold Coherent at coherent
  obtain ⟨dealt, rfl, shape, coherent⟩ := coherent
  obtain ⟨own, genuine, rfl⟩ := mem_formed.mp base.head
  obtain ⟨length, types⟩ := shape _ genuine
  rw [unmaskValue]
  refine .bind kinds fun _ _ => ?_
  rw [checkElements_eq_ok.mpr types]
  refine .bind (.ok ()) fun _ _ => ?_
  refine .bind (failsOnly_of_accepts (List.subset_cons_self _ _) ?_ ?_) fun _ checked => ?_
  · intro c member
    obtain ⟨column, there, same⟩ := mem_formed.mp member
    obtain ⟨long, types⟩ := shape _ there
    exact checkColumn_eq_ok.mpr ⟨column, same, long.trans length.symm, types⟩
  · intro c _ deviates
    exact failsOnly_checkColumn fun expected found => .typeMismatch path expected found deviates
  · obtain ⟨columns, rfl, alike⟩ := checkColumns_eq_ok.mp checked
    have within : m.HonestBase dealt ((p, own) :: columns) := base.of_formed injective
    rw [partsOf_columns, unmaskElements_eq_mapM]
    refine .bind (.mapM fun i _ => ?_) fun _ _ => .ok _
    -- every contribution has an element at the index, and the honest ones are those of one value
    have long : ∀ c ∈ (p, own) :: columns, (c.2[i.val]?).isSome := by
      rw [List.forall_mem_cons]
      refine ⟨by simp, fun c member => ?_⟩
      simp [(alike c member).1]
    have row : partsOf (fun column => column[i.val]?) ((p, own) :: columns) =
        (p, own[i]) :: partsOf (fun column => column[i.val]?) columns :=
      partsOf_cons_some (a := own) (List.getElem?_eq_getElem i.isLt) columns
    have inside : i.val < elements.length := length ▸ i.isLt
    have found : elements[i.val]? = some elements[i.val] := List.getElem?_eq_getElem inside
    have rowBase : m.HonestBase (partsOf (fun column => column[i.val]?) dealt)
        (partsOf (fun column => column[i.val]?) ((p, own) :: columns)) := within.partsOf long
    rw [row] at rowBase
    have fails : FailsOnly _ (m.unmaskValue visit (path.index i) p own[i] _) :=
      each _ (List.mem_of_getElem? found) (coherent.getElem? found) rowBase
    rw [← row] at fails
    rw [Nat.zero_add]
    exact fails.blames_mono fun _ deviates => deviates.of_partsOf.formed injective

theorem blamesDeviating_tuple {left right : Value} (onLeft : m.BlamesDeviating visit left)
    (onRight : m.BlamesDeviating visit right) : m.BlamesDeviating visit (.tuple left right) := by
  intro path p first others honest coherent base
  let form (s : MaskedValue × MaskedValue) : MaskedValue := .tuple s.1 s.2
  have injective : form.Injective := fun a b h =>
    Prod.ext (ValueTree.tuple.inj h).1 (ValueTree.tuple.inj h).2
  have kinds : FailsOnly _ (checkKinds path first.type others) :=
    failsOnly_checkKinds_honest coherent base.head
  unfold Coherent at coherent
  obtain ⟨dealt, rfl, lefts, rights⟩ := coherent
  obtain ⟨own, -, rfl⟩ := mem_formed.mp base.head
  rw [unmaskValue]
  refine .bind kinds fun _ checked => ?_
  obtain ⟨sides, rfl⟩ := checkKinds_tuple_eq_ok.mp checked
  have within : m.HonestBase dealt ((p, own) :: sides) := base.of_formed injective
  rw [partsOf_lefts, partsOf_rights]
  let all := (p, own) :: sides
  have onFst : FailsOnly (Blames (Deviates (formed Prod.fst dealt) (formed Prod.fst all)))
      (m.unmaskValue visit path.left p own.1 (formed Prod.fst sides)) :=
    onLeft lefts (within.formed Prod.fst)
  have onSnd : FailsOnly (Blames (Deviates (formed Prod.snd dealt) (formed Prod.snd all)))
      (m.unmaskValue visit path.right p own.2 (formed Prod.snd sides)) :=
    onRight rights (within.formed Prod.snd)
  refine .bind (onFst.blames_mono fun _ deviates => ?_) fun _ _ => ?_
  · exact deviates.of_formed.formed injective
  · refine .bind (onSnd.blames_mono fun _ deviates => ?_) fun _ _ => .ok _
    exact deviates.of_formed.formed injective

/-- **Blame for a value.** Whatever the value, only parties that deviate are blamed. -/
theorem blamesDeviating (fits : m.RosterFits) (v : Value) : m.BlamesDeviating visit v := by
  induction v using ValueTree.induction with
  | publicLeaf leaf => exact blamesDeviating_publicLeaf leaf
  | secretLeaf secret =>
    cases secret with
    | scalar v => exact blamesDeviating_scalar fits v
    | blob bytes => exact blamesDeviating_blob fits bytes
  | array inner elements each => exact blamesDeviating_array each
  | tuple left right onLeft onRight => exact blamesDeviating_tuple onLeft onRight

/-! ## Jars -/

variable {σ : Type} {S : Sampler σ} {s s' : σ} {values : NamedValues Value}
  {bundles : List (PartyId × Bundle)} {jar : BundleJar}

/-- The party has put in another bundle than its own of a masking run. -/
def Forged (bundles : List (PartyId × Bundle)) (jar : BundleJar) (p : PartyId) : Prop :=
  ∃ bundle own, jar.get? p = some bundle ∧ (p, own) ∈ bundles ∧ (bundle == own) = false

/-- A bundle that is found in the jar and differs under a name from the party's own is forged. -/
theorem forged_of_get?_ne (masked : (m.mask S values).run s = (.ok bundles, s'))
    (roster : jar.roster = m.roster) {bundle : Bundle} (held : (p, bundle) ∈ jar.elements)
    (name : String)
    (differs : ∀ own, (p, own) ∈ bundles → bundle.get? name ≠ own.get? name) :
    Forged bundles jar p := by
  have onRoster : p ∈ bundles.map (·.1) := by
    rw [map_fst_of_mask masked, ← roster]
    exact jar.map_fst_elements_sublist.subset (List.mem_map_of_mem (f := (·.1)) held)
  obtain ⟨⟨_, own⟩, dealt, rfl⟩ := List.mem_map.mp onRoster
  refine ⟨bundle, own, PartyJar.mem_elements.mp held, dealt, ?_⟩
  rw [Bool.eq_false_iff]
  exact fun equal => differs own dealt (NamedValues.get?_eq_of_beq equal name)

theorem forged_of_deviates (masked : (m.mask S values).run s = (.ok bundles, s'))
    (roster : jar.roster = m.roster) {name : String}
    (deviates : Deviates (partsOf (·.get? name) bundles) (partsOf (·.get? name) jar.elements) p) :
    Forged bundles jar p := by
  obtain ⟨v, member, other⟩ := deviates
  obtain ⟨bundle, held, found⟩ := mem_partsOf.mp member
  refine forged_of_get?_ne masked roster held name fun own dealt same => ?_
  exact other (mem_partsOf.mpr ⟨own, dealt, same.symm.trans found⟩)

/-- The failures of a jar that blame a forged bundle, or a name that was not masked. -/
inductive Traced (values : NamedValues Value) (bundles : List (PartyId × Bundle))
    (jar : BundleJar) : UnmaskError → Prop
  | blames {e : UnmaskError} (h : Blames (Forged bundles jar) e) : Traced values bundles jar e
  | missingParty {name : String} {p : PartyId}
      (h : Forged bundles jar p ∨ name ∉ values.names) :
      Traced values bundles jar (.missingParty (some name) p)

theorem failsOnly_checkNames_traced (masked : (m.mask S values).run s = (.ok bundles, s'))
    (roster : jar.roster = m.roster) {p q : PartyId} {first bundle : Bundle}
    (genuine : (p, first) ∈ bundles) (held : (q, bundle) ∈ jar.elements) :
    FailsOnly (Traced values bundles jar) (checkNames p first q bundle) := by
  obtain ⟨names, -⟩ := coherent_of_mask masked (List.Subset.refl bundles)
  refine failsOnly_checkNames (fun name here lacks => ?_) fun name _ lacks => ?_
  · -- the party's own bundle carries every name
    refine .missingParty (.inl (forged_of_get?_ne masked roster held name ?_))
    intro own dealt same
    refine lacks ?_
    rw [← NamedValues.exists_get?, same, NamedValues.exists_get?, names _ dealt]
    exact names _ genuine ▸ here
  · exact .missingParty (.inr (names _ genuine ▸ lacks))

theorem failsOnly_unmaskBundles_traced (fits : m.RosterFits)
    (masked : (m.mask S values).run s = (.ok bundles, s')) (roster : jar.roster = m.roster)
    {p : PartyId} {first : Bundle} {others : List (PartyId × Bundle)}
    (elements : jar.elements = (p, first) :: others)
    (base : m.HonestBase bundles jar.elements) :
    FailsOnly (Traced values bundles jar) (m.unmaskBundles visit p first others) := by
  obtain ⟨names, coherent⟩ := coherent_of_mask masked (List.Subset.refl bundles)
  have genuine : (p, first) ∈ bundles := HonestBase.head (elements ▸ base)
  refine .bind (.eachContribution fun c member => ?_) fun _ checked => ?_
  · refine failsOnly_checkNames_traced masked roster genuine ?_
    rw [elements]
    exact List.mem_cons_of_mem _ member
  · have sameNames := eachContribution_eq_ok.mp checked
    refine .bind (.mapM fun e member => .bind ?_ fun _ _ => .ok _) fun _ _ => .ok _
    have named : e.1 ∈ first.names := List.mem_map_of_mem member
    have carried : ∀ c ∈ jar.elements, e.1 ∈ c.2.names := by
      rw [elements, List.forall_mem_cons]
      exact ⟨named, fun c there => (checkNames_eq_ok.mp (sameNames c there) e.1).mpr named⟩
    obtain ⟨v, masked'⟩ := NamedValues.exists_get?.mpr (names _ genuine ▸ named)
    have within : m.HonestBase (partsOf (·.get? e.1) bundles) (partsOf (·.get? e.1) jar.elements) :=
      base.partsOf fun c there =>
        Option.isSome_iff_exists.mpr (NamedValues.exists_get?.mpr (carried c there))
    have found : first.get? e.1 = some e.2 := NamedValues.mem_toList_iff.mp member
    have parts : partsOf (·.get? e.1) jar.elements = (p, e.2) :: partsOf (·.get? e.1) others := by
      rw [elements]
      exact partsOf_cons_some (a := first) found others
    rw [parts] at within
    have fails : FailsOnly _ (m.unmaskValue visit (Path.ofName e.1) p e.2 _) :=
      blamesDeviating fits v (coherent _ v masked') within
    rw [← parts] at fails
    exact fails.mono fun _ blames => .blames (blames.mono fun _ => forged_of_deviates masked roster)

/-- **Blame.** If the bundles that come first in a jar, as many as unmask, are those of one masking
run, and the other parties put in anything at all, then a failure of unmasking the jar names a party
whose bundle is not its own, or a name that was not masked. This holds in whatever order the shares
of each secret are visited. -/
theorem unmask_blames (fits : m.RosterFits) (masked : (m.mask S values).run s = (.ok bundles, s'))
    (binding : jar.binding = m.fingerprint) (roster : jar.roster = m.roster)
    (enough : m.threshold ≤ jar.size)
    (full : m.options.requireFullRoster = true → jar.size = m.roster.size)
    (genuine : jar.elements.take m.threshold ⊆ bundles) (visit : VisitOrder) {e : UnmaskError}
    (failed : m.unmask jar visit = .error e) :
    Blames (Forged bundles jar) e ∨
      ∃ name p, e = .missingParty (some name) p ∧ (Forged bundles jar p ∨ name ∉ values.names) := by
  have length : (jar.elements.take m.threshold).length = m.threshold := by
    rw [List.length_take, jar.length_elements, min_eq_left enough]
  have base : m.HonestBase bundles jar.elements :=
    ⟨roster ▸ jar.map_fst_elements_sublist, _, _, (List.take_append_drop _ _).symm, length, genuine⟩
  have everyone : m.absent? jar = none := absent?_eq_none_iff.mpr (roster ▸ full)
  obtain ⟨first, others, elements⟩ := List.exists_cons_of_ne_nil
    (List.ne_nil_of_mem base.enough.exists_mem.choose_spec)
  have traced : FailsOnly (Traced values bundles jar)
      (m.unmaskBundles visit first.1 first.2 others) :=
    failsOnly_unmaskBundles_traced fits masked roster elements base
  rw [unmask, if_neg (by simp [binding, roster]), if_neg (not_lt.mpr enough), everyone,
    elements] at failed
  cases traced e failed with
  | blames h => exact .inl h
  | missingParty h => exact .inr ⟨_, _, rfl, h⟩

/-- A jar of the first two parties' bundles, and of one from the last party in which only the flag
is what was dealt. -/
def forgedJar : BundleJar where
  roster := trio.roster
  binding := trio.fingerprint
  slots := [some (trio.bundleAt 1 trioDealings), some (trio.bundleAt 2 trioDealings),
    some (.ofList [("flag", .publicLeaf (.boolean true)),
      ("pair", .tuple (.secretLeaf (.scalar .integer 0)) (.secretLeaf (.blob ⟨[1, 2], 4⟩))),
      ("bits", .array (.secretLeaf (.scalar .boolean)) [])])]
  length_slots := rfl

theorem forgedJar_blames : trio.RosterFits ∧ trio.threshold ≤ forgedJar.size ∧
    forgedJar.elements.take trio.threshold ⊆
      formed (trio.bundleAt · trioDealings) trio.roster.points ∧
    trio.unmask forgedJar = .error (.corruption ⟨"pair", [.left]⟩ (some ⟨[3]⟩)) ∧
    Blames (Forged (formed (trio.bundleAt · trioDealings) trio.roster.points) forgedJar)
      (.corruption ⟨"pair", [.left]⟩ (some ⟨[3]⟩)) := by
  have genuine : forgedJar.elements.take trio.threshold ⊆
      formed (trio.bundleAt · trioDealings) trio.roster.points := by
    have first : forgedJar.elements.take trio.threshold =
        formed (trio.bundleAt · trioDealings) [(⟨[1]⟩, 1), (⟨[2]⟩, 2)] := rfl
    rw [first]
    exact formed_mono _ (by decide)
  have failed : trio.unmask forgedJar = .error (.corruption ⟨"pair", [.left]⟩ (some ⟨[3]⟩)) := by
    have opened : (trio.unmask forgedJar).map NamedValues.toList =
        .error (.corruption ⟨"pair", [.left]⟩ (some ⟨[3]⟩)) := by
      decide +kernel
    exact map_eq_error.mp opened
  have blamed := unmask_blames rosterFits_trio mask_trioValues rfl rfl (by decide) nofun genuine
    .gathered failed
  refine ⟨rosterFits_trio, by decide, genuine, failed, ?_⟩
  rcases blamed with blames | ⟨name, p, other, -⟩
  · exact blames
  · cases other

end Masker
end ThresholdMask
