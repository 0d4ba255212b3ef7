import Mathlib
import ThresholdMask.Proofs.RoundTrip

/-!
# Quorums of a jar agree

A jar may hold anything at all. If it opens, then so does every jar with some of its bundles, as
long as they are enough, and to the same values (`Masker.unmask_parts_agree`): coherence with a
value is a condition on every contribution and on polynomials through the shares, which leaving
contributions out does not touch. Only the order of the names may differ, as it is that of the
bundle that comes first.
-/

namespace ThresholdMask

/-! ## Parts of a jar -/

namespace PartyJar

variable {α : Type}

/-- A jar for the same roster and of the same binding that holds some of the elements. -/
structure PartOf (part jar : PartyJar α) : Prop where
  roster : part.roster = jar.roster
  binding : part.binding = jar.binding
  elements : part.elements ⊆ jar.elements

theorem PartOf.refl (jar : PartyJar α) : jar.PartOf jar := ⟨rfl, rfl, List.Subset.refl _⟩

/-- Taking an element out leaves a part. -/
theorem partOf_remove (jar : PartyJar α) (p : PartyId) : (jar.remove p).2.PartOf jar := by
  refine ⟨jar.roster_remove p, jar.binding_remove p, ?_⟩
  intro e member
  rw [mem_elements, get?_remove] at member
  rw [mem_elements]
  by_cases same : e.1 = p
  · rw [if_pos same] at member
    cases member
  · rwa [if_neg same] at member

/-- A part stays one while elements of other parties are put into the whole. -/
theorem PartOf.addAll {part jar more : PartyJar α} (h : part.PartOf jar)
    {entries : List (PartyId × α)} (fresh : ∀ e ∈ entries, part.get? e.1 = none)
    (added : jar.addAll entries = .ok more) : part.PartOf more := by
  induction entries generalizing jar with
  | nil =>
    cases added
    exact h
  | cons e rest ih =>
    rw [List.forall_mem_cons] at fresh
    by_cases onRoster : e.1 ∈ jar.roster.parties
    · obtain ⟨next, one, roster, binding, found⟩ := add_of_mem onRoster e.2
      rw [PartyJar.addAll, one] at added
      refine ih ⟨h.roster.trans roster.symm, h.binding.trans binding.symm, ?_⟩ fresh.2 added
      intro e' member
      rw [mem_elements, found]
      have differ : e'.1 ≠ e.1 := by
        intro same
        rw [mem_elements, same, fresh.1] at member
        cases member
      rw [if_neg differ]
      exact mem_elements.mp (h.elements member)
    · rw [PartyJar.addAll, add_of_not_mem onRoster] at added
      cases added

end PartyJar

/-! ## The same values under reordered names -/

/-- The values of a collection can be listed in any order of its names. -/
theorem NamedValues.exists_reordered {α : Type} (values : NamedValues α) {names : List String}
    (nodup : names.Nodup) (same : ∀ name, name ∈ names ↔ name ∈ values.names) :
    ∃ reordered : NamedValues α, reordered.names = names ∧
      ∀ name, reordered.get? name = values.get? name := by
  let entries := names.filterMap fun name => (values.get? name).map (name, ·)
  have keys : entries.map (·.1) = names := by
    rw [List.map_filterMap]
    conv => rhs; rw [← List.filterMap_some (l := names)]
    apply List.filterMap_congr
    intro name member
    obtain ⟨v, found⟩ := NamedValues.exists_get?.mpr ((same name).mp member)
    rw [found]
    rfl
  have listed := NamedValues.toList_ofList (l := entries) (keys ▸ nodup)
  refine ⟨.ofList entries, by rw [NamedValues.names, listed, keys], ?_⟩
  intro name
  apply Option.ext
  intro v
  rw [← NamedValues.mem_toList_iff, listed, List.mem_filterMap]
  constructor
  · rintro ⟨name', -, entry⟩
    obtain ⟨v', found, pair⟩ := Option.map_eq_some_iff.mp entry
    obtain ⟨rfl, rfl⟩ := Prod.mk.inj pair
    exact found
  · intro found
    exact ⟨name, (same name).mpr (NamedValues.exists_get?.mp ⟨v, found⟩), by rw [found]; rfl⟩

/-! ## Leaving contributions out -/

/-- Some of consistent shares are consistent with the same secret. -/
theorem Sharer.Consistent.of_subset {s : Sharer} {shares some : List (PartyId × Nat)}
    {secret : Nat} (h : s.Consistent shares secret) (part : some ⊆ shares) :
    s.Consistent some secret := by
  obtain ⟨g, low, on, constant⟩ := h
  exact ⟨g, low, fun share member => on share (part member), constant⟩

namespace Masker

variable {m : Masker}

theorem CoherentElements.of_subset {elements : List Value}
    (each : ∀ v ∈ elements, ∀ {cs some : List Contribution}, m.Coherent v cs → some ⊆ cs →
      m.Coherent v some)
    {columns some : List (PartyId × List MaskedValue)} (h : m.CoherentElements elements columns)
    (part : some ⊆ columns) : m.CoherentElements elements some := by
  induction elements generalizing columns some with
  | nil => exact trivial
  | cons v rest ih =>
    rw [CoherentElements] at h ⊢
    rw [List.forall_mem_cons] at each
    exact ⟨each.1 h.1 (partsOf_mono _ part), ih each.2 h.2 (formed_mono _ part)⟩

/-- Some of coherent contributions are coherent with the same value. -/
theorem Coherent.of_subset {v : Value} : ∀ {cs some : List Contribution},
    m.Coherent v cs → some ⊆ cs → m.Coherent v some := by
  induction v using ValueTree.induction with
  | publicLeaf leaf =>
    intro cs some h part
    unfold Coherent at h ⊢
    exact fun c member => h c (part member)
  | secretLeaf secret =>
    intro cs some h part
    cases secret with
    | scalar v =>
      unfold Coherent at h ⊢
      obtain ⟨shares, secret, rfl, consistent, decoded⟩ := h
      obtain ⟨fewer, within, rfl⟩ := exists_formed_of_subset part
      exact ⟨fewer, secret, rfl, consistent.of_subset within, decoded⟩
    | blob bytes =>
      unfold Coherent at h ⊢
      obtain ⟨columns, rfl, lengths, consistent⟩ := h
      obtain ⟨fewer, within, rfl⟩ := exists_formed_of_subset part
      refine ⟨fewer, rfl, fun c member => lengths c (within member), ?_⟩
      intro i chunk found
      exact (consistent i chunk found).of_subset (partsOf_mono _ within)
  | array inner elements each =>
    intro cs some h part
    unfold Coherent at h ⊢
    obtain ⟨columns, rfl, shape, coherent⟩ := h
    obtain ⟨fewer, within, rfl⟩ := exists_formed_of_subset part
    exact ⟨fewer, rfl, fun c member => shape c (within member), coherent.of_subset each within⟩
  | tuple left right onLeft onRight =>
    intro cs some h part
    unfold Coherent at h ⊢
    obtain ⟨sides, rfl, hl, hr⟩ := h
    obtain ⟨fewer, within, rfl⟩ := exists_formed_of_subset part
    exact ⟨fewer, rfl, onLeft hl (formed_mono _ within), onRight hr (formed_mono _ within)⟩

/-! ## Parts of jars that open -/

variable {jar part : BundleJar} {values : NamedValues Value}

/-- A part with enough bundles of a jar that opens is a jar that opens, to the same values in the
order of its own first bundle. -/
theorem Opens.exists_of_partOf (h : m.Opens jar values)
    (anyQuorum : m.options.requireFullRoster = false) (kept : part.PartOf jar)
    (enough : m.threshold ≤ part.size) :
    ∃ values', m.Opens part values' ∧ ∀ name, values'.get? name = values.get? name := by
  have roster := kept.roster.trans h.roster
  obtain ⟨first, member⟩ := (enough_elements roster enough).exists_mem
  obtain ⟨first, others, elements⟩ := List.exists_cons_of_ne_nil (List.ne_nil_of_mem member)
  have firstIn : first ∈ part.elements := elements ▸ List.mem_cons_self
  obtain ⟨values', names, same⟩ := values.exists_reordered first.2.nodup_names
    (h.sameNames first (kept.elements firstIn))
  refine ⟨values', ⟨kept.binding.trans h.binding, roster, enough, ?_, ?_, ?_, ?_⟩, same⟩
  · intro full
    rw [anyQuorum] at full
    cases full
  · intro e inPart name
    rw [h.sameNames e (kept.elements inPart), names,
      h.sameNames first (kept.elements firstIn)]
  · intro e head
    rw [elements] at head
    rw [← Option.some.inj head, names]
  · intro name v found
    rw [same] at found
    exact (h.coherent name v found).of_subset (partsOf_mono _ kept.elements)

theorem exists_unmask_of_partOf (fits : m.RosterFits)
    (anyQuorum : m.options.requireFullRoster = false) (kept : part.PartOf jar)
    (enough : m.threshold ≤ part.size) (opened : m.unmask jar = .ok values) :
    ∃ values', m.unmask part = .ok values' ∧ ∀ name, values'.get? name = values.get? name := by
  obtain ⟨values', opens, same⟩ :=
    (opens_of_unmask fits opened).exists_of_partOf anyQuorum kept enough
  exact ⟨values', opens.unmask fits, same⟩

/-- **Agreement.** Where any quorum unmasks: if a jar opens, every part with enough bundles opens to
equal values; so parts of a jar that opens never open to different values, and bundles of further
parties never mend a jar that holds enough bundles and does not open. -/
theorem unmask_parts_agree (fits : m.RosterFits)
    (anyQuorum : m.options.requireFullRoster = false) :
    (∀ (jar part : BundleJar) (values : NamedValues Value), part.PartOf jar →
      m.threshold ≤ part.size → m.unmask jar = .ok values →
        ∃ values', m.unmask part = .ok values' ∧ (values' == values) = true) ∧
      (∀ (jar part part' : BundleJar) (all values values' : NamedValues Value),
        part.PartOf jar → part'.PartOf jar → m.unmask jar = .ok all →
          m.unmask part = .ok values → m.unmask part' = .ok values' →
            (values == values') = true) ∧
      ∀ (jar more : BundleJar) (entries : List (PartyId × Bundle)), m.threshold ≤ jar.size →
        (∀ e ∈ entries, jar.get? e.1 = none) → jar.addAll entries = .ok more →
          (∀ values, m.unmask jar ≠ .ok values) → ∀ values, m.unmask more ≠ .ok values := by
  refine ⟨?_, ?_, ?_⟩
  · intro jar part values kept enough opened
    obtain ⟨values', opened', same⟩ := exists_unmask_of_partOf fits anyQuorum kept enough opened
    exact ⟨values', opened', NamedValues.beq_of_get?_eq same⟩
  · intro jar part part' all values values' kept kept' opened openedPart openedPart'
    -- what a part opens to is what the whole jar does, name by name
    have agree : ∀ {part : BundleJar} {values : NamedValues Value}, part.PartOf jar →
        m.unmask part = .ok values → ∀ name, values.get? name = all.get? name := by
      intro part values kept openedPart
      have enough := (opens_of_unmask fits openedPart).enough
      obtain ⟨values', opened', same⟩ :=
        exists_unmask_of_partOf fits anyQuorum kept enough opened
      obtain rfl : values' = values := Except.ok.inj (opened'.symm.trans openedPart)
      exact same
    apply NamedValues.beq_of_get?_eq
    intro name
    rw [agree kept openedPart, agree kept' openedPart']
  · intro jar more entries enough fresh added failed values opened
    have kept : jar.PartOf more := (PartyJar.PartOf.refl jar).addAll fresh added
    obtain ⟨values', opened', -⟩ := exists_unmask_of_partOf fits anyQuorum kept enough opened
    exact failed values' opened'

/-- A jar of all three parties' bundles, of which the second lists its names in another order. -/
def shuffledJar : BundleJar where
  roster := trio.roster
  binding := trio.fingerprint
  slots := [some (trio.bundleAt 1 trioDealings),
    some (.ofList (trio.bundleAt 2 trioDealings).toList.reverse),
    some (trio.bundleAt 3 trioDealings)]
  length_slots := rfl

theorem trio_parts_agree : ∃ values', trio.unmask (shuffledJar.remove ⟨[1]⟩).2 = .ok values' ∧
    (values' == trioValues) = true := by
  refine (unmask_parts_agree rosterFits_trio rfl).1 shuffledJar _ trioValues
    (shuffledJar.partOf_remove _) (by decide) ?_
  exact NamedValues.eq_ok_of_toList (by decide +kernel)

end Masker
end ThresholdMask
