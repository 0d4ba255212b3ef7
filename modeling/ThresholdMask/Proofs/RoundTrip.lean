import Mathlib
import ThresholdMask.Proofs.Dealing
import ThresholdMask.Proofs.FiniteMaps
import ThresholdMask.Proofs.Opening

/-!
# Masking and unmasking

Bundles of one masking run are coherent with the collection that was masked. So any of them that are
enough open to this collection again, in whatever order they are put into a jar
(`Masker.unmask_mask`). And since coherent contributions of enough parties leave no choice, a jar in
which enough parties put in their own bundles opens to nothing else, whatever the others put in
(`Masker.unmask_tampered`).
-/

namespace ThresholdMask

/-! ## Filling a jar -/

namespace PartyJar

variable {α : Type}

/-- Put in elements one after another. -/
def addAll (jar : PartyJar α) : List (PartyId × α) → Except UnknownParty (PartyJar α)
  | [] => .ok jar
  | (p, a) :: rest => do
    let (_, next) ← jar.add p a
    next.addAll rest

/-- Elements of distinct parties of the roster all get into the jar, and nothing else changes. -/
theorem exists_addAll {entries : List (PartyId × α)} (nodup : (entries.map (·.1)).Nodup)
    (jar : PartyJar α) (onRoster : ∀ e ∈ entries, e.1 ∈ jar.roster.parties) :
    ∃ filled, jar.addAll entries = .ok filled ∧ filled.roster = jar.roster ∧
      filled.binding = jar.binding ∧
      ∀ q, filled.get? q = (entries.lookup q).or (jar.get? q) := by
  induction entries generalizing jar with
  | nil => exact ⟨jar, rfl, rfl, rfl, fun _ => rfl⟩
  | cons e rest ih =>
    rw [List.map_cons, List.nodup_cons] at nodup
    rw [List.forall_mem_cons] at onRoster
    obtain ⟨next, added, roster, binding, found⟩ := add_of_mem onRoster.1 e.2
    obtain ⟨filled, others, roster', binding', found'⟩ :=
      ih nodup.2 next (roster ▸ onRoster.2)
    refine ⟨filled, ?_, roster'.trans roster, binding'.trans binding, fun q => ?_⟩
    · rw [addAll, added]
      exact others
    · rw [found', found, lookup_cons_eq_ite]
      by_cases same : q = e.1
      · have absent : rest.lookup e.1 = none := by
          rw [List.lookup_eq_none_iff]
          intro e' member
          have differ : e.1 ≠ e'.1 := fun here =>
            nodup.1 (here ▸ List.mem_map_of_mem (f := (·.1)) member)
          simpa using differ
        simp [same, absent]
      · rw [if_neg same, if_neg same]

/-- A jar that is filled with elements of distinct parties holds just these. -/
theorem exists_filled {entries : List (PartyId × α)} (nodup : (entries.map (·.1)).Nodup)
    {roster : Roster} (onRoster : ∀ e ∈ entries, e.1 ∈ roster.parties)
    (binding : FixedBytes 32) :
    ∃ filled : PartyJar α, (empty roster binding).addAll entries = .ok filled ∧
      filled.roster = roster ∧ filled.binding = binding ∧ filled.elements.Perm entries := by
  obtain ⟨filled, added, sameRoster, sameBinding, found⟩ :=
    exists_addAll nodup (empty roster binding) onRoster
  refine ⟨filled, added, sameRoster, sameBinding, ?_⟩
  have distinct := filled.map_fst_elements_sublist.nodup filled.roster.nodup
  rw [List.perm_ext_iff_of_nodup (List.Nodup.of_map _ distinct) (List.Nodup.of_map _ nodup)]
  intro e
  rw [mem_elements, found, get?_empty, Option.or_none, lookup_eq_some_iff_mem nodup]

end PartyJar

namespace Masker

variable {m : Masker} {σ : Type} {S : Sampler σ} {s s' : σ} {values : NamedValues Value}
  {bundles : List (PartyId × Bundle)}

/-! ## Round trip -/

/-- A jar of this masker that holds only bundles of one run, and enough of them, opens to what was
masked. -/
theorem opens_of_mask (masked : (m.mask S values).run s = (.ok bundles, s')) {jar : BundleJar}
    (binding : jar.binding = m.fingerprint) (roster : jar.roster = m.roster)
    (honest : jar.elements ⊆ bundles) (enough : m.threshold ≤ jar.size)
    (full : m.options.requireFullRoster = true → jar.size = m.roster.size) :
    m.Opens jar values := by
  obtain ⟨names, coherent⟩ := coherent_of_mask masked honest
  refine ⟨binding, roster, enough, full, fun e member name => ?_, fun e first => ?_, coherent⟩
  · rw [names e member]
  · exact names e (List.mem_of_head? first)

/-- **Round trip.** At least as many bundles of a masking run as unmask, from the whole roster where
that is required, fill a jar of the masker in any order, and it opens to the collection that was
masked, with its names in their order. -/
theorem unmask_mask (fits : m.RosterFits)
    (masked : (m.mask S values).run s = (.ok bundles, s'))
    {contributions : List (PartyId × Bundle)} (chosen : contributions.Subperm bundles)
    (enough : m.threshold ≤ contributions.length)
    (full : m.options.requireFullRoster = true → contributions.length = m.roster.size) :
    ∃ jar, m.buildJar.addAll contributions = .ok jar ∧ m.unmask jar = .ok values := by
  have parties := map_fst_of_mask masked
  have nodup : (contributions.map (·.1)).Nodup := by
    obtain ⟨sublist, perm, inOrder⟩ := chosen
    have distinct := (inOrder.map (·.1)).nodup (parties ▸ m.roster.nodup)
    exact (perm.map (·.1)).nodup_iff.mp distinct
  have onRoster : ∀ e ∈ contributions, e.1 ∈ m.roster.parties := by
    intro e member
    rw [← parties]
    exact List.mem_map_of_mem (chosen.subset member)
  obtain ⟨jar, added, roster, binding, holds⟩ :=
    PartyJar.exists_filled nodup onRoster m.fingerprint
  have size : jar.size = contributions.length := by
    rw [← jar.length_elements, holds.length_eq]
  refine ⟨jar, added, (opens_of_mask masked binding roster ?_ ?_ ?_).unmask fits⟩
  · exact fun e member => chosen.subset (holds.subset member)
  · rwa [size]
  · rwa [size]

/-- A collection with a leaf of every sort. -/
def trioValues : NamedValues Value := .ofList
  [("flag", .publicLeaf (.boolean true)),
    ("pair", .tuple (.secretLeaf (.scalar (.integer (-5)))) (.secretLeaf (.blob [0, 1, 2, 0]))),
    ("bits", .array (.secretLeaf (.scalar .boolean))
      [.secretLeaf (.scalar (.boolean true)), .secretLeaf (.scalar (.boolean false))])]

/-- What is dealt for the collection if the coefficients three, one, four and one are drawn. -/
def trioDealings : List (String × Dealing) :=
  [("flag", .publicLeaf (.boolean true)),
    ("pair", .tuple (.secretLeaf (.scalar .integer [0xffffffffc01ffffe, 3]))
      (.secretLeaf (.blob [[0x20100, 1]] 4))),
    ("bits", .array (.secretLeaf (.scalar .boolean))
      [.secretLeaf (.scalar .boolean [1, 4]), .secretLeaf (.scalar .boolean [0, 1])])]

theorem mask_trioValues : (trio.mask Sampler.tape trioValues).run [3, 1, 4, 1] =
    (.ok (formed (trio.bundleAt · trioDealings) trio.roster.points), []) := by
  have dealt : @Eq (Except MaskError (List (String × Dealing)) × List Nat)
      ((trio.deal Sampler.tape trioValues).run [3, 1, 4, 1]) (.ok trioDealings, []) := by
    decide +kernel
  exact mask_of_deal dealt

theorem trio_roundTrip : ∃ jar, trio.buildJar.addAll
    (formed (trio.bundleAt · trioDealings) [(⟨[3]⟩, 3), (⟨[1]⟩, 1)]) = .ok jar ∧
      trio.unmask jar = .ok trioValues := by
  refine unmask_mask rosterFits_trio mask_trioValues ?_ (by decide) (by decide)
  exact formed_subperm _ (by decide)

/-! ## Tampering -/

/-- The elements of parties that put in their own bundles, as long as they are enough. -/
theorem exists_honest {jar : BundleJar} (roster : jar.roster = m.roster) {parties : Finset PartyId}
    (enough : m.threshold ≤ parties.card)
    (own : ∀ p ∈ parties, ∃ bundle, (p, bundle) ∈ bundles ∧ jar.get? p = some bundle) :
    ∃ honest, m.Enough honest ∧ honest ⊆ jar.elements ∧ honest ⊆ bundles := by
  have sublist := jar.map_fst_elements_sublist
  rw [roster] at sublist
  -- in the jar's order, which need not be that of the parties
  let honest := jar.elements.filter fun e => decide (e.1 ∈ parties)
  have fewer : (honest.map (·.1)).Sublist (jar.elements.map (·.1)) := List.filter_sublist.map _
  have everyone : parties ⊆ (honest.map (·.1)).toFinset := by
    intro p member
    obtain ⟨bundle, -, found⟩ := own p member
    rw [List.mem_toFinset]
    refine List.mem_map.mpr ⟨(p, bundle), List.mem_filter.mpr ⟨?_, by simpa using member⟩, rfl⟩
    exact PartyJar.mem_elements.mpr found
  refine ⟨honest, ⟨?_, ?_, ?_⟩, List.filter_sublist.subset, ?_⟩
  · exact (fewer.trans sublist).nodup m.roster.nodup
  · exact fun p member => (fewer.trans sublist).subset member
  · exact enough.trans ((Finset.card_le_card everyone).trans (List.toFinset_card_le _))
  · intro e member
    obtain ⟨inJar, among⟩ := List.mem_filter.mp member
    obtain ⟨bundle, here, found⟩ := own e.1 (by simpa using among)
    obtain rfl : bundle = e.2 := Option.some.inj (found.symm.trans (PartyJar.mem_elements.mp inJar))
    exact here

/-- **Tampering.** A jar in which at least as many parties as unmask have put in their own bundles
of a masking run, and the others anything at all, does not open or opens to the collection that was
masked, up to the order of the names. -/
theorem unmask_tampered (fits : m.RosterFits)
    (masked : (m.mask S values).run s = (.ok bundles, s')) {jar : BundleJar}
    {parties : Finset PartyId} (enough : m.threshold ≤ parties.card)
    (own : ∀ p ∈ parties, ∃ bundle, (p, bundle) ∈ bundles ∧ jar.get? p = some bundle) :
    (∃ e, m.unmask jar = .error e) ∨
      ∃ opened, m.unmask jar = .ok opened ∧ (opened == values) = true := by
  cases unmasked : m.unmask jar with
  | error e => exact .inl ⟨e, rfl⟩
  | ok opened =>
    refine .inr ⟨opened, rfl, NamedValues.beq_of_get?_eq ?_⟩
    have opens := opens_of_unmask fits unmasked
    obtain ⟨honest, quorum, inJar, genuine⟩ := exists_honest opens.roster enough own
    -- under every name the honest contributions are coherent with what was masked, and all the
    -- contributions, of which they are a part, with what was opened
    obtain ⟨names, coherent⟩ := coherent_of_mask masked genuine
    have carried : ∀ e ∈ honest, ∀ name, name ∈ opened.names ↔ name ∈ e.2.names :=
      fun e member name => (opens.sameNames e (inJar member) name).symm
    obtain ⟨e, member⟩ := quorum.exists_mem
    intro name
    by_cases named : name ∈ opened.names
    · obtain ⟨v, found⟩ := NamedValues.exists_get?.mpr named
      obtain ⟨w, masked⟩ := NamedValues.exists_get?.mpr
        (names e member ▸ (carried e member name).mp named)
      have everywhere : ∀ e ∈ honest, name ∈ e.2.names := fun e there =>
        (carried e there name).mp named
      rw [found, masked, (coherent name w masked).unique fits (quorum.named everywhere)
        (opens.coherent name v found) (partsOf_mono _ inJar)]
    · have absent : name ∉ values.names := by
        rw [← names e member, ← carried e member name]
        exact named
      rw [← NamedValues.exists_get?, ← Option.ne_none_iff_exists', not_not] at named absent
      rw [named, absent]

/-- A jar of the first and the last party's bundles, and of nothing but a false flag from the second
party. -/
def tamperedJar : BundleJar where
  roster := trio.roster
  binding := trio.fingerprint
  slots := [some (trio.bundleAt 1 trioDealings),
    some (.ofList [("flag", .publicLeaf (.boolean false))]), some (trio.bundleAt 3 trioDealings)]
  length_slots := rfl

theorem trio_tampered : (∃ e, trio.unmask tamperedJar = .error e) ∨
    ∃ opened, trio.unmask tamperedJar = .ok opened ∧ (opened == trioValues) = true := by
  have own : ∀ p ∈ ({⟨[1]⟩, ⟨[3]⟩} : Finset PartyId), ∃ bundle,
      (p, bundle) ∈ formed (trio.bundleAt · trioDealings) trio.roster.points ∧
        tamperedJar.get? p = some bundle := by
    intro p member
    rw [Finset.mem_insert, Finset.mem_singleton] at member
    rcases member with rfl | rfl
    · exact ⟨_, mem_formed.mpr ⟨1, by decide, rfl⟩, rfl⟩
    · exact ⟨_, mem_formed.mpr ⟨3, by decide, rfl⟩, rfl⟩
  exact unmask_tampered rosterFits_trio mask_trioValues (by decide) own

end Masker
end ThresholdMask
