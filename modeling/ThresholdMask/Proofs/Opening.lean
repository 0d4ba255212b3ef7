import Mathlib
import ThresholdMask.Proofs.Combining

/-!
# Which jars a masker opens

`Masker.Opens` collects what a jar has to be so that a masker opens it to a collection: a jar of this
masker with enough bundles, of which all carry the collection's names, the first one in its order,
and under every name contributions that are coherent with the collection's value. Unmasking succeeds
on these jars and no others (`Masker.unmask_eq_ok_iff`).
-/

namespace ThresholdMask

/-! ## Elements of a jar -/

namespace PartyJar

variable {α : Type}

theorem missing_eq_nil_iff {jar : PartyJar α} :
    jar.missing = [] ↔ jar.size = jar.roster.size := by
  have total := jar.size_add_length_missing
  rw [← List.length_eq_zero_iff]
  omega

/-- The elements come from the parties that have put one in, in roster order. -/
theorem map_fst_elements (jar : PartyJar α) :
    jar.elements.map (·.1) = jar.roster.parties.filter jar.contains := by
  rw [jar.elements_eq, List.map_filterMap, ← List.filterMap_eq_filter]
  apply List.filterMap_congr
  intro p _
  cases found : jar.get? p <;> simp [Option.guard, contains, found]

theorem map_fst_elements_sublist (jar : PartyJar α) :
    (jar.elements.map (·.1)).Sublist jar.roster.parties := by
  rw [map_fst_elements]
  exact List.filter_sublist

theorem mem_elements {jar : PartyJar α} {e : PartyId × α} :
    e ∈ jar.elements ↔ jar.get? e.1 = some e.2 := by
  rw [jar.elements_eq, List.mem_filterMap]
  constructor
  · rintro ⟨p, -, found⟩
    obtain ⟨a, here, rfl⟩ := Option.map_eq_some_iff.mp found
    exact here
  · intro here
    refine ⟨e.1, ?_, by rw [here]; rfl⟩
    by_contra absent
    rw [get?_of_not_mem absent] at here
    cases here

end PartyJar

namespace Masker

variable {m : Masker} {visit : VisitOrder}

theorem absent?_eq_none_iff {jar : BundleJar} :
    m.absent? jar = none ↔
      (m.options.requireFullRoster = true → jar.size = jar.roster.size) := by
  unfold absent?
  by_cases full : m.options.requireFullRoster = true
  · rw [if_pos full, List.head?_eq_none_iff, PartyJar.missing_eq_nil_iff]
    exact ⟨fun h _ => h, fun h => h full⟩
  · rw [if_neg full]
    exact ⟨fun _ h => absurd h full, fun _ => rfl⟩

/-- The elements of a jar come from distinct parties of its roster. -/
theorem enough_elements {α : Type} {jar : PartyJar α} (own : jar.roster = m.roster)
    (enough : m.threshold ≤ jar.size) : m.Enough jar.elements := by
  have sublist := jar.map_fst_elements_sublist
  refine ⟨sublist.nodup jar.roster.nodup, fun p member => own ▸ sublist.subset member, ?_⟩
  rwa [List.length_map, jar.length_elements]

/-! ## Bundles -/

theorem checkNames_eq_ok {firstParty p : PartyId} {first bundle : Bundle} :
    checkNames firstParty first p bundle = .ok () ↔
      ∀ name, name ∈ bundle.names ↔ name ∈ first.names := by
  have covered (a b : Bundle) :
      a.names.find? (!b.contains ·) = none ↔ ∀ name ∈ a.names, name ∈ b.names := by
    simp only [List.find?_eq_none, Bool.not_eq_true', Bool.not_eq_false, NamedValues.contains_iff]
  unfold checkNames
  constructor
  · intro h name
    split at h
    · cases h
    · rename_i here
      split at h
      · cases h
      · rename_i there
        exact ⟨(covered _ _).mp there name, (covered _ _).mp here name⟩
  · intro same
    rw [(covered first bundle).mpr fun name => (same name).mpr,
      (covered bundle first).mpr fun name => (same name).mp]

/-- Bundles that all carry a name contribute to its value. -/
theorem Enough.named {bundles : List (PartyId × Bundle)} (enough : m.Enough bundles)
    {name : String} (carried : ∀ e ∈ bundles, name ∈ e.2.names) :
    m.Enough (ThresholdMask.partsOf (·.get? name) bundles) :=
  enough.partsOf fun e member =>
    Option.isSome_iff_exists.mpr (NamedValues.exists_get?.mpr (carried e member))

theorem unmaskNamed_eq_ok (fits : m.RosterFits) {p : PartyId} {others : List (PartyId × Bundle)}
    {e : String × MaskedValue} (enough : m.Enough ((p, e.2) :: partsOf (·.get? e.1) others))
    {e' : String × Value} :
    m.unmaskNamed visit p others e = .ok e' ↔
      e.1 = e'.1 ∧ m.Coherent e'.2 ((p, e.2) :: partsOf (·.get? e.1) others) := by
  unfold unmaskNamed
  simp only [bind_eq_ok, pure_eq_ok, unmaskValue_eq_ok_iff fits enough]
  constructor
  · rintro ⟨v, coherent, rfl⟩
    exact ⟨rfl, coherent⟩
  · rintro ⟨sameName, coherent⟩
    exact ⟨e'.2, coherent, Prod.ext sameName rfl⟩

/-- Bundles are unmasked to what they are coherent with name by name, in the order of the first. -/
theorem unmaskBundles_eq_ok (fits : m.RosterFits) {p : PartyId} {first : Bundle}
    {others : List (PartyId × Bundle)} (enough : m.Enough ((p, first) :: others))
    {values : NamedValues Value} :
    m.unmaskBundles visit p first others = .ok values ↔
      (∀ e ∈ others, ∀ name, name ∈ e.2.names ↔ name ∈ first.names) ∧
        first.names = values.names ∧ ∀ name v, values.get? name = some v →
          m.Coherent v (partsOf (·.get? name) ((p, first) :: others)) := by
  rw [unmaskBundles, check_bind_eq_ok, eachContribution_eq_ok, bind_eq_ok]
  simp only [checkNames_eq_ok, pure_eq_ok, mapM_eq_ok]
  apply and_congr_right
  intro sameNames
  have parts {name : String} {x : MaskedValue} (found : first.get? name = some x) :
      partsOf (·.get? name) ((p, first) :: others) = (p, x) :: partsOf (·.get? name) others :=
    partsOf_cons_some (a := first) found others
  -- the loop over the first bundle's entries, read as one condition for each name
  have rebuilt (entries : List (String × Value)) :
      List.Forall₂ (fun e e' => m.unmaskNamed visit p others e = .ok e') first.toList entries ↔
        first.names = entries.map (·.1) ∧
          ∀ name x v, (name, x) ∈ first.toList → (name, v) ∈ entries →
            m.Coherent v ((p, x) :: partsOf (·.get? name) others) := by
    refine forall₂_entries_iff first.nodup_names fun e member e' => unmaskNamed_eq_ok fits ?_
    have carried : e.1 ∈ first.names := List.mem_map_of_mem member
    rw [← parts (NamedValues.mem_toList_iff.mp member)]
    apply enough.named
    rw [List.forall_mem_cons]
    exact ⟨carried, fun c there => (sameNames c there e.1).mpr carried⟩
  simp only [rebuilt]
  constructor
  · rintro ⟨entries, ⟨names, coherent⟩, rfl⟩
    -- the rebuilt entries have distinct names, so that collecting them keeps their order
    have collected := NamedValues.toList_ofList (names ▸ first.nodup_names)
    refine ⟨by rw [names, NamedValues.names, collected], ?_⟩
    intro name v found
    rw [← NamedValues.mem_toList_iff, collected] at found
    obtain ⟨x, here⟩ := NamedValues.exists_get?.mpr (names ▸ List.mem_map_of_mem found)
    rw [parts here]
    exact coherent name x v (NamedValues.mem_toList_iff.mpr here) found
  · rintro ⟨names, coherent⟩
    refine ⟨values.toList, ⟨names, fun name x v left right => ?_⟩, values.ofList_toList⟩
    rw [← parts (NamedValues.mem_toList_iff.mp left)]
    exact coherent name v (NamedValues.mem_toList_iff.mp right)

/-! ## Opening a jar -/

/-- The jar is one that the masker opens to the collection. -/
structure Opens (m : Masker) (jar : BundleJar) (values : NamedValues Value) : Prop where
  binding : jar.binding = m.fingerprint
  roster : jar.roster = m.roster
  enough : m.threshold ≤ jar.size
  /-- Nobody is missing where everybody has to contribute. -/
  full : m.options.requireFullRoster = true → jar.size = m.roster.size
  sameNames : ∀ e ∈ jar.elements, ∀ name, name ∈ e.2.names ↔ name ∈ values.names
  /-- The names come in the order of the bundle that is first in roster order. -/
  order : ∀ e, jar.elements.head? = some e → e.2.names = values.names
  coherent : ∀ name v, values.get? name = some v →
    m.Coherent v (partsOf (·.get? name) jar.elements)

/-- The steps before the bundles are looked into. -/
theorem unmask_eq_ok_iff_bundles {jar : BundleJar} {values : NamedValues Value} :
    m.unmask jar visit = .ok values ↔
      (jar.binding = m.fingerprint ∧ jar.roster = m.roster) ∧ m.threshold ≤ jar.size ∧
        m.absent? jar = none ∧ ∃ p first others, jar.elements = (p, first) :: others ∧
          m.unmaskBundles visit p first others = .ok values := by
  rw [unmask, error_ite_eq_ok, error_ite_eq_ok, not_or, not_not, not_not, not_lt]
  refine and_congr_right fun _ => and_congr_right fun _ => ?_
  cases m.absent? jar with
  | some p => simp
  | none =>
    cases jar.elements with
    | nil => simp
    | cons e others =>
      simp only [List.cons.injEq, Prod.ext_iff, true_and]
      exact ⟨fun h => ⟨e.1, e.2, others, ⟨⟨rfl, rfl⟩, rfl⟩, h⟩,
        fun ⟨_, _, _, ⟨⟨rfl, rfl⟩, rfl⟩, h⟩ => h⟩

/-- A jar that passes these steps has a first bundle, and opening it is opening its bundles. -/
theorem unmask_eq_unmaskBundles {jar : BundleJar} (binding : jar.binding = m.fingerprint)
    (roster : jar.roster = m.roster) (enough : m.threshold ≤ jar.size)
    (full : m.options.requireFullRoster = true → jar.size = m.roster.size) :
    ∃ p first others, jar.elements = (p, first) :: others ∧
      m.unmask jar visit = m.unmaskBundles visit p first others := by
  obtain ⟨e, member⟩ := (enough_elements roster enough).exists_mem
  obtain ⟨⟨p, first⟩, others, elements⟩ := List.exists_cons_of_ne_nil (List.ne_nil_of_mem member)
  have everyone : m.absent? jar = none := absent?_eq_none_iff.mpr (roster ▸ full)
  refine ⟨p, first, others, elements, ?_⟩
  rw [unmask, if_neg (by simp [binding, roster]), if_neg (not_lt.mpr enough), everyone, elements]

theorem opens_of_unmask (fits : m.RosterFits) {jar : BundleJar} {values : NamedValues Value}
    (h : m.unmask jar visit = .ok values) : m.Opens jar values := by
  obtain ⟨⟨binding, roster⟩, enough, absent, p, first, others, elements, unmasked⟩ :=
    unmask_eq_ok_iff_bundles.mp h
  have quorum := enough_elements roster enough
  rw [elements] at quorum
  obtain ⟨sameNames, order, coherent⟩ := (unmaskBundles_eq_ok fits quorum).mp unmasked
  refine ⟨binding, roster, enough, fun full => ?_, ?_, ?_, ?_⟩
  · rw [absent?_eq_none_iff.mp absent full, roster]
  · rw [elements, List.forall_mem_cons, ← order]
    exact ⟨fun _ => Iff.rfl, sameNames⟩
  · rw [elements]
    intro e head
    rw [← Option.some.inj head]
    exact order
  · rw [elements]
    exact coherent

theorem Opens.unmask (fits : m.RosterFits) {jar : BundleJar} {values : NamedValues Value}
    (h : m.Opens jar values) : m.unmask jar visit = .ok values := by
  obtain ⟨binding, roster, enough, full, sameNames, order, coherent⟩ := h
  obtain ⟨p, first, others, elements, opened⟩ := unmask_eq_unmaskBundles binding roster enough full
  have quorum := enough_elements roster enough
  rw [elements] at quorum sameNames order coherent
  have sameOrder : first.names = values.names := order _ rfl
  rw [List.forall_mem_cons, ← sameOrder] at sameNames
  rw [opened]
  exact (unmaskBundles_eq_ok fits quorum).mpr ⟨sameNames.2, sameOrder, coherent⟩

/-- **Acceptance of a jar.** A masker opens exactly the jars that hold what its parties hold of a
collection, and opens them to this collection. -/
theorem unmask_eq_ok_iff (fits : m.RosterFits) (jar : BundleJar) (values : NamedValues Value) :
    m.unmask jar = .ok values ↔ m.Opens jar values :=
  ⟨opens_of_unmask fits, Opens.unmask fits⟩

/-! ## Three parties -/

/-- A masker for three parties, of whom any two unmask. -/
def trio : Masker where
  prime := .u64
  degree := 1
  options := {}
  roster := ⟨[⟨[1]⟩, ⟨[2]⟩, ⟨[3]⟩], by decide, by decide⟩
  degree_lt := by decide

theorem rosterFits_trio : trio.RosterFits := by
  intro kind
  cases kind <;> decide

/-- A jar of the first and the last party's shares of the number five, on `2 * X + 5`. -/
def trioJar : BundleJar where
  roster := trio.roster
  binding := trio.fingerprint
  slots := [some (.ofList [("five", .secretLeaf (.scalar .integer 7))]), none,
    some (.ofList [("five", .secretLeaf (.scalar .integer 11))])]
  length_slots := rfl

theorem trioJar_opens :
    trio.RosterFits ∧
      trio.Opens trioJar (.ofList [("five", .secretLeaf (.scalar (.integer 5)))]) := by
  refine ⟨rosterFits_trio, (unmask_eq_ok_iff rosterFits_trio _ _).mp ?_⟩
  exact NamedValues.eq_ok_of_toList (by decide +kernel)

end Masker
end ThresholdMask
