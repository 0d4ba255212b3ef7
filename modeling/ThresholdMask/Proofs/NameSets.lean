import Mathlib
import ThresholdMask.Proofs.Locality

/-!
# Bundles with different names

The bundles of a jar have to carry the same names. Each one is compared with the first only, in both
directions, before any value is rebuilt. This finds every disagreement between any two of them, and
what is reported is true: the party's bundle lacks the name, and another one carries it (`Lacks`).

Where the names agree, the first bundle's names are those of all, so that no party is left out under
any of them: to each value every party of the jar contributes once, in roster order
(`Masker.unmask_missingParty_iff`).
-/

namespace ThresholdMask

/-! ## Names and what is held under them -/

/-- The bundles that parties have put in carry the same names. -/
def SameNames (jar : BundleJar) : Prop :=
  ∀ e ∈ jar.elements, ∀ e' ∈ jar.elements, ∀ name ∈ e.2.names, name ∈ e'.2.names

instance (jar : BundleJar) : Decidable (SameNames jar) :=
  inferInstanceAs (Decidable (∀ e ∈ jar.elements, ∀ e' ∈ jar.elements,
    ∀ name ∈ e.2.names, name ∈ e'.2.names))

/-- The party has put in a bundle without the name, and another party one that carries it. -/
def Lacks (jar : BundleJar) (name : String) (p : PartyId) : Prop :=
  (∃ bundle, jar.get? p = some bundle ∧ name ∉ bundle.names) ∧
    ∃ q ≠ p, ∃ bundle, jar.get? q = some bundle ∧ name ∈ bundle.names

/-- What a jar holds under a name, in roster order. -/
def contributionsTo (jar : BundleJar) (name : String) : List Contribution :=
  partsOf (·.get? name) jar.elements

variable {jar : BundleJar}

theorem lacks_of_mem_elements {name : String} {e e' : PartyId × Bundle} (held : e ∈ jar.elements)
    (lacks : name ∉ e.2.names) (held' : e' ∈ jar.elements) (carries : name ∈ e'.2.names) :
    Lacks jar name e.1 := by
  have here := PartyJar.mem_elements.mp held
  have there := PartyJar.mem_elements.mp held'
  refine ⟨⟨e.2, here, lacks⟩, e'.1, fun same => lacks ?_, e'.2, there, carries⟩
  rw [same, here] at there
  exact Option.some.inj there ▸ carries

theorem mem_contributionsTo {name : String} {c : Contribution} :
    c ∈ contributionsTo jar name ↔
      ∃ bundle, jar.get? c.1 = some bundle ∧ bundle.get? name = some c.2 := by
  simp only [contributionsTo, mem_partsOf, PartyJar.mem_elements]

/-- No party of the jar is left out under a name that all bundles carry. -/
theorem map_fst_contributionsTo {name : String} (carried : ∀ e ∈ jar.elements, name ∈ e.2.names) :
    (contributionsTo jar name).map (·.1) = jar.roster.parties.filter jar.contains := by
  rw [contributionsTo, map_fst_partsOf, PartyJar.map_fst_elements]
  intro e member
  exact Option.isSome_iff_exists.mpr (NamedValues.exists_get?.mpr (carried e member))

/-- Rebuild the values under names from all that a jar holds under them. -/
def Guarded.unmaskNames (m : Masker) (jar : BundleJar) (names : List String)
    (visit : VisitOrder := .gathered) : Guarded UnmaskError (NamedValues Value) := do
  let entries ← names.mapM fun name => do
    let v ← unmaskValue m visit (Path.ofName name) (contributionsTo jar name)
    return (name, v)
  return NamedValues.ofList entries

namespace Masker

variable {m : Masker} {visit : VisitOrder} {p : PartyId} {first : Bundle}
  {others : List (PartyId × Bundle)}

/-! ## Comparing with the first bundle -/

/-- All bundles agree if each of them agrees with the first. -/
theorem checkAllNames_eq_ok_iff (elements : jar.elements = (p, first) :: others) :
    eachContribution (checkNames p first) others = .ok () ↔ SameNames jar := by
  rw [eachContribution_eq_ok, SameNames, elements]
  simp only [checkNames_eq_ok]
  constructor
  · intro agree
    have withFirst : ∀ e ∈ (p, first) :: others, ∀ name, name ∈ e.2.names ↔ name ∈ first.names :=
      List.forall_mem_cons.mpr ⟨fun _ => Iff.rfl, agree⟩
    intro e held e' held' name carries
    exact (withFirst e' held' name).mpr ((withFirst e held name).mp carries)
  · intro same e held name
    have later : e ∈ (p, first) :: others := List.mem_cons_of_mem _ held
    exact ⟨same e later _ List.mem_cons_self name, same _ List.mem_cons_self e later name⟩

/-- The checks of the names fail only for a name that a party lacks. -/
theorem failsOnly_checkAllNames (elements : jar.elements = (p, first) :: others) :
    FailsOnly (fun e => ∃ name q, e = .missingParty (some name) q ∧ Lacks jar name q)
      (eachContribution (checkNames p first) others) := by
  refine .eachContribution fun c member => ?_
  have heldFirst : (p, first) ∈ jar.elements := elements ▸ List.mem_cons_self
  have held : c ∈ jar.elements := elements ▸ List.mem_cons_of_mem _ member
  exact failsOnly_checkNames
    (fun name here lacks => ⟨name, c.1, rfl, lacks_of_mem_elements held lacks heldFirst here⟩)
    (fun name here lacks => ⟨name, p, rfl, lacks_of_mem_elements heldFirst lacks held here⟩)

/-! ## Opening -/

/-- Bundles with different names are refused, whatever else is wrong with them. -/
theorem unmaskBundles_of_not_sameNames (elements : jar.elements = (p, first) :: others)
    (differ : ¬SameNames jar) :
    ∃ name q, m.unmaskBundles visit p first others = .error (.missingParty (some name) q) ∧
      Lacks jar name q := by
  unfold unmaskBundles
  cases checked : eachContribution (checkNames p first) others with
  | ok _ => exact absurd ((checkAllNames_eq_ok_iff elements).mp checked) differ
  | error e =>
    obtain ⟨name, q, rfl, lacks⟩ := failsOnly_checkAllNames elements e checked
    exact ⟨name, q, rfl, lacks⟩

/-- Bundles with the same names fail to be opened only at a value. -/
theorem atValue_unmaskBundles (elements : jar.elements = (p, first) :: others)
    (same : SameNames jar) :
    FailsOnly UnmaskError.AtValue (m.unmaskBundles visit p first others) := by
  unfold unmaskBundles
  rw [(checkAllNames_eq_ok_iff elements).mpr same]
  refine .bind (.ok ()) fun _ _ => ?_
  exact .bind atValue_mapM_unmaskNamed fun _ _ => .ok _

/-- Bundles with the same names are opened name by name, in the order of the first. -/
theorem unmaskBundles_of_sameNames (elements : jar.elements = (p, first) :: others)
    (same : SameNames jar) :
    Guarded.answer (m.unmaskBundles visit p first others) =
      Guarded.unmaskNames m jar first.names visit := by
  unfold unmaskBundles Guarded.unmaskNames contributionsTo
  rw [(checkAllNames_eq_ok_iff elements).mpr same, elements, Guarded.mapM_unmaskNamed]
  exact Guarded.answer_bind_pure _ _

/-- **Names.** Take a jar of the masker with enough bundles, and with all where everybody has to
contribute, whatever the bundles hold. That something is missing is reported exactly if two bundles
carry different names, and then the party named lacks the name. If all carry the same names, the
values are rebuilt name by name, each from one contribution of every party in the jar, in roster
order. -/
theorem unmask_missingParty_iff (binding : jar.binding = m.fingerprint)
    (roster : jar.roster = m.roster) (enough : m.threshold ≤ jar.size)
    (full : m.options.requireFullRoster = true → jar.size = m.roster.size) :
    ((∃ name p, m.unmask jar = .error (.missingParty name p)) ↔ ¬SameNames jar) ∧
      (∀ name p, m.unmask jar = .error (.missingParty name p) →
        ∃ lacked, name = some lacked ∧ Lacks jar lacked p) ∧
      (SameNames jar → ∃ e, jar.elements.head? = some e ∧
        Guarded.answer (m.unmask jar) = Guarded.unmaskNames m jar e.2.names ∧
        ∀ name ∈ e.2.names,
          (contributionsTo jar name).map (·.1) = m.roster.parties.filter jar.contains ∧
            ∀ c ∈ contributionsTo jar name,
              ∃ bundle, jar.get? c.1 = some bundle ∧ bundle.get? name = some c.2) := by
  obtain ⟨p, first, others, elements, opened⟩ := unmask_eq_unmaskBundles binding roster enough full
  have reported {name : Option String} {q : PartyId}
      (failed : m.unmask jar = .error (.missingParty name q)) : ¬SameNames jar := by
    intro same
    rw [opened] at failed
    exact atValue_unmaskBundles elements same _ failed
  refine ⟨⟨?_, fun differ => ?_⟩, fun name q failed => ?_, fun same => ?_⟩
  · rintro ⟨name, q, failed⟩
    exact reported failed
  · obtain ⟨name, q, failed, -⟩ := unmaskBundles_of_not_sameNames (m := m) elements differ
    exact ⟨some name, q, opened.trans failed⟩
  · obtain ⟨lacked, q', failed', lacks⟩ :=
      unmaskBundles_of_not_sameNames (m := m) elements (reported failed)
    rw [opened, failed'] at failed
    cases failed
    exact ⟨lacked, rfl, lacks⟩
  · refine ⟨(p, first), by rw [elements]; rfl, ?_, fun name carried => ⟨?_, fun c => ?_⟩⟩
    · rw [opened]
      exact unmaskBundles_of_sameNames elements same
    · rw [← roster]
      refine map_fst_contributionsTo fun e held => ?_
      exact same _ (elements ▸ List.mem_cons_self) e held name carried
    · exact mem_contributionsTo.mp

/-- A jar of flags, on the first of which the first two parties disagree. -/
def flagsJar (third : Bundle) : BundleJar where
  roster := trio.roster
  binding := trio.fingerprint
  slots := [
    some (.ofList [("ready", .publicLeaf (.boolean true)), ("done", .publicLeaf (.boolean true))]),
    some (.ofList [("done", .publicLeaf (.boolean true)), ("ready", .publicLeaf (.boolean false))]),
    some third]
  length_slots := rfl

/-- The third party's bundle with one flag more. -/
def moreFlags : Bundle :=
  .ofList [("done", .publicLeaf (.boolean true)), ("late", .publicLeaf (.boolean true)),
    ("ready", .publicLeaf (.boolean true))]

/-- The third party's bundle with the same flags. -/
def sameFlags : Bundle :=
  .ofList [("done", .publicLeaf (.boolean true)), ("ready", .publicLeaf (.boolean true))]

theorem flagsJar_missingParty : trio.threshold ≤ (flagsJar moreFlags).size ∧
    trio.unmask (flagsJar moreFlags) = .error (.missingParty (some "late") ⟨[1]⟩) ∧
    ¬SameNames (flagsJar moreFlags) ∧ Lacks (flagsJar moreFlags) "late" ⟨[1]⟩ ∧
    SameNames (flagsJar sameFlags) ∧
    (contributionsTo (flagsJar sameFlags) "done").map (·.1) = [⟨[1]⟩, ⟨[2]⟩, ⟨[3]⟩] ∧
    ¬∃ name p, trio.unmask (flagsJar sameFlags) = .error (.missingParty name p) := by
  have more := unmask_missingParty_iff (m := trio)
    (rfl : (flagsJar moreFlags).binding = trio.fingerprint) rfl (by decide) nofun
  have same := unmask_missingParty_iff (m := trio)
    (rfl : (flagsJar sameFlags).binding = trio.fingerprint) rfl (by decide) nofun
  have failed : trio.unmask (flagsJar moreFlags) = .error (.missingParty (some "late") ⟨[1]⟩) := by
    have opened : (trio.unmask (flagsJar moreFlags)).map NamedValues.toList =
        .error (.missingParty (some "late") ⟨[1]⟩) := by
      decide +kernel
    exact map_eq_error.mp opened
  have agree : SameNames (flagsJar sameFlags) := by decide +kernel
  obtain ⟨lacked, named, lacks⟩ := more.2.1 _ _ failed
  obtain ⟨first, head, -, each⟩ := same.2.2 agree
  have named' : "done" ∈ first.2.names := by
    rw [← Option.some.inj head]
    decide +kernel
  refine ⟨by decide, failed, more.1.mp ⟨_, _, failed⟩, Option.some.inj named ▸ lacks, agree, ?_,
    fun missing => same.1.mp missing agree⟩
  rw [(each "done" named').1]
  decide

end Masker
end ThresholdMask
