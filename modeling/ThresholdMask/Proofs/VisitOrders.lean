import Mathlib
import ThresholdMask.Proofs.Failures

/-!
# What the order of visiting changes

Shares are found by party, and in which order they are visited is left open (`VisitOrder`). It
shows only where several shares of one secret are at fault: then the one that is visited first is
reported. So a jar is opened to the same values in every order, and if it fails to be opened it
fails in the same way, but perhaps for another party's share at the same path
(`Masker.unmask_visit`).
-/

namespace ThresholdMask

/-! ## The same outcome but for a fault -/

/-- The failures that report an entry among the shares at a path. -/
inductive EntryFault (path : Path) : UnmaskError → Prop
  | invalidShare (p : PartyId) : EntryFault path (.corruption path (some p))
  | unknownParty (p : PartyId) : EntryFault path (.sharing (.unknownParty p))

theorem Sharer.entryFault (s : Sharer) (path : Path) (entry : PartyId × Nat) :
    EntryFault path (.ofReconstruct path (s.fault entry)) := by
  unfold fault
  split
  · exact .invalidShare entry.1
  · exact .unknownParty entry.1

/-- The outcomes are the same, or both report an entry among the shares at one path. -/
def SameButFault {α : Type} (x y : Except UnmaskError α) : Prop :=
  x = y ∨ ∃ path e e', (EntryFault path e ∧ EntryFault path e') ∧ x = .error e ∧ y = .error e'

namespace SameButFault

variable {α β : Type}

theorem refl (x : Except UnmaskError α) : SameButFault x x := .inl rfl

theorem bind {x y : Except UnmaskError α} {f g : α → Except UnmaskError β}
    (first : SameButFault x y) (next : ∀ a, SameButFault (f a) (g a)) :
    SameButFault (x >>= f) (y >>= g) := by
  rcases first with rfl | ⟨path, e, e', faults, rfl, rfl⟩
  · cases x with
    | error e => exact refl _
    | ok a => exact next a
  · exact .inr ⟨path, e, e', faults, rfl, rfl⟩

theorem mapM {f g : α → Except UnmaskError β} {l : List α}
    (each : ∀ a ∈ l, SameButFault (f a) (g a)) : SameButFault (l.mapM f) (l.mapM g) := by
  induction l with
  | nil => exact refl _
  | cons a rest ih =>
    rw [List.forall_mem_cons] at each
    rw [List.mapM_cons, List.mapM_cons]
    exact each.1.bind fun b => (ih each.2).bind fun bs => refl _

end SameButFault

/-! ## Two orders -/

namespace Masker

variable {m : Masker} {visit visit' : VisitOrder} {path : Path}

theorem sameButFault_reconstructAt {position : Nat} {F : PrimeField}
    {shares : List (PartyId × Nat)} :
    SameButFault (m.reconstructAt visit path position F shares)
      (m.reconstructAt visit' path position F shares) := by
  have perm := (visit.perm_arrange path position (.ofList shares)).trans
    (visit'.perm_arrange path position (.ofList shares)).symm
  unfold reconstructAt
  dsimp only
  rcases Sharer.reconstruct_eq_or_fault_of_perm (s := m.sharer F) perm with
    same | ⟨entry, -, entry', -, -, reported, reported'⟩
  · rw [same]
    exact .refl _
  · rw [reported, reported']
    exact .inr ⟨path, _, _, ⟨(m.sharer F).entryFault path entry',
      (m.sharer F).entryFault path entry⟩, rfl, rfl⟩

theorem sameButFault_unmaskScalar {kind : ScalarKind} {shares : List (PartyId × Nat)} :
    SameButFault (m.unmaskScalar visit path kind shares)
      (m.unmaskScalar visit' path kind shares) :=
  sameButFault_reconstructAt.bind fun _ => .refl _

theorem sameButFault_unmaskBlob {p : PartyId} {first : BlobShares}
    {others : List (PartyId × BlobShares)} :
    SameButFault (m.unmaskBlob visit path p first others)
      (m.unmaskBlob visit' path p first others) := by
  unfold unmaskBlob
  dsimp only
  split
  · exact .refl _
  · refine .bind (.refl _) fun _ => .bind (.mapM fun i _ => ?_) fun _ => .refl _
    exact sameButFault_reconstructAt.bind fun _ => .refl _

/-- Nothing but faults tells at a value in which order shares are visited. -/
theorem sameButFault_unmaskValue {first : MaskedValue} : ∀ {path : Path} {p : PartyId}
    {others : List Contribution},
    SameButFault (m.unmaskValue visit path p first others)
      (m.unmaskValue visit' path p first others) := by
  induction first using ValueTree.induction with
  | publicLeaf leaf =>
    intro path p others
    rw [unmaskValue, unmaskValue]
    exact .refl _
  | secretLeaf share =>
    intro path p others
    cases share with
    | scalar kind y =>
      rw [unmaskValue, unmaskValue]
      exact .bind (.refl _) fun _ => sameButFault_unmaskScalar.bind fun _ => .refl _
    | blob blob =>
      rw [unmaskValue, unmaskValue]
      exact .bind (.refl _) fun _ => sameButFault_unmaskBlob.bind fun _ => .refl _
  | array inner elements each =>
    intro path p others
    rw [unmaskValue, unmaskValue, unmaskElements_eq_mapM, unmaskElements_eq_mapM]
    refine .bind (.refl _) fun _ => .bind (.refl _) fun _ => .bind (.refl _) fun _ => ?_
    exact .bind (.mapM fun i _ => each _ (List.getElem_mem i.isLt)) fun _ => .refl _
  | tuple left right onLeft onRight =>
    intro path p others
    rw [unmaskValue, unmaskValue]
    exact .bind (.refl _) fun _ => onLeft.bind fun _ => onRight.bind fun _ => .refl _

theorem sameButFault_unmask (jar : BundleJar) :
    SameButFault (m.unmask jar visit) (m.unmask jar visit') := by
  unfold unmask
  split
  · exact .refl _
  · split
    · exact .refl _
    · cases m.absent? jar with
      | some p => exact .refl _
      | none =>
        cases jar.elements with
        | nil => exact .refl _
        | cons first others =>
          refine .bind (.refl _) fun _ => .bind (.mapM fun e _ => ?_) fun _ => .refl _
          exact sameButFault_unmaskValue.bind fun _ => .refl _

/-- **Orders.** In two orders of visiting, a jar is opened to the same values or fails to be opened
in the same way, unless it fails at one path for a share that is corrupted, and the orders find
different ones. -/
theorem unmask_visit (fits : m.RosterFits) (jar : BundleJar) (visit visit' : VisitOrder) :
    m.unmask jar visit = m.unmask jar visit' ∨
      ∃ path p p', m.unmask jar visit = .error (.corruption path (some p)) ∧
        m.unmask jar visit' = .error (.corruption path (some p')) := by
  have alike : SameButFault (m.unmask jar visit) (m.unmask jar visit') := sameButFault_unmask jar
  rcases alike with same | ⟨path, e, e', ⟨fault, fault'⟩, failed, failed'⟩
  · exact .inl same
  by_cases foreign : jar.binding ≠ m.fingerprint ∨ jar.roster ≠ m.roster
  · refine .inl ?_
    rw [unmask, unmask, if_pos foreign, if_pos foreign]
  rw [not_or, not_not, not_not] at foreign
  -- the parties of a jar are on the roster, so that it can only be their shares that are at fault
  have known {visit : VisitOrder} {p : PartyId} :
      m.unmask jar visit ≠ .error (.sharing (.unknownParty p)) := by
    intro failed
    cases failsOnly_unmask fits foreign.2 foreign.1 _ failed
  cases fault with
  | unknownParty p => exact absurd failed known
  | invalidShare p =>
    cases fault' with
    | unknownParty p' => exact absurd failed' known
    | invalidShare p' => exact .inr ⟨path, p, p', failed, failed'⟩

/-- Shares are visited from the one that was gathered last. -/
def lastFirst : VisitOrder where
  arrange _ _ shares := ⟨shares.entries.reverse, by
    rw [List.map_reverse, List.nodup_reverse]
    exact shares.nodup⟩
  perm_arrange _ _ shares := List.reverse_perm shares.entries

/-- A jar with a share of a number for every party, of which only the first is a residue. -/
def overflowingJar : BundleJar where
  roster := trio.roster
  binding := trio.fingerprint
  slots := [7, trio.field.modulus, trio.field.modulus + 1].map fun share =>
    some (.ofList [("sum", .secretLeaf (.scalar .integer share))])
  length_slots := rfl

example : (trio.unmask overflowingJar).map NamedValues.toList =
      .error (.corruption ⟨"sum", []⟩ (some ⟨[2]⟩)) ∧
    (trio.unmask overflowingJar lastFirst).map NamedValues.toList =
      .error (.corruption ⟨"sum", []⟩ (some ⟨[3]⟩)) := by
  decide +kernel

end Masker
end ThresholdMask
