import Mathlib
import ThresholdMask.Proofs.Failures

/-!
# Errors at a value

Some errors of unmasking are found in the jar itself: it is foreign, holds too few bundles, or lacks
a party or a name. All others are met at a value (`UnmaskError.AtValue`).

Whatever parties contribute to a value, it fails to be unmasked only with errors of the second kind
(`Masker.atValue_unmaskValue`). So an error of the first kind tells what the checks of the jar have
found, and these come before any value. `Masker.failsOnly_unmaskValue` says more, of contributions
that have passed the checks.
-/

namespace ThresholdMask

/-- The error is met at a value, not in the jar itself. -/
def UnmaskError.AtValue : UnmaskError → Prop
  | foreignJar | insufficientShares none _ _ | missingParty _ _ => False
  | _ => True

theorem UnmaskError.atValue_ofReconstruct (path : Path) (e : ReconstructError) :
    (ofReconstruct path e).AtValue := by
  cases e <;> trivial

theorem ValueFailure.atValue {path : Path} {cs : List Contribution} {e : UnmaskError}
    (h : ValueFailure path cs e) : e.AtValue := by
  cases h <;> trivial

theorem FailsOnly.atValue {α : Type} {path : Path} {x : Except UnmaskError α}
    (h : FailsOnly (ValueFailure path []) x) : FailsOnly UnmaskError.AtValue x :=
  h.mono fun _ failure => failure.atValue

namespace Masker

variable {m : Masker} {visit : VisitOrder} {path : Path}

theorem atValue_reconstructAt {position : Nat} {F : PrimeField} {shares : List (PartyId × Nat)} :
    FailsOnly UnmaskError.AtValue (m.reconstructAt visit path position F shares) :=
  .mapError fun e _ => UnmaskError.atValue_ofReconstruct path e

theorem atValue_decodeKeyAt {F : PrimeField} {secret : Nat} :
    FailsOnly UnmaskError.AtValue (decodeKeyAt path F secret) := by
  unfold decodeKeyAt
  split
  · exact .error trivial
  · exact .mapError fun _ _ => trivial

theorem atValue_unmaskScalar {kind : ScalarKind} {shares : List (PartyId × Nat)} :
    FailsOnly UnmaskError.AtValue (m.unmaskScalar visit path kind shares) := by
  refine .bind atValue_reconstructAt fun _ _ => ?_
  exact failsOnly_decodeScalarAt_of_key trivial atValue_decodeKeyAt

theorem atValue_unmaskBlob {p : PartyId} {first : BlobShares}
    {others : List (PartyId × BlobShares)} :
    FailsOnly UnmaskError.AtValue (m.unmaskBlob visit path p first others) := by
  unfold unmaskBlob
  dsimp only
  split
  · exact .error trivial
  · refine .bind (.eachContribution fun _ _ => .ite_error (fun _ => .ok ()) fun _ => trivial) ?_
    intro _ _
    refine .bind (.mapM fun i _ => ?_) fun _ _ => .ok _
    exact .bind atValue_reconstructAt fun _ _ => .mapError fun _ _ => trivial

/-- **Locality.** Whatever is contributed to a value, the errors are met at it. -/
theorem atValue_unmaskValue {first : MaskedValue} : ∀ {path : Path} {p : PartyId}
    {others : List Contribution},
    FailsOnly UnmaskError.AtValue (m.unmaskValue visit path p first others) := by
  induction first using ValueTree.induction with
  | publicLeaf leaf =>
    intro path p others
    rw [unmaskValue]
    refine .bind failsOnly_checkKinds.atValue fun _ _ => ?_
    exact .bind failsOnly_checkPublic.atValue fun _ _ => .ok _
  | secretLeaf share =>
    intro path p others
    cases share with
    | scalar kind y =>
      rw [unmaskValue]
      refine .bind failsOnly_checkKinds.atValue fun _ _ => ?_
      exact .bind atValue_unmaskScalar fun _ _ => .ok _
    | blob blob =>
      rw [unmaskValue]
      refine .bind failsOnly_checkKinds.atValue fun _ _ => ?_
      exact .bind atValue_unmaskBlob fun _ _ => .ok _
  | array inner elements each =>
    intro path p others
    rw [unmaskValue, unmaskElements_eq_mapM]
    refine .bind failsOnly_checkKinds.atValue fun _ _ => ?_
    refine .bind (failsOnly_checkElements fun _ _ => trivial) fun _ _ => ?_
    have columns : ∀ c ∈ others, FailsOnly UnmaskError.AtValue
        (checkColumn path inner elements.length c.1 c.2) :=
      fun _ _ => failsOnly_checkColumn fun _ _ => trivial
    refine .bind (.eachContribution columns) fun _ _ => ?_
    exact .bind (.mapM fun i _ => each _ (List.getElem_mem i.isLt)) fun _ _ => .ok _
  | tuple left right onLeft onRight =>
    intro path p others
    rw [unmaskValue]
    refine .bind failsOnly_checkKinds.atValue fun _ _ => ?_
    exact .bind onLeft fun _ _ => .bind onRight fun _ _ => .ok _

theorem atValue_mapM_unmaskNamed {p : PartyId} {others : List (PartyId × Bundle)}
    {entries : List (String × MaskedValue)} :
    FailsOnly UnmaskError.AtValue (entries.mapM (m.unmaskNamed visit p others)) :=
  .mapM fun _ _ => .bind atValue_unmaskValue fun _ _ => .ok _

end Masker
end ThresholdMask
