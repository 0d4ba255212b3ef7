import Mathlib
import ThresholdMask.Proofs.Drawing
import ThresholdMask.Proofs.RoundTrip

/-!
# What is drawn before an array is refused

The type of an element is checked when its turn comes, and by then the elements before it are dealt.
So an array with an element of another type is masked as the array of the elements before it, and
refused afterwards (`Masker.mask_eq_throw`): what is drawn for these elements stays drawn, and if one
of them cannot be dealt then this is what is reported (`Masker.mask_late_refusal`).
-/

namespace ThresholdMask
namespace Masker

variable {m : Masker} {σ α β : Type} {S : Sampler σ}

/-! ## Refusals -/

/-- How masking refuses an element of another type than the array at the path declares. -/
def refusal (path : Path) (index : Nat) (inner found : ValueType) : MaskError :=
  .invalidValue (path.index index) (.arrayTypeMismatch index inner found)

theorem throw_bind (e : MaskError) (f : α → Masking σ β) : (throw e >>= f) = throw e := rfl

/-! ## Arrays with an element of another type -/

variable {inner : ValueType} {before after : List Value} {v : Value}

/-- The elements before one of another type are dealt, and then it is refused. -/
theorem dealElements_eq_throw {path : Path} (types : ∀ e ∈ before, e.type = inner)
    (other : v.type ≠ inner) (start : Nat) :
    m.dealElements S path inner start (before ++ v :: after) =
      m.dealElements S path inner start before >>= fun _ =>
        throw (refusal path (start + before.length) inner v.type) := by
  induction before generalizing start with
  | nil =>
    rw [List.nil_append, dealElements, dealElements, pure_bind]
    exact if_pos other
  | cons e rest ih =>
    rw [List.forall_mem_cons] at types
    rw [List.cons_append, dealElements_cons types.1, dealElements_cons types.1, bind_assoc]
    congr 1
    funext d
    -- the index is the position in the whole array, not in the rest
    rw [ih types.2, bind_assoc, bind_assoc, List.length_cons, Nat.add_right_comm, Nat.add_assoc]
    rfl

/-- Masking an array is masking the elements before the first one of another type, and then refusing
this one. -/
theorem mask_eq_throw {values : NamedValues Value} {name : String}
    (single : values.toList = [(name, .array inner (before ++ v :: after))])
    (types : ∀ e ∈ before, e.type = inner) (other : v.type ≠ inner) :
    m.mask S values = m.mask S (.ofList [(name, .array inner before)]) >>= fun _ =>
      throw (refusal (Path.ofName name) before.length inner v.type) := by
  have ready : (NamedValues.ofList [(name, ValueTree.array inner before)] :
      NamedValues Value).toList = [(name, .array inner before)] :=
    NamedValues.toList_ofList (List.nodup_singleton _)
  unfold mask deal
  rw [single, ready]
  simp only [List.mapM_cons, List.mapM_nil, dealValue, dealElements_eq_throw types other 0,
    Nat.zero_add, bind_assoc, pure_bind, throw_bind]

/-- **Late refusal.** Take a collection of one array, in which an element has another type than the
declared one, and those before it have the declared one. If these cannot be masked, then masking the
whole fails as masking them does. Otherwise it refuses the element, and before that it has drawn the
coefficients for the elements before, which their classification counts. -/
theorem mask_late_refusal {values : NamedValues Value} {name : String}
    (single : values.toList = [(name, .array inner (before ++ v :: after))])
    (types : ∀ e ∈ before, e.type = inner) (other : v.type ≠ inner) (s : σ) :
    (∀ e s', (m.mask S (.ofList [(name, .array inner before)])).run s = (.error e, s') →
      (m.mask S values).run s = (.error e, s')) ∧
    ∀ bundles s', (m.mask S (.ofList [(name, .array inner before)])).run s = (.ok bundles, s') →
      (m.mask S values).run s =
        (.error (refusal (Path.ofName name) before.length inner v.type), s') ∧
      ∃ bounds, (m.mask S.recording values).run (s, []) =
          (.error (refusal (Path.ofName name) before.length inner v.type), (s', bounds)) ∧
        bounds.Perm (m.drawBounds (m.classify (.ofList [(name, .array inner before)]))) := by
  rw [mask_eq_throw single types other, mask_eq_throw single types other]
  refine ⟨fun e s' => run_bind_of_error, fun bundles s' ran => ⟨run_bind_of_ok ran, ?_⟩⟩
  exact ⟨_, run_bind_of_ok (logs_mask _ ran []), perm_drawBounds _⟩

/-- A collection of one array, which declares secret truth values and has a public one as its second
element. -/
def mixedBits : NamedValues Value := .ofList
  [("bits", .array (.secretLeaf (.scalar .boolean))
    ([.secretLeaf (.scalar (.boolean true))] ++ [.publicLeaf (.boolean true)]))]

theorem toList_mixedBits : mixedBits.toList =
    [("bits", .array (.secretLeaf (.scalar .boolean))
      ([.secretLeaf (.scalar (.boolean true))] ++ [.publicLeaf (.boolean true)]))] :=
  NamedValues.toList_ofList (List.nodup_singleton _)

/-- The first truth value of the array alone is masked with the coefficient seven. -/
theorem mask_firstBit : (trio.mask Sampler.tape (.ofList [("bits", .array
    (.secretLeaf (.scalar .boolean)) [.secretLeaf (.scalar (.boolean true))])])).run [7] =
      (.ok (formed (trio.bundleAt · [("bits", .array (.secretLeaf (.scalar .boolean))
        [.secretLeaf (.scalar .boolean [1, 7])])]) trio.roster.points), []) := by
  apply mask_of_deal
  show @Eq (Except MaskError (List (String × Dealing)) × List Nat) _ _
  decide +kernel

theorem mixedBits_refused :
    (trio.mask Sampler.tape mixedBits).run [7] =
      (.error (refusal (Path.ofName "bits") 1 (.secretLeaf (.scalar .boolean))
        (.publicLeaf .boolean)), []) ∧
    ∃ bounds, (trio.mask Sampler.tape.recording mixedBits).run ([7], []) =
        (.error (refusal (Path.ofName "bits") 1 (.secretLeaf (.scalar .boolean))
          (.publicLeaf .boolean)), ([], bounds)) ∧
      bounds.Perm (trio.drawBounds (trio.classify (.ofList [("bits", .array
        (.secretLeaf (.scalar .boolean)) [.secretLeaf (.scalar (.boolean true))])]))) :=
  (mask_late_refusal toList_mixedBits (by decide) (by decide) [7]).2 _ _ mask_firstBit

/-- It is not so that an element of another type is refused before anything is drawn. -/
theorem not_refused_undrawn : ¬∀ {σ : Type} (m : Masker) (S : Sampler σ) (s : σ)
    (values : NamedValues Value) (name : String) (inner : ValueType) (before after : List Value)
    (v : Value), values.toList = [(name, .array inner (before ++ v :: after))] →
      (∀ e ∈ before, e.type = inner) → v.type ≠ inner →
        (m.mask S values).run s =
          (.error (refusal (Path.ofName name) before.length inner v.type), s) := by
  intro claim
  have undrawn := claim trio Sampler.tape [7] mixedBits _ _ _ _ _ toList_mixedBits (by decide)
    (by decide)
  have drawn : ((trio.mask Sampler.tape mixedBits).run [7]).2 = [] := by decide +kernel
  rw [undrawn] at drawn
  cases drawn

end Masker
end ThresholdMask
