import Mathlib
import ThresholdMask.Proofs.Reconstruction

/-!
# What reconstruction answers

`Sharer.Verdict` says in terms of the roster and of polynomials which answer shares deserve. There
may be too few of them; an entry may come from a party off the roster or be no residue; the
abscissas of the parties that come first in the roster may fall together in the field; and
otherwise one polynomial passes through their shares, and the other shares lie on it or do not.

`reconstruct` gives this answer and no other, whatever the modulus, as long as it is prime: also in
a field with no more elements than the roster has parties. The order in which the entries are
visited does not matter unless two of them are at fault.
-/

namespace ThresholdMask

open Polynomial

/-- Shares are found alike in whatever order they are visited. -/
theorem PartyShares.get?_eq_of_perm {shares others : PartyShares}
    (perm : others.entries.Perm shares.entries) (p : PartyId) :
    others.get? p = shares.get? p := by
  apply Option.ext
  intro y
  rw [get?_eq_some_iff, get?_eq_some_iff]
  exact perm.mem_iff

namespace Sharer

/-! ## Entries -/

/-- The entry is the share of a party on the roster, and a residue. -/
def Sound (s : Sharer) (entry : PartyId × Nat) : Prop :=
  entry.1 ∈ s.roster.parties ∧ entry.2 < s.field.modulus

instance (s : Sharer) (entry : PartyId × Nat) : Decidable (s.Sound entry) :=
  inferInstanceAs (Decidable (_ ∧ _))

/-- What is reported of an entry that is not sound. -/
def fault (s : Sharer) (entry : PartyId × Nat) : ReconstructError :=
  if entry.1 ∈ s.roster.parties then .invalidShare entry.1 else .unknownParty entry.1

/-- The first entry that is not sound, in the order of the entries. -/
def firstUnsound? (s : Sharer) (shares : PartyShares) : Option (PartyId × Nat) :=
  shares.entries.find? fun e => !decide (s.Sound e)

theorem checkEntry_eq (s : Sharer) (e : PartyId × Nat) :
    s.checkEntry e = if s.Sound e then .ok () else .error (s.fault e) := by
  unfold checkEntry Sound fault Roster.contains PrimeField.contains
  by_cases onRoster : e.1 ∈ s.roster.parties <;> simp [onRoster]

theorem firstUnsound?_eq_none_iff {s : Sharer} {shares : PartyShares} :
    s.firstUnsound? shares = none ↔ ∀ e ∈ shares.entries, s.Sound e := by
  simp [firstUnsound?]

theorem reconstruct_eq (s : Sharer) (shares : PartyShares) :
    s.reconstruct shares =
      if shares.size < s.threshold then
        .error (.insufficientShares shares.size s.threshold)
      else
        match s.firstUnsound? shares with
        | some e => .error (s.fault e)
        | none => s.recover (s.pointsOf shares) := by
  unfold reconstruct firstUnsound?
  by_cases few : shares.size < s.threshold
  · rw [if_pos few, if_pos few]
  · rw [if_neg few, if_neg few, forM_congr fun e _ => s.checkEntry_eq e, forM_check_eq]
    cases shares.entries.find? _ <;> rfl

/-! ## Points -/

/-- The points of the parties that come first in the roster, as many as fix a polynomial. -/
def base (s : Sharer) (shares : PartyShares) : List (PartyId × Nat × Nat) :=
  (s.pointsOf shares).take s.threshold

/-- The points of the other parties, in roster order. -/
def extra (s : Sharer) (shares : PartyShares) : List (PartyId × Nat × Nat) :=
  (s.pointsOf shares).drop s.threshold

/-- No two of the points have the same abscissa in the field. -/
def Apart (s : Sharer) (points : List (PartyId × Nat × Nat)) : Prop :=
  (points.map fun pt => (pt.2.1 : s.field.Residue)).Nodup

/-- The polynomial has at most the sharer's degree and passes through the points. -/
structure Fits (s : Sharer) (g : s.field.Residue[X]) (points : List (PartyId × Nat × Nat)) :
    Prop where
  natDegree_le : g.natDegree ≤ s.degree
  eval_eq : ∀ pt ∈ points, g.eval (pt.2.1 : s.field.Residue) = pt.2.2

/-- The first of the points that the polynomial does not pass through. -/
noncomputable def firstOff? (s : Sharer) (g : s.field.Residue[X])
    (points : List (PartyId × Nat × Nat)) : Option (PartyId × Nat × Nat) :=
  points.find? fun pt => !decide (g.eval (pt.2.1 : s.field.Residue) = pt.2.2)

variable {s : Sharer} {shares : PartyShares}

theorem firstOff?_eq_none_iff {g : s.field.Residue[X]} {points : List (PartyId × Nat × Nat)} :
    s.firstOff? g points = none ↔
      ∀ pt ∈ points, g.eval (pt.2.1 : s.field.Residue) = pt.2.2 := by
  simp [firstOff?]

theorem residues_of_sound (sound : ∀ e ∈ shares.entries, s.Sound e) :
    ∀ pt ∈ s.pointsOf shares, pt.2.2 < s.field.modulus :=
  fun _ member => (sound _ (mem_pointsOf.mp member).2).2

theorem threshold_le_length_pointsOf (enough : s.threshold ≤ shares.size)
    (sound : ∀ e ∈ shares.entries, s.Sound e) : s.threshold ≤ (s.pointsOf shares).length := by
  rwa [length_pointsOf fun e member => (sound e member).1]

theorem length_base (enough : s.threshold ≤ shares.size)
    (sound : ∀ e ∈ shares.entries, s.Sound e) : (s.base shares).length = s.threshold := by
  rw [base, List.length_take, min_eq_left (threshold_le_length_pointsOf enough sound)]

/-- In a field with more elements than the roster has parties, abscissas stand apart. -/
theorem apart_base (fits : s.roster.size < s.field.modulus) (shares : PartyShares) :
    s.Apart (s.base shares) :=
  ((List.take_sublist _ _).map _).nodup (nodup_abscissas_pointsOf fits shares)

/-- Points come in roster order, however the entries are ordered. -/
theorem pointsOf_eq_of_perm {others : PartyShares}
    (perm : others.entries.Perm shares.entries) : s.pointsOf others = s.pointsOf shares := by
  unfold pointsOf
  simp only [PartyShares.get?_eq_of_perm perm]

section Polynomials

variable [prime : Fact s.field.modulus.Prime]

/-- One polynomial of the sharer's degree passes through the first points if they stand apart. -/
theorem existsUnique_fits_base (enough : s.threshold ≤ shares.size)
    (sound : ∀ e ∈ shares.entries, s.Sound e) (apart : s.Apart (s.base shares)) :
    ∃! g, s.Fits g (s.base shares) := by
  have size := length_base enough sound
  obtain ⟨g, ⟨low, through⟩, only⟩ :=
    existsUnique_polynomial_through (fun pt => (pt.2.2 : s.field.Residue)) apart
  rw [size] at low only
  refine ⟨g, ⟨degree_lt_threshold_iff.mp low, through⟩, ?_⟩
  intro f fits
  exact only f ⟨degree_lt_threshold_iff.mpr fits.natDegree_le, fits.eval_eq⟩

theorem recover_of_not_apart (collide : ¬s.Apart (s.base shares)) :
    s.recover (s.pointsOf shares) = .error .collidingAbscissas := by
  have refused : s.field.interpolate? ((s.base shares).map (·.2)) 0 = none := by
    rw [s.field.interpolate?_eq_none_iff, List.map_map]
    exact collide
  unfold recover
  rw [base] at refused
  simp only [refused]

theorem recover_of_fits (enough : s.threshold ≤ shares.size)
    (sound : ∀ e ∈ shares.entries, s.Sound e) (apart : s.Apart (s.base shares))
    {g : s.field.Residue[X]} (fits : s.Fits g (s.base shares)) :
    s.recover (s.pointsOf shares) =
      match s.firstOff? g (s.extra shares) with
      | none => .ok (g.eval 0).val
      | some pt => .error (.corruption pt.1) :=
  recover_eq apart (residues_of_sound sound) (threshold_le_length_pointsOf enough sound)
    (degree_lt_threshold_iff.mpr fits.natDegree_le) fits.eval_eq

end Polynomials

/-! ## Verdicts -/

/-- The answer that shares deserve. -/
inductive Verdict (s : Sharer) (shares : PartyShares) : Except ReconstructError Nat → Prop
  | insufficient (few : shares.size < s.threshold) :
      Verdict s shares (.error (.insufficientShares shares.size s.threshold))
  | unsound {e : PartyId × Nat} (enough : s.threshold ≤ shares.size)
      (first : s.firstUnsound? shares = some e) : Verdict s shares (.error (s.fault e))
  | colliding (enough : s.threshold ≤ shares.size) (sound : ∀ e ∈ shares.entries, s.Sound e)
      (collide : ¬s.Apart (s.base shares)) : Verdict s shares (.error .collidingAbscissas)
  | corrupted {g : s.field.Residue[X]} {pt : PartyId × Nat × Nat}
      (enough : s.threshold ≤ shares.size) (sound : ∀ e ∈ shares.entries, s.Sound e)
      (apart : s.Apart (s.base shares)) (fits : s.Fits g (s.base shares))
      (first : s.firstOff? g (s.extra shares) = some pt) :
      Verdict s shares (.error (.corruption pt.1))
  | recovered {g : s.field.Residue[X]} (enough : s.threshold ≤ shares.size)
      (sound : ∀ e ∈ shares.entries, s.Sound e) (apart : s.Apart (s.base shares))
      (fits : s.Fits g (s.base shares))
      (onExtra : ∀ pt ∈ s.extra shares, g.eval (pt.2.1 : s.field.Residue) = pt.2.2) :
      Verdict s shares (.ok (g.eval 0).val)

section Answers

variable [Fact s.field.modulus.Prime]

theorem Verdict.reconstruct_eq {answer : Except ReconstructError Nat}
    (verdict : s.Verdict shares answer) : s.reconstruct shares = answer := by
  rw [s.reconstruct_eq]
  cases verdict with
  | insufficient few => rw [if_pos few]
  | unsound enough first => rw [if_neg (not_lt.mpr enough), first]
  | colliding enough sound collide =>
    rw [if_neg (not_lt.mpr enough), firstUnsound?_eq_none_iff.mpr sound]
    exact recover_of_not_apart collide
  | corrupted enough sound apart fits first =>
    rw [if_neg (not_lt.mpr enough), firstUnsound?_eq_none_iff.mpr sound]
    show s.recover (s.pointsOf shares) = _
    rw [recover_of_fits enough sound apart fits, first]
  | recovered enough sound apart fits onExtra =>
    rw [if_neg (not_lt.mpr enough), firstUnsound?_eq_none_iff.mpr sound]
    show s.recover (s.pointsOf shares) = _
    rw [recover_of_fits enough sound apart fits, firstOff?_eq_none_iff.mpr onExtra]

/-- Any shares deserve some answer. -/
theorem exists_verdict (s : Sharer) [Fact s.field.modulus.Prime] (shares : PartyShares) :
    ∃ answer, s.Verdict shares answer := by
  by_cases few : shares.size < s.threshold
  · exact ⟨_, .insufficient few⟩
  have enough := not_lt.mp few
  cases first : s.firstUnsound? shares with
  | some e => exact ⟨_, .unsound enough first⟩
  | none =>
    have sound := firstUnsound?_eq_none_iff.mp first
    by_cases apart : s.Apart (s.base shares)
    · obtain ⟨g, fits, -⟩ := existsUnique_fits_base enough sound apart
      cases off : s.firstOff? g (s.extra shares) with
      | some pt => exact ⟨_, .corrupted enough sound apart fits off⟩
      | none => exact ⟨_, .recovered enough sound apart fits (firstOff?_eq_none_iff.mp off)⟩
    · exact ⟨_, .colliding enough sound apart⟩

theorem verdict_reconstruct (s : Sharer) [Fact s.field.modulus.Prime] (shares : PartyShares) :
    s.Verdict shares (s.reconstruct shares) := by
  obtain ⟨answer, verdict⟩ := s.exists_verdict shares
  rwa [verdict.reconstruct_eq]

end Answers

/-! ## Orders of visiting -/

theorem mem_of_firstUnsound? {e : PartyId × Nat} (first : s.firstUnsound? shares = some e) :
    e ∈ shares.entries ∧ ¬s.Sound e :=
  ⟨List.mem_of_find?_eq_some first, by simpa using List.find?_some first⟩

/-- In another order the entries get the same answer, or each time an entry at fault is reported. -/
theorem reconstruct_eq_or_fault_of_perm {others : PartyShares}
    (perm : others.entries.Perm shares.entries) :
    s.reconstruct others = s.reconstruct shares ∨
      ∃ e ∈ shares.entries, ∃ e' ∈ shares.entries, (¬s.Sound e ∧ ¬s.Sound e') ∧
        s.reconstruct shares = .error (s.fault e) ∧
        s.reconstruct others = .error (s.fault e') := by
  have size : others.size = shares.size := perm.length_eq
  rw [s.reconstruct_eq, s.reconstruct_eq, size, pointsOf_eq_of_perm perm]
  by_cases few : shares.size < s.threshold
  · rw [if_pos few, if_pos few]
    exact .inl rfl
  rw [if_neg few, if_neg few]
  cases first : s.firstUnsound? shares with
  | none =>
    have sound := firstUnsound?_eq_none_iff.mp first
    rw [firstUnsound?_eq_none_iff.mpr fun e member => sound e (perm.mem_iff.mp member)]
    exact .inl rfl
  | some e =>
    obtain ⟨here, unsound⟩ := mem_of_firstUnsound? first
    cases first' : s.firstUnsound? others with
    | none =>
      exact absurd (firstUnsound?_eq_none_iff.mp first' e (perm.mem_iff.mpr here)) unsound
    | some e' =>
      obtain ⟨there, unsound'⟩ := mem_of_firstUnsound? first'
      exact .inr ⟨e, here, e', perm.mem_iff.mp there, ⟨unsound, unsound'⟩, rfl, rfl⟩

/-- The order of the entries makes a difference only if several of them are at fault. -/
theorem reconstruct_eq_of_perm {others : PartyShares}
    (perm : others.entries.Perm shares.entries)
    (single : ∀ e ∈ shares.entries, ∀ e' ∈ shares.entries, ¬s.Sound e → ¬s.Sound e' → e = e') :
    s.reconstruct others = s.reconstruct shares := by
  rcases reconstruct_eq_or_fault_of_perm (s := s) perm with
    same | ⟨e, here, e', there, faults, answers⟩
  · exact same
  · rw [answers.1, answers.2, single e here e' there faults.1 faults.2]

/-- Whether shares give a secret, and which one, does not depend on the order of the entries. -/
theorem reconstruct_eq_ok_iff_of_perm {others : PartyShares}
    (perm : others.entries.Perm shares.entries) {secret : Nat} :
    s.reconstruct others = .ok secret ↔ s.reconstruct shares = .ok secret := by
  rcases reconstruct_eq_or_fault_of_perm (s := s) perm with same | ⟨e, -, e', -, -, answers⟩
  · rw [same]
  · rw [answers.1, answers.2]
    exact ⟨nofun, nofun⟩

/-! ## Answers -/

theorem reconstructNonzero_eq (s : Sharer) (shares : PartyShares) :
    s.reconstructNonzero shares =
      if s.reconstruct shares = .ok 0 then .error .zeroSecret else s.reconstruct shares := by
  unfold reconstructNonzero
  rcases s.reconstruct shares with e | secret
  · rfl
  · show (if secret = 0 then _ else _) = _
    by_cases zero : secret = 0 <;> simp [zero]

/-- **Reconstruction.** The answer to shares is the one that they deserve, where the polynomial that
it speaks of is the only one; the order of their entries does not matter unless two are at fault;
and where zero is refused the answer is the same but for the secret zero. -/
theorem reconstruct_eq_iff_verdict (s : Sharer) [Fact s.field.modulus.Prime]
    (shares : PartyShares) :
    (∀ answer, s.reconstruct shares = answer ↔ s.Verdict shares answer) ∧
      (s.threshold ≤ shares.size → (∀ e ∈ shares.entries, s.Sound e) →
        s.Apart (s.base shares) → ∃! g, s.Fits g (s.base shares)) ∧
      (∀ others : PartyShares, others.entries.Perm shares.entries →
        (∀ e ∈ shares.entries, ∀ e' ∈ shares.entries, ¬s.Sound e → ¬s.Sound e' → e = e') →
          s.reconstruct others = s.reconstruct shares) ∧
      ∀ answer, s.reconstructNonzero shares = answer ↔
        s.Verdict shares (.ok 0) ∧ answer = .error .zeroSecret ∨
          s.Verdict shares answer ∧ answer ≠ .ok 0 := by
  have verdicts : ∀ answer, s.reconstruct shares = answer ↔ s.Verdict shares answer := by
    intro answer
    constructor
    · rintro rfl
      exact s.verdict_reconstruct shares
    · exact Verdict.reconstruct_eq
  refine ⟨verdicts, existsUnique_fits_base, fun others => reconstruct_eq_of_perm, ?_⟩
  intro answer
  rw [s.reconstructNonzero_eq, ← verdicts, ← verdicts]
  by_cases zero : s.reconstruct shares = .ok 0
  · rw [if_pos zero, zero]
    constructor
    · intro same
      exact .inl ⟨rfl, same.symm⟩
    · rintro (⟨-, same⟩ | ⟨same, differ⟩)
      · exact same.symm
      · exact absurd same.symm differ
  · rw [if_neg zero]
    constructor
    · intro same
      exact .inr ⟨same, same ▸ zero⟩
    · rintro (⟨same, -⟩ | ⟨same, -⟩)
      · exact absurd same zero
      · exact same

/-- Five parties in the field of three elements, in which the fourth abscissa falls on the first and
the fifth on the second. -/
def narrow : Sharer where
  field := ⟨3⟩
  degree := 1
  roster := ⟨[⟨[1]⟩, ⟨[2]⟩, ⟨[3]⟩, ⟨[4]⟩, ⟨[5]⟩], by decide, by decide⟩
  degree_lt := by decide

theorem narrow_verdicts : narrow.field.modulus.Prime ∧
    narrow.Verdict (.ofList [(⟨[4]⟩, 2), (⟨[1]⟩, 2)]) (.error .collidingAbscissas) ∧
    narrow.Verdict (.ofList [(⟨[4]⟩, 2), (⟨[2]⟩, 0), (⟨[1]⟩, 2)]) (.ok 1) ∧
    narrow.Verdict (.ofList [(⟨[4]⟩, 1), (⟨[2]⟩, 0), (⟨[1]⟩, 2)]) (.error (.corruption ⟨[4]⟩)) ∧
    narrow.Verdict (.ofList [(⟨[4]⟩, 3), (⟨[9]⟩, 0), (⟨[1]⟩, 2)])
      (.error (.invalidShare ⟨[4]⟩)) := by
  have prime : narrow.field.modulus.Prime := Nat.prime_three
  have : Fact narrow.field.modulus.Prime := ⟨prime⟩
  exact ⟨prime, ((narrow.reconstruct_eq_iff_verdict _).1 _).mp (by decide),
    ((narrow.reconstruct_eq_iff_verdict _).1 _).mp (by decide),
    ((narrow.reconstruct_eq_iff_verdict _).1 _).mp (by decide),
    ((narrow.reconstruct_eq_iff_verdict _).1 _).mp (by decide)⟩

end Sharer
end ThresholdMask
