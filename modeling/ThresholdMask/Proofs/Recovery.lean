import Mathlib
import ThresholdMask.Proofs.Dealing
import ThresholdMask.Proofs.Verdict

/-!
# Honest shares recover their secret

The shares of one sharing all lie on the polynomial that was drawn for it. So whichever of them are
reconstructed, as long as they are enough, the answer is the residue of the secret that was shared,
unless the abscissas that would fix the polynomial fall together in the field
(`Sharer.reconstruct_share`). In a field with more elements than the roster has parties they never
do; in a smaller one abscissas from further down the roster may fall on these or on zero, and the
answer is the same.
-/

namespace ThresholdMask

namespace Sharer

open Polynomial

variable {s : Sharer} {shares : PartyShares}

/-! ## The abscissas that fix a polynomial -/

/-- The abscissas of the parties that come first in the roster, as many as reconstruct. -/
def lowest (s : Sharer) (parties : List PartyId) : List Nat :=
  ((s.roster.points.filter fun e => decide (e.1 ∈ parties)).map (·.2)).take s.threshold

theorem isSome_get? (shares : PartyShares) (p : PartyId) :
    (shares.get? p).isSome = decide (p ∈ shares.entries.map (·.1)) := by
  rw [Bool.eq_iff_iff, decide_eq_true_iff, Option.isSome_iff_exists, List.mem_map]
  constructor
  · rintro ⟨y, found⟩
    exact ⟨(p, y), PartyShares.get?_eq_some_iff.mp found, rfl⟩
  · rintro ⟨e, member, rfl⟩
    exact ⟨e.2, PartyShares.get?_eq_some_iff.mpr member⟩

/-- The points of shares stand at the places of their parties, in roster order. -/
theorem map_place_pointsOf (s : Sharer) (shares : PartyShares) :
    (s.pointsOf shares).map (fun pt => (pt.1, pt.2.1)) =
      s.roster.points.filter fun e => decide (e.1 ∈ shares.entries.map (·.1)) := by
  unfold pointsOf
  induction s.roster.points with
  | nil => rfl
  | cons e rest ih =>
    obtain ⟨p, x⟩ := e
    have here := isSome_get? shares p
    cases found : shares.get? p with
    | none =>
      rw [found] at here
      rw [List.filterMap_cons_none (by simp [found]), List.filter_cons_of_neg (by simp [← here]), ih]
    | some y =>
      rw [found] at here
      rw [List.filterMap_cons_some (b := (p, x, y)) (by simp [found]),
        List.filter_cons_of_pos (by simp [← here]), List.map_cons, ih]

/-- The points of shares have the abscissas of their parties. -/
theorem map_abscissa_pointsOf (s : Sharer) (shares : PartyShares) :
    (s.pointsOf shares).map (·.2.1) =
      (s.roster.points.filter fun e => decide (e.1 ∈ shares.entries.map (·.1))).map (·.2) := by
  rw [← map_place_pointsOf, List.map_map]
  rfl

theorem map_abscissa_base (s : Sharer) (shares : PartyShares) :
    (s.base shares).map (·.2.1) = s.lowest (shares.entries.map (·.1)) := by
  rw [base, List.map_take, map_abscissa_pointsOf]
  rfl

/-- Numbers fall together as residues exactly if their remainders are the same. -/
theorem nodup_natCast_iff {p : Nat} [NeZero p] (l : List Nat) :
    (l.map (Nat.cast : Nat → ZMod p)).Nodup ↔ (l.map (· % p)).Nodup := by
  have remainders : l.map (· % p) = (l.map (Nat.cast : Nat → ZMod p)).map ZMod.val := by
    rw [List.map_map]
    exact List.map_congr_left fun x _ => (ZMod.val_natCast p x).symm
  rw [remainders, List.nodup_map_iff (ZMod.val_injective p)]

theorem apart_base_iff [NeZero s.field.modulus] :
    s.Apart (s.base shares) ↔
      ((s.lowest (shares.entries.map (·.1))).map (· % s.field.modulus)).Nodup := by
  rw [← nodup_natCast_iff, ← map_abscissa_base, List.map_map]
  rfl

/-! ## Shares of one sharing -/

variable {σ : Type}

/-- What is dealt to the parties are the values at their abscissas of a polynomial with the secret as
constant term. -/
theorem share_eq (s : Sharer) (S : Sampler σ) (secret : Nat) (state : σ) :
    ∃ coefficients : List Nat, coefficients.length = s.degree ∧
      (s.share S secret state).1 =
        formed (s.field.evaluate (s.field.reduce secret :: coefficients)) s.roster.points := by
  refine ⟨(s.field.randoms S s.degree state).1, Masker.length_randoms _ S s.degree state, ?_⟩
  show s.roster.parties.zip (s.deal (s.field.reduce secret :: _)) = _
  rw [deal, ← Roster.map_fst_points, List.zip_map', formed]

/-- Any shares of one sharing are consistent with its secret. -/
theorem consistent_share [prime : Fact s.field.modulus.Prime] (S : Sampler σ) (secret : Nat)
    (state : σ) {chosen : List (PartyId × Nat)} (part : chosen ⊆ (s.share S secret state).1) :
    s.Consistent chosen (s.field.reduce secret) := by
  obtain ⟨coefficients, length, dealt⟩ := s.share_eq S secret state
  have residue := s.field.reduce_lt prime.out.pos secret
  have once : s.field.reduce (s.field.reduce secret) = s.field.reduce secret := Nat.mod_mod _ _
  obtain ⟨g, low, on, constant⟩ := consistent_evaluate residue length (List.Subset.refl _)
  rw [once, ← dealt] at on
  exact ⟨g, low, fun share member => on share (part member), constant⟩

theorem nodup_share (s : Sharer) (S : Sampler σ) (secret : Nat) (state : σ) :
    ((s.share S secret state).1.map (·.1)).Nodup := by
  obtain ⟨coefficients, -, dealt⟩ := s.share_eq S secret state
  rw [dealt, map_fst_formed, Roster.map_fst_points]
  exact s.roster.nodup

/-- Shares of one sharing come from distinct parties. -/
theorem nodup_of_subperm_share {S : Sampler σ} {secret : Nat} {state : σ}
    {chosen : List (PartyId × Nat)} (part : chosen.Subperm (s.share S secret state).1) :
    (chosen.map (·.1)).Nodup := by
  obtain ⟨sublist, perm, inOrder⟩ := part
  have distinct := (inOrder.map (·.1)).nodup (s.nodup_share S secret state)
  exact (perm.map (·.1)).nodup_iff.mp distinct

/-! ## Recovery -/

/-- Enough consistent shares give the secret, unless the abscissas that fix the polynomial fall
together. -/
theorem reconstruct_of_consistent [Fact s.field.modulus.Prime] {secret : Nat}
    (enough : s.threshold ≤ shares.size) (consistent : s.Consistent shares.entries secret) :
    s.reconstruct shares =
      if ((s.lowest (shares.entries.map (·.1))).map (· % s.field.modulus)).Nodup then .ok secret
      else .error .collidingAbscissas := by
  obtain ⟨g, low, on, rfl⟩ := consistent
  have sound : ∀ e ∈ shares.entries, s.Sound e := by
    intro e member
    obtain ⟨residue, x, found, -⟩ := on e member
    exact ⟨Roster.mem_of_abscissa? found, residue⟩
  have onPoints : ∀ pt ∈ s.pointsOf shares, g.eval (pt.2.1 : s.field.Residue) = pt.2.2 := by
    intro pt member
    obtain ⟨here, entry⟩ := mem_pointsOf.mp member
    obtain ⟨-, x, found, value⟩ := on _ entry
    obtain rfl : x = pt.2.1 := Option.some.inj (found.symm.trans here)
    exact value
  by_cases apart : s.Apart (s.base shares)
  · rw [if_pos (apart_base_iff.mp apart)]
    have fits : s.Fits g (s.base shares) :=
      ⟨low, fun pt member => onPoints pt (List.mem_of_mem_take member)⟩
    exact (Verdict.recovered enough sound apart fits fun pt member =>
      onPoints pt (List.mem_of_mem_drop member)).reconstruct_eq
  · rw [if_neg (mt apart_base_iff.mpr apart)]
    exact (Verdict.colliding enough sound apart).reconstruct_eq

/-- In a field with more elements than the roster has parties, abscissas never fall together. -/
theorem nodup_lowest (fits : s.roster.size < s.field.modulus) (parties : List PartyId) :
    ((s.lowest parties).map (· % s.field.modulus)).Nodup := by
  have sublist : (s.lowest parties).Sublist (s.roster.points.map (·.2)) :=
    (List.take_sublist _ _).trans (List.filter_sublist.map _)
  have small : ∀ x ∈ s.lowest parties, x % s.field.modulus = x := by
    intro x member
    obtain ⟨e, point, rfl⟩ := List.mem_map.mp (sublist.subset member)
    have bounds := Roster.abscissa?_bounds (Roster.abscissa?_eq_some_iff.mpr point)
    exact Nat.mod_eq_of_lt (by omega)
  rw [List.map_congr_left small, List.map_id']
  exact sublist.nodup s.roster.nodup_abscissas

/-- **Recovery.** Whatever secret is shared and whatever is drawn for it, the shares of enough
parties, in any order, give the residue of the secret if the abscissas of those that come first in
the roster differ in the field, as they always do in a field with more elements than there are
parties, and are refused for their abscissas if not. -/
theorem reconstruct_share (s : Sharer) [Fact s.field.modulus.Prime] (S : Sampler σ) (secret : Nat)
    (state : σ) {chosen : List (PartyId × Nat)}
    (part : chosen.Subperm (s.share S secret state).1) (enough : s.threshold ≤ chosen.length) :
    (s.reconstruct (.ofList chosen) =
        if ((s.lowest (chosen.map (·.1))).map (· % s.field.modulus)).Nodup then
          .ok (secret % s.field.modulus)
        else .error .collidingAbscissas) ∧
      (s.roster.size < s.field.modulus →
        ((s.lowest (chosen.map (·.1))).map (· % s.field.modulus)).Nodup) := by
  have nodup : (chosen.map (·.1)).Nodup := by
    obtain ⟨sublist, perm, inOrder⟩ := part
    have distinct := (inOrder.map (·.1)).nodup (s.nodup_share S secret state)
    exact (perm.map (·.1)).nodup_iff.mp distinct
  have entries := PartyShares.entries_ofList nodup
  have size : s.threshold ≤ (PartyShares.ofList chosen).size := by
    rwa [PartyShares.size, entries]
  have consistent : s.Consistent (PartyShares.ofList chosen).entries (s.field.reduce secret) := by
    rw [entries]
    exact consistent_share S secret state part.subset
  have recovered := reconstruct_of_consistent size consistent
  rw [entries] at recovered
  exact ⟨recovered, fun fits => nodup_lowest fits _⟩

/-- Shares of the first, second and fourth party of the secret seven in the field of three elements,
with two as coefficient. The fourth abscissa falls on the first. -/
def narrowShares : List (PartyId × Nat) := [(⟨[4]⟩, 0), (⟨[2]⟩, 2), (⟨[1]⟩, 0)]

theorem narrow_recovery : narrow.field.modulus.Prime ∧
    narrowShares.Subperm (narrow.share Sampler.tape 7 [2]).1 ∧
    narrow.reconstruct (.ofList narrowShares) = .ok 1 ∧
    [(⟨[4]⟩, 0), (⟨[1]⟩, 0)].Subperm (narrow.share Sampler.tape 7 [2]).1 ∧
    narrow.reconstruct (.ofList [(⟨[4]⟩, 0), (⟨[1]⟩, 0)]) = .error .collidingAbscissas := by
  have prime : narrow.field.modulus.Prime := Nat.prime_three
  have : Fact narrow.field.modulus.Prime := ⟨prime⟩
  have part : narrowShares.Subperm (narrow.share Sampler.tape 7 [2]).1 := by decide
  have part' : [(⟨[4]⟩, 0), (⟨[1]⟩, 0)].Subperm (narrow.share Sampler.tape 7 [2]).1 := by decide
  refine ⟨prime, part, ?_, part', ?_⟩
  · rw [(narrow.reconstruct_share Sampler.tape 7 [2] part (by decide)).1, if_pos (by decide)]
    rfl
  · rw [(narrow.reconstruct_share Sampler.tape 7 [2] part' (by decide)).1, if_neg (by decide)]

end Sharer
end ThresholdMask
