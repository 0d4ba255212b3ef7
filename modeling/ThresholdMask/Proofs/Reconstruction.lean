import Mathlib
import ThresholdMask.Proofs.Interpolation
import ThresholdMask.Proofs.Outcomes
import ThresholdMask.Shamir.Sharer

/-!
# Reconstruction accepts what lies on one polynomial

`Sharer.Consistent` says what shares have to be so that they stand for a secret: residues, from
parties of the roster, on one polynomial of at most the sharer's degree whose constant term is the
secret. In a prime field with more elements than the roster has parties, reconstruction succeeds
exactly then and with this secret (`reconstruct_eq_ok_iff`). Since polynomials are determined by
their values at more points than their degree, the shares of enough parties fix the secret
(`Consistent.unique`).
-/

namespace ThresholdMask

open Polynomial

/-! ## Abscissas -/

namespace Roster

theorem abscissa?_eq_some_iff {R : Roster} {p : PartyId} {x : Nat} :
    R.abscissa? p = some x ↔ (p, x) ∈ R.points := by
  rw [points, List.mk_mem_zipIdx_iff_le_and_getElem?_sub, abscissa?, Option.map_eq_some_iff]
  constructor
  · rintro ⟨i, found, rfl⟩
    exact ⟨by omega, position?_eq_some_iff.mp found⟩
  · rintro ⟨positive, found⟩
    exact ⟨x - 1, position?_eq_some_iff.mpr found, by omega⟩

theorem abscissa?_bounds {R : Roster} {p : PartyId} {x : Nat} (h : R.abscissa? p = some x) :
    0 < x ∧ x ≤ R.size := by
  obtain ⟨i, found, rfl⟩ := Option.map_eq_some_iff.mp h
  have := position?_lt found
  omega

theorem abscissa?_injective {R : Roster} {p q : PartyId} {x : Nat} (hp : R.abscissa? p = some x)
    (hq : R.abscissa? q = some x) : p = q := by
  obtain ⟨i, foundP, rfl⟩ := Option.map_eq_some_iff.mp hp
  obtain ⟨k, foundQ, same⟩ := Option.map_eq_some_iff.mp hq
  obtain rfl : k = i := by omega
  exact position?_injective foundP foundQ

theorem exists_abscissa? {R : Roster} {p : PartyId} (h : p ∈ R.parties) :
    ∃ x, R.abscissa? p = some x := by
  obtain ⟨i, found⟩ := exists_position? h
  exact ⟨i + 1, by rw [abscissa?, found]; rfl⟩

theorem mem_of_abscissa? {R : Roster} {p : PartyId} {x : Nat} (h : R.abscissa? p = some x) :
    p ∈ R.parties := by
  obtain ⟨i, found, -⟩ := Option.map_eq_some_iff.mp h
  exact List.mem_of_getElem? (position?_eq_some_iff.mp found)

theorem map_fst_points (R : Roster) : R.points.map (·.1) = R.parties :=
  List.zipIdx_map_fst 1 R.parties

theorem nodup_abscissas (R : Roster) : (R.points.map (·.2)).Nodup := by
  rw [points, List.zipIdx_map_snd]
  exact List.nodup_range'

/-- Distinct parties of the roster, at least as many as the threshold. -/
structure Quorum (R : Roster) (threshold : Nat) (parties : List PartyId) : Prop where
  nodup : parties.Nodup
  mem : ∀ p ∈ parties, p ∈ R.parties
  enough : threshold ≤ parties.length

end Roster

/-- In a field with more elements than the roster has parties, abscissas stay apart. -/
theorem natCast_abscissa_injective {F : PrimeField} {R : Roster} (fits : R.size < F.modulus)
    {p q : PartyId} {x y : Nat} (hp : R.abscissa? p = some x) (hq : R.abscissa? q = some y)
    (same : (x : F.Residue) = y) : x = y := by
  have := Roster.abscissa?_bounds hp
  have := Roster.abscissa?_bounds hq
  exact (F.natCast_inj (by omega) (by omega)).mp same

/-! ## Shares by party -/

namespace PartyShares

theorem get?_eq_some_iff {shares : PartyShares} {p : PartyId} {y : Nat} :
    shares.get? p = some y ↔ (p, y) ∈ shares.entries :=
  lookup_eq_some_iff_mem shares.nodup

theorem enter_of_not_mem {p : PartyId} {share : Nat} {entries : List (PartyId × Nat)}
    (fresh : p ∉ entries.map (·.1)) : enter p share entries = entries ++ [(p, share)] := by
  induction entries with
  | nil => rfl
  | cons e rest ih =>
    rw [List.map_cons, List.mem_cons, not_or] at fresh
    rw [enter, if_neg fun same => fresh.1 same.symm, ih fresh.2, List.cons_append]

/-- Shares of distinct parties are collected in their order. -/
theorem entries_ofList {entries : List (PartyId × Nat)} (nodup : (entries.map (·.1)).Nodup) :
    (ofList entries).entries = entries := by
  -- the entries collected so far stand in front of those still to come
  have collect : ∀ (l : List (PartyId × Nat)) (s : PartyShares),
      ((s.entries ++ l).map (·.1)).Nodup →
      (l.foldl (fun s e => s.insert e.1 e.2) s).entries = s.entries ++ l := by
    intro l
    induction l with
    | nil => simp
    | cons e rest ih =>
      intro s nodup
      have fresh : e.1 ∉ s.entries.map (·.1) := by
        rw [List.map_append, List.nodup_append] at nodup
        exact fun there => nodup.2.2 e.1 there e.1 (by simp) rfl
      have entered : (s.insert e.1 e.2).entries = s.entries ++ [e] := enter_of_not_mem fresh
      rw [List.foldl_cons, ih _ (by rw [entered]; simpa using nodup), entered,
        List.append_assoc, List.singleton_append]
  have := collect entries empty (by simpa [empty] using nodup)
  simpa [ofList, empty] using this

end PartyShares

/-! ## Consistent shares -/

namespace Sharer

variable (s : Sharer)

/-- The share is a residue, and the value of the polynomial at its party's abscissa. -/
def LiesOn (g : s.field.Residue[X]) (share : PartyId × Nat) : Prop :=
  share.2 < s.field.modulus ∧
    ∃ x, s.roster.abscissa? share.1 = some x ∧ g.eval (x : s.field.Residue) = share.2

/-- The shares lie on one polynomial of at most the sharer's degree, whose constant term is the
secret. -/
def Consistent (shares : List (PartyId × Nat)) (secret : Nat) : Prop :=
  ∃ g : s.field.Residue[X], g.natDegree ≤ s.degree ∧ (∀ share ∈ shares, s.LiesOn g share) ∧
    secret = (g.eval 0).val

variable {s}

theorem Consistent.lt [NeZero s.field.modulus] {shares : List (PartyId × Nat)} {secret : Nat}
    (h : s.Consistent shares secret) : secret < s.field.modulus := by
  obtain ⟨g, -, -, rfl⟩ := h
  exact ZMod.val_lt _

theorem degree_lt_threshold_iff {g : s.field.Residue[X]} :
    g.degree < (s.threshold : WithBot Nat) ↔ g.natDegree ≤ s.degree := by
  rw [degree_lt_iff_coeff_zero, natDegree_le_iff_coeff_eq_zero]
  exact forall_congr' fun k => by rw [threshold, Nat.succ_le_iff]

/-- **Uniqueness.** Consistent shares of a quorum fix the secret of every consistent shares that
they are part of. -/
theorem Consistent.unique [Fact s.field.modulus.Prime] (fits : s.roster.size < s.field.modulus)
    {shares others : List (PartyId × Nat)} {secret secret' : Nat}
    (quorum : s.roster.Quorum s.threshold (shares.map (·.1)))
    (h : s.Consistent shares secret) (h' : s.Consistent others secret')
    (part : shares ⊆ others) : secret = secret' := by
  obtain ⟨f, lowF, onF, rfl⟩ := h
  obtain ⟨g, lowG, onG, rfl⟩ := h'
  let node (share : PartyId × Nat) : s.field.Residue :=
    ((s.roster.abscissa? share.1).getD 0 : Nat)
  have found : ∀ share ∈ shares, ∃ x, s.roster.abscissa? share.1 = some x := fun share member =>
    Roster.exists_abscissa? (quorum.mem _ (List.mem_map_of_mem member))
  -- distinct parties have distinct abscissas, which stay apart in the field
  have distinct : (shares.map node).Nodup := by
    refine List.Nodup.map_on (fun a ha b hb same => ?_) (List.Nodup.of_map _ quorum.nodup)
    obtain ⟨x, atX⟩ := found a ha
    obtain ⟨y, atY⟩ := found b hb
    have equal : x = y := natCast_abscissa_injective fits atX atY (by simpa [node, atX, atY] using same)
    exact List.inj_on_of_nodup_map quorum.nodup ha hb
      (Roster.abscissa?_injective atX (equal ▸ atY))
  have enough : (s.threshold : WithBot Nat) ≤ (shares.map node).length := by
    have := quorum.enough
    rw [List.length_map] at this ⊢
    exact_mod_cast this
  have same : f = g := by
    refine eq_of_agree distinct (lt_of_lt_of_le (degree_lt_threshold_iff.mpr lowF) enough)
      (lt_of_lt_of_le (degree_lt_threshold_iff.mpr lowG) enough) fun x member => ?_
    obtain ⟨share, inShares, rfl⟩ := List.mem_map.mp member
    obtain ⟨x, atX⟩ := found share inShares
    obtain ⟨-, x', atX', valueF⟩ := onF share inShares
    obtain ⟨-, x'', atX'', valueG⟩ := onG share (part inShares)
    obtain rfl : x' = x := Option.some.inj (atX'.symm.trans atX)
    obtain rfl : x'' = x' := Option.some.inj (atX''.symm.trans atX')
    simp only [node, atX, Option.getD_some, valueF, valueG]
  rw [same]

/-! ## Points -/

theorem mem_pointsOf {shares : PartyShares} {p : PartyId} {x y : Nat} :
    (p, x, y) ∈ s.pointsOf shares ↔ s.roster.abscissa? p = some x ∧ (p, y) ∈ shares.entries := by
  rw [pointsOf, List.mem_filterMap, Roster.abscissa?_eq_some_iff, ← PartyShares.get?_eq_some_iff]
  constructor
  · rintro ⟨⟨q, x'⟩, onRoster, found⟩
    obtain ⟨y', share, same⟩ := Option.map_eq_some_iff.mp found
    obtain ⟨rfl, rfl, rfl⟩ : q = p ∧ x' = x ∧ y' = y := by simpa using same
    exact ⟨onRoster, share⟩
  · rintro ⟨onRoster, share⟩
    exact ⟨(p, x), onRoster, by simp [share]⟩

/-- Points come from different parties. -/
theorem nodup_map_fst_pointsOf (s : Sharer) (shares : PartyShares) :
    ((s.pointsOf shares).map (·.1)).Nodup := by
  have sublist : ((s.pointsOf shares).map (·.1)).Sublist s.roster.parties := by
    rw [pointsOf, List.map_filterMap, ← Roster.map_fst_points]
    refine filterMap_sublist_map (fun a b found => ?_) _
    obtain ⟨⟨q, x, y⟩, first, rfl⟩ := Option.map_eq_some_iff.mp found
    obtain ⟨y', -, same⟩ := Option.map_eq_some_iff.mp first
    exact congrArg (·.1) same
  exact sublist.nodup s.roster.nodup

/-- Every share of a party on the roster has its point. -/
theorem length_pointsOf {shares : PartyShares}
    (onRoster : ∀ e ∈ shares.entries, e.1 ∈ s.roster.parties) :
    (s.pointsOf shares).length = shares.size := by
  -- points come in roster order and entries in theirs, but of the same parties
  have perm : ((s.pointsOf shares).map (·.1)).Perm (shares.entries.map (·.1)) := by
    rw [List.perm_ext_iff_of_nodup (s.nodup_map_fst_pointsOf shares) shares.nodup]
    intro p
    constructor
    · intro member
      obtain ⟨⟨q, x, y⟩, inPoints, rfl⟩ := List.mem_map.mp member
      exact List.mem_map_of_mem (mem_pointsOf.mp inPoints).2
    · intro member
      obtain ⟨⟨q, y⟩, entry, rfl⟩ := List.mem_map.mp member
      obtain ⟨x, found⟩ := Roster.exists_abscissa? (onRoster _ entry)
      exact List.mem_map.mpr ⟨(q, x, y), mem_pointsOf.mpr ⟨found, entry⟩, rfl⟩
  simpa [PartyShares.size] using perm.length_eq

theorem nodup_abscissas_pointsOf (fits : s.roster.size < s.field.modulus) (shares : PartyShares) :
    ((s.pointsOf shares).map fun pt => (pt.2.1 : s.field.Residue)).Nodup := by
  have sublist : ((s.pointsOf shares).map (·.2.1)).Sublist (s.roster.points.map (·.2)) := by
    rw [pointsOf, List.map_filterMap]
    refine filterMap_sublist_map (fun a b found => ?_) _
    obtain ⟨⟨q, x, y⟩, first, rfl⟩ := Option.map_eq_some_iff.mp found
    obtain ⟨y', -, same⟩ := Option.map_eq_some_iff.mp first
    exact congrArg (·.2.1) same
  have nodup := sublist.nodup s.roster.nodup_abscissas
  refine List.Nodup.map_on (fun a ha b hb same => ?_) (List.Nodup.of_map _ nodup)
  have equal := natCast_abscissa_injective fits (mem_pointsOf.mp ha).1 (mem_pointsOf.mp hb).1 same
  exact List.inj_on_of_nodup_map nodup ha hb equal

/-! ## Reconstruction -/

theorem checkEntry_eq_ok {e : PartyId × Nat} :
    s.checkEntry e = .ok () ↔ e.1 ∈ s.roster.parties ∧ e.2 < s.field.modulus := by
  rw [checkEntry, ite_error_eq_ok, ite_error_eq_ok, Roster.contains, PrimeField.contains]
  simp

variable [prime : Fact s.field.modulus.Prime]

/-- Interpolation from the first points evaluates the one polynomial through them. -/
theorem interpolate?_base {points : List (PartyId × Nat × Nat)}
    (distinct : (points.map fun pt => (pt.2.1 : s.field.Residue)).Nodup) {g : s.field.Residue[X]}
    (low : g.degree < points.length)
    (through : ∀ pt ∈ points, g.eval (pt.2.1 : s.field.Residue) = pt.2.2) (z : Nat) :
    s.field.interpolate? (points.map (·.2)) z = some (g.eval (z : s.field.Residue)).val := by
  apply s.field.interpolate?_eq_some
  · rwa [List.map_map]
  · rwa [List.length_map]
  · intro pt member
    obtain ⟨pt', inPoints, rfl⟩ := List.mem_map.mp member
    exact through pt' inPoints

/-- Once the polynomial through the first points is known, the first of the others that does not lie
on it is reported, and if there is none, its constant term is the secret. -/
theorem recover_eq {points : List (PartyId × Nat × Nat)}
    (distinct : ((points.take s.threshold).map fun pt => (pt.2.1 : s.field.Residue)).Nodup)
    (residues : ∀ pt ∈ points, pt.2.2 < s.field.modulus)
    (enough : s.threshold ≤ points.length) {g : s.field.Residue[X]}
    (low : g.degree < (s.threshold : WithBot Nat))
    (onBase : ∀ pt ∈ points.take s.threshold, g.eval (pt.2.1 : s.field.Residue) = pt.2.2) :
    s.recover points =
      match (points.drop s.threshold).find? fun pt =>
        !decide (g.eval (pt.2.1 : s.field.Residue) = pt.2.2) with
      | none => .ok (g.eval 0).val
      | some pt => .error (.corruption pt.1) := by
  have size : (points.take s.threshold).length = s.threshold := by simp [enough]
  have value := interpolate?_base distinct (by rwa [size]) onBase
  have extra : ∀ pt ∈ points.drop s.threshold,
      s.checkExtra ((points.take s.threshold).map (·.2)) pt =
        if g.eval (pt.2.1 : s.field.Residue) = pt.2.2 then .ok ()
        else .error (.corruption pt.1) := by
    intro pt member
    rw [checkExtra, value]
    -- the check compares numbers, and only residues are determined by the polynomial
    have residue := residues pt (List.mem_of_mem_drop member)
    have same : (g.eval (pt.2.1 : s.field.Residue)).val = pt.2.2 ↔
        g.eval (pt.2.1 : s.field.Residue) = pt.2.2 := by
      constructor
      · intro same
        rw [← same, ZMod.natCast_zmod_val]
      · intro same
        exact (s.field.eq_val_of_natCast_eq residue same.symm).symm
    simp only [same]
  unfold recover
  simp only [value, Nat.cast_zero]
  have checks : (points.drop s.threshold).forM (s.checkExtra _) = _ :=
    forM_congr extra
  rw [checks, forM_check_eq]
  cases (points.drop s.threshold).find? _ <;> rfl

/-- Once the polynomial through the first points is known, the others have to lie on it, and its
constant term is the secret. -/
theorem recover_eq_ok_iff_of_base {points : List (PartyId × Nat × Nat)} {secret : Nat}
    (distinct : (points.map fun pt => (pt.2.1 : s.field.Residue)).Nodup)
    (residues : ∀ pt ∈ points, pt.2.2 < s.field.modulus)
    (enough : s.threshold ≤ points.length) {g : s.field.Residue[X]}
    (low : g.degree < (s.threshold : WithBot Nat))
    (onBase : ∀ pt ∈ points.take s.threshold, g.eval (pt.2.1 : s.field.Residue) = pt.2.2) :
    s.recover points = .ok secret ↔
      (∀ pt ∈ points.drop s.threshold, g.eval (pt.2.1 : s.field.Residue) = pt.2.2) ∧
        secret = (g.eval 0).val := by
  have distinctBase := ((List.take_sublist s.threshold points).map
    fun pt => (pt.2.1 : s.field.Residue)).nodup distinct
  rw [recover_eq distinctBase residues enough low onBase]
  cases off : (points.drop s.threshold).find? fun pt =>
      !decide (g.eval (pt.2.1 : s.field.Residue) = pt.2.2) with
  | none =>
    have onExtra : ∀ pt ∈ points.drop s.threshold,
        g.eval (pt.2.1 : s.field.Residue) = pt.2.2 := by
      simpa using off
    simp only [Except.ok.injEq, eq_comm (a := secret)]
    exact ⟨fun constant => ⟨onExtra, constant⟩, fun h => h.2⟩
  | some pt =>
    have member := List.mem_of_find?_eq_some off
    have differ : g.eval (pt.2.1 : s.field.Residue) ≠ pt.2.2 := by
      simpa using List.find?_some off
    simp only [reduceCtorEq, false_iff]
    exact fun h => differ (h.1 pt member)

/-- The first points fix a polynomial, and the others have to lie on it. -/
theorem recover_eq_ok_iff {points : List (PartyId × Nat × Nat)} {secret : Nat}
    (distinct : (points.map fun pt => (pt.2.1 : s.field.Residue)).Nodup)
    (residues : ∀ pt ∈ points, pt.2.2 < s.field.modulus)
    (enough : s.threshold ≤ points.length) :
    s.recover points = .ok secret ↔ ∃ g : s.field.Residue[X], g.natDegree ≤ s.degree ∧
      (∀ pt ∈ points, g.eval (pt.2.1 : s.field.Residue) = pt.2.2) ∧ secret = (g.eval 0).val := by
  have size : (points.take s.threshold).length = s.threshold := by simp [enough]
  have apart := ((List.take_sublist s.threshold points).map
    fun pt => (pt.2.1 : s.field.Residue)).nodup distinct
  obtain ⟨g, ⟨low, onBase⟩, only⟩ :=
    existsUnique_polynomial_through (fun pt => (pt.2.2 : s.field.Residue)) apart
  rw [size] at low only
  rw [recover_eq_ok_iff_of_base distinct residues enough low onBase]
  constructor
  · rintro ⟨onExtra, constant⟩
    refine ⟨g, degree_lt_threshold_iff.mp low, ?_, constant⟩
    intro pt member
    rw [← List.take_append_drop s.threshold points, List.mem_append] at member
    rcases member with inBase | inExtra
    · exact onBase pt inBase
    · exact onExtra pt inExtra
  · rintro ⟨f, lowF, onAll, constant⟩
    -- a polynomial through all points goes through the first ones, which leave no choice
    have same : f = g := only f ⟨degree_lt_threshold_iff.mpr lowF,
      fun pt inBase => onAll pt (List.mem_of_mem_take inBase)⟩
    subst same
    exact ⟨fun pt member => onAll pt (List.mem_of_mem_drop member), constant⟩

/-- **Reconstruction.** It succeeds exactly on enough shares that are consistent, with the secret
that they are consistent with. -/
theorem reconstruct_eq_ok_iff (fits : s.roster.size < s.field.modulus) {shares : PartyShares}
    {secret : Nat} : s.reconstruct shares = .ok secret ↔
      s.threshold ≤ shares.size ∧ s.Consistent shares.entries secret := by
  rw [reconstruct, error_ite_eq_ok, not_lt]
  apply and_congr_right
  intro enough
  rw [check_bind_eq_ok, forM_eq_ok]
  simp only [checkEntry_eq_ok]
  constructor
  · rintro ⟨checked, recovered⟩
    have residues : ∀ pt ∈ s.pointsOf shares, pt.2.2 < s.field.modulus := fun pt member =>
      (checked _ (mem_pointsOf.mp member).2).2
    rw [recover_eq_ok_iff (nodup_abscissas_pointsOf fits shares) residues
      (by rw [length_pointsOf fun e member => (checked e member).1]; exact enough)] at recovered
    obtain ⟨g, low, on, constant⟩ := recovered
    refine ⟨g, low, fun e member => ⟨(checked e member).2, ?_⟩, constant⟩
    obtain ⟨x, found⟩ := Roster.exists_abscissa? (checked e member).1
    exact ⟨x, found, on (e.1, x, e.2) (mem_pointsOf.mpr ⟨found, member⟩)⟩
  · rintro ⟨g, low, on, constant⟩
    have checked : ∀ e ∈ shares.entries, e.1 ∈ s.roster.parties ∧ e.2 < s.field.modulus := by
      intro e member
      obtain ⟨residue, x, found, -⟩ := on e member
      exact ⟨Roster.mem_of_abscissa? found, residue⟩
    refine ⟨checked, ?_⟩
    rw [recover_eq_ok_iff (nodup_abscissas_pointsOf fits shares)
      (fun pt member => (checked _ (mem_pointsOf.mp member).2).2)
      (by rw [length_pointsOf fun e member => (checked e member).1]; exact enough)]
    refine ⟨g, low, fun pt member => ?_, constant⟩
    obtain ⟨foundPt, entry⟩ := mem_pointsOf.mp member
    obtain ⟨-, x, found, value⟩ := on _ entry
    obtain rfl : x = pt.2.1 := Option.some.inj (found.symm.trans foundPt)
    exact value

/-- The shares of a quorum, in any order, are reconstructed exactly if they are consistent. -/
theorem reconstruct_ofList_eq_ok_iff (fits : s.roster.size < s.field.modulus)
    {shares : List (PartyId × Nat)} (quorum : s.roster.Quorum s.threshold (shares.map (·.1)))
    {secret : Nat} :
    s.reconstruct (PartyShares.ofList shares) = .ok secret ↔ s.Consistent shares secret := by
  have entries := PartyShares.entries_ofList quorum.nodup
  rw [reconstruct_eq_ok_iff fits, PartyShares.size, entries]
  have enough := quorum.enough
  rw [List.length_map] at enough
  exact ⟨fun h => h.2, fun h => ⟨enough, h⟩⟩

end Sharer
end ThresholdMask
