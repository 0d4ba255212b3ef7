import Mathlib
import ThresholdMask.Proofs.Privacy
import ThresholdMask.Proofs.Recovery

/-!
# One altered share

Let all shares but one lie on a polynomial of at most the sharer's degree
(`Sharer.PassesBut`). If the other one comes from a party further down the roster, the shares that
come first fix this polynomial, and the altered share is off it. If it is one of those that come
first, they fix another polynomial, which meets the first one at their other abscissas. These are as
many as the degree, so the two polynomials meet nowhere else (`eval_ne_of_agree`): not at zero,
where the secret is, and not at the abscissa of any further party.

So a single altered share never goes unnoticed where there is a share to spare, and always changes
the secret where there is none (`Sharer.reconstruct_altered`).
-/

namespace ThresholdMask

open Polynomial

/-- Polynomials that agree at as many nodes as bound their degrees meet nowhere else, unless they
are the same. -/
theorem eval_ne_of_agree {K : Type} [Field K] {nodes : List K} (distinct : nodes.Nodup)
    {f g : K[X]} (lowF : f.natDegree ≤ nodes.length) (lowG : g.natDegree ≤ nodes.length)
    (agree : ∀ x ∈ nodes, f.eval x = g.eval x) (differ : f ≠ g) {z : K} (elsewhere : z ∉ nodes) :
    f.eval z ≠ g.eval z := by
  intro same
  have below {h : K[X]} (low : h.natDegree ≤ nodes.length) : h.degree < (z :: nodes).length := by
    refine lt_of_le_of_lt (degree_le_of_natDegree_le low) ?_
    rw [List.length_cons]
    exact_mod_cast Nat.lt_succ_self _
  have distinct' : (z :: nodes).Nodup := List.nodup_cons.mpr ⟨elsewhere, distinct⟩
  refine differ (eq_of_agree distinct' (below lowF) (below lowG) ?_)
  rw [List.forall_mem_cons]
  exact ⟨same, agree⟩

/-- In a field with more elements than the roster has parties, no abscissa is zero. -/
theorem natCast_abscissa_ne_zero {F : PrimeField} {R : Roster} (fits : R.size < F.modulus)
    {p : PartyId} {x : Nat} (found : R.abscissa? p = some x) : (x : F.Residue) ≠ 0 := by
  have bounds := Roster.abscissa?_bounds found
  intro zero
  have equal : x = 0 := (F.natCast_inj (by omega) (by omega)).mp (zero.trans Nat.cast_zero.symm)
  omega

/-! ## Putting in another share -/

namespace PartyShares

theorem lookup_enter (p q : PartyId) (y : Nat) (entries : List (PartyId × Nat)) :
    (enter p y entries).lookup q = if q = p then some y else entries.lookup q := by
  induction entries with
  | nil => rw [enter, lookup_cons_eq_ite]
  | cons e rest ih =>
    rw [enter]
    by_cases here : e.1 = p
    · rw [if_pos here, lookup_cons_eq_ite, lookup_cons_eq_ite, here]
      by_cases same : q = p
      · simp [same]
      · simp [same]
    · rw [if_neg here, lookup_cons_eq_ite, lookup_cons_eq_ite, ih]
      by_cases same : q = e.1
      · simp [same, here]
      · simp [same]

theorem get?_insert (shares : PartyShares) (p q : PartyId) (y : Nat) :
    (shares.insert p y).get? q = if q = p then some y else shares.get? q :=
  lookup_enter p q y shares.entries

theorem map_fst_enter_of_mem {p : PartyId} {entries : List (PartyId × Nat)} (y : Nat)
    (member : p ∈ entries.map (·.1)) : (enter p y entries).map (·.1) = entries.map (·.1) := by
  induction entries with
  | nil => cases member
  | cons e rest ih =>
    rw [enter]
    by_cases here : e.1 = p
    · rw [if_pos here, List.map_cons, List.map_cons, here]
    · rw [if_neg here, List.map_cons, List.map_cons,
        ih ((List.mem_cons.mp member).resolve_left fun same => here same.symm)]

/-- Replacing the share of a party leaves the parties. -/
theorem map_fst_insert_of_mem {shares : PartyShares} {p : PartyId}
    (member : p ∈ shares.entries.map (·.1)) (y : Nat) :
    (shares.insert p y).entries.map (·.1) = shares.entries.map (·.1) :=
  map_fst_enter_of_mem y member

theorem mem_entries_insert {shares : PartyShares} {p q : PartyId} {y z : Nat} :
    (q, z) ∈ (shares.insert p y).entries ↔
      q = p ∧ z = y ∨ q ≠ p ∧ (q, z) ∈ shares.entries := by
  rw [← get?_eq_some_iff, ← get?_eq_some_iff, get?_insert]
  by_cases same : q = p <;> simp [same, eq_comm]

end PartyShares

/-! ## Parties in roster order -/

/-- The parties of the roster that are among those given, in roster order. -/
def Roster.inOrder (R : Roster) (parties : List PartyId) : List PartyId :=
  R.parties.filter fun p => decide (p ∈ parties)

namespace Sharer

variable {s : Sharer} {shares : PartyShares}

/-- The points of shares come from their parties, in roster order. -/
theorem map_fst_pointsOf (s : Sharer) (shares : PartyShares) :
    (s.pointsOf shares).map (·.1) = s.roster.inOrder (shares.entries.map (·.1)) := by
  have places := congrArg (List.map (·.1)) (s.map_place_pointsOf shares)
  rw [List.map_map] at places
  refine places.trans ?_
  rw [Roster.inOrder, ← Roster.map_fst_points, List.filter_map]
  rfl

theorem map_fst_base (s : Sharer) (shares : PartyShares) :
    (s.base shares).map (·.1) =
      (s.roster.inOrder (shares.entries.map (·.1))).take s.threshold := by
  rw [base, List.map_take, map_fst_pointsOf]

/-- The points of the parties that come first, and those of the others. -/
theorem base_append_extra (s : Sharer) (shares : PartyShares) :
    s.base shares ++ s.extra shares = s.pointsOf shares := List.take_append_drop _ _

/-- Beside a party among those that fix the polynomial there are as many others as the degree. -/
theorem exists_others_of_mem_base {p : PartyId} (enough : s.threshold ≤ shares.size)
    (sound : ∀ e ∈ shares.entries, s.Sound e) (first : p ∈ (s.base shares).map (·.1)) :
    ∃ pt others, (s.base shares).Perm (pt :: others) ∧ pt.1 = p ∧
      others.length = s.degree ∧ ∀ other ∈ others, other.1 ≠ p := by
  obtain ⟨pt, inBase, rfl⟩ := List.mem_map.mp first
  obtain ⟨before, after, split⟩ := List.append_of_mem inBase
  have perm : (s.base shares).Perm (pt :: (before ++ after)) := split ▸ List.perm_middle
  have parties : (pt.1 :: (before ++ after).map (·.1)).Nodup := by
    have sublist : ((s.base shares).map (·.1)).Sublist ((s.pointsOf shares).map (·.1)) :=
      (List.take_sublist s.threshold _).map _
    exact (perm.map (·.1)).nodup_iff.mp (sublist.nodup (s.nodup_map_fst_pointsOf shares))
  refine ⟨pt, before ++ after, perm, rfl, ?_, fun other member same => ?_⟩
  · have length := perm.length_eq
    rw [length_base enough sound, List.length_cons] at length
    exact (Nat.succ.inj length).symm
  · exact (List.nodup_cons.mp parties).1 (same ▸ List.mem_map_of_mem member)

/-! ## Shares of which one is altered -/

/-- The polynomial has at most the sharer's degree and passes through the points of all shares but
that of one party. -/
structure PassesBut (s : Sharer) (f : s.field.Residue[X]) (altered : PartyId)
    (shares : PartyShares) : Prop where
  natDegree_le : f.natDegree ≤ s.degree
  eval_eq_iff : ∀ pt ∈ s.pointsOf shares,
    f.eval (pt.2.1 : s.field.Residue) = pt.2.2 ↔ pt.1 ≠ altered

variable [prime : Fact s.field.modulus.Prime] {f : s.field.Residue[X]} {altered : PartyId}

/-- Where the altered share is not one of those that fix the polynomial, it is found to be off. -/
theorem reconstruct_of_not_mem_base (fits : s.roster.size < s.field.modulus)
    (enough : s.threshold ≤ shares.size) (sound : ∀ e ∈ shares.entries, s.Sound e)
    (but : s.PassesBut f altered shares) (present : altered ∈ (s.pointsOf shares).map (·.1))
    (later : altered ∉ (s.base shares).map (·.1)) :
    s.reconstruct shares = .error (.corruption altered) := by
  have apart := apart_base fits shares
  have through : s.Fits f (s.base shares) := by
    refine ⟨but.natDegree_le, fun pt member => ?_⟩
    refine (but.eval_eq_iff pt (List.mem_of_mem_take member)).mpr fun same => later ?_
    exact same ▸ List.mem_map_of_mem member
  cases first : s.firstOff? f (s.extra shares) with
  | none =>
    have onExtra := firstOff?_eq_none_iff.mp first
    obtain ⟨pt, point, rfl⟩ := List.mem_map.mp present
    rw [← base_append_extra, List.mem_append] at point
    rcases point with inBase | inExtra
    · exact absurd (List.mem_map_of_mem inBase) later
    · exact absurd rfl
        ((but.eval_eq_iff pt (List.mem_of_mem_drop inExtra)).mp (onExtra pt inExtra))
  | some pt =>
    have member : pt ∈ s.pointsOf shares := List.mem_of_mem_drop (List.mem_of_find?_eq_some first)
    have off : f.eval (pt.2.1 : s.field.Residue) ≠ pt.2.2 := by
      simpa using List.find?_some first
    have same : pt.1 = altered := by
      by_contra other
      exact off ((but.eval_eq_iff pt member).mpr other)
    rw [← same]
    exact (Verdict.corrupted enough sound apart through first).reconstruct_eq

/-- Where the altered share is one of those that fix the polynomial, they fix one that meets the
other only at the abscissas of the other ones. -/
theorem eval_ne_of_mem_base (fits : s.roster.size < s.field.modulus)
    (enough : s.threshold ≤ shares.size) (sound : ∀ e ∈ shares.entries, s.Sound e)
    (but : s.PassesBut f altered shares) (first : altered ∈ (s.base shares).map (·.1))
    {g : s.field.Residue[X]} (through : s.Fits g (s.base shares)) {z : s.field.Residue}
    (elsewhere : ∀ pt ∈ s.base shares, z ≠ pt.2.1) : f.eval z ≠ g.eval z := by
  obtain ⟨pt, others, perm, rfl, count, honest⟩ := exists_others_of_mem_base enough sound first
  have inBase : pt ∈ s.base shares := perm.mem_iff.mpr List.mem_cons_self
  have inside : ∀ other ∈ others, other ∈ s.base shares := fun other member =>
    perm.mem_iff.mpr (List.mem_cons_of_mem _ member)
  let node (pt : PartyId × Nat × Nat) : s.field.Residue := pt.2.1
  have apart : ((pt :: others).map node).Nodup :=
    (perm.map node).nodup_iff.mp (apart_base fits shares)
  have low : s.degree = (others.map node).length := by rw [List.length_map, count]
  refine eval_ne_of_agree (List.nodup_cons.mp apart).2 (low ▸ but.natDegree_le)
    (low ▸ through.natDegree_le) ?_ ?_ ?_
  · -- both pass through the honest points
    intro x member
    obtain ⟨other, there, rfl⟩ := List.mem_map.mp member
    have onF := (but.eval_eq_iff other (List.mem_of_mem_take (inside other there))).mpr
      (honest other there)
    exact onF.trans (through.eval_eq other (inside other there)).symm
  · -- and only one of them through the altered point
    rintro rfl
    exact (but.eval_eq_iff pt (List.mem_of_mem_take inBase)).mp (through.eval_eq pt inBase) rfl
  · intro member
    obtain ⟨other, there, same⟩ := List.mem_map.mp member
    exact elsewhere other (inside other there) same.symm

/-- Without a share to spare, an altered one changes the secret. -/
theorem reconstruct_of_mem_base_of_eq (fits : s.roster.size < s.field.modulus)
    (exact : shares.size = s.threshold) (sound : ∀ e ∈ shares.entries, s.Sound e)
    (but : s.PassesBut f altered shares) (first : altered ∈ (s.base shares).map (·.1)) :
    ∃ wrong < s.field.modulus, wrong ≠ (f.eval 0).val ∧ s.reconstruct shares = .ok wrong := by
  have enough : s.threshold ≤ shares.size := exact.ge
  have apart := apart_base fits shares
  obtain ⟨g, through, -⟩ := existsUnique_fits_base enough sound apart
  have none : s.extra shares = [] := by
    rw [extra, List.drop_eq_nil_iff, length_pointsOf fun e member => (sound e member).1]
    exact exact.le
  have zero : ∀ pt ∈ s.base shares, (0 : s.field.Residue) ≠ pt.2.1 := fun pt member =>
    (natCast_abscissa_ne_zero fits (mem_pointsOf.mp (List.mem_of_mem_take member)).1).symm
  have differ := eval_ne_of_mem_base fits enough sound but first through zero
  refine ⟨(g.eval 0).val, ZMod.val_lt _, fun same => ?_, ?_⟩
  · exact differ (ZMod.val_injective _ same.symm)
  · refine (Verdict.recovered enough sound apart through fun pt member => ?_).reconstruct_eq
    rw [none] at member
    cases member

/-- With a share to spare, an altered one among those that fix the polynomial puts the next one off
it. -/
theorem reconstruct_of_mem_base_of_lt (fits : s.roster.size < s.field.modulus)
    (spare : s.threshold < shares.size) (sound : ∀ e ∈ shares.entries, s.Sound e)
    (but : s.PassesBut f altered shares) (first : altered ∈ (s.base shares).map (·.1)) :
    ∃ next, ((s.pointsOf shares).map (·.1))[s.threshold]? = some next ∧ next ≠ altered ∧
      s.reconstruct shares = .error (.corruption next) := by
  have apart := apart_base fits shares
  obtain ⟨g, through, -⟩ := existsUnique_fits_base spare.le sound apart
  have long : s.threshold < (s.pointsOf shares).length := by
    rwa [length_pointsOf fun e member => (sound e member).1]
  obtain ⟨pt, here⟩ : ∃ pt, (s.pointsOf shares)[s.threshold]? = some pt :=
    ⟨_, List.getElem?_eq_getElem long⟩
  have later : s.extra shares = pt :: (s.pointsOf shares).drop (s.threshold + 1) := by
    rw [extra, List.drop_eq_getElem_cons long]
    rw [List.getElem?_eq_getElem long] at here
    rw [Option.some.inj here]
  have member : pt ∈ s.pointsOf shares := List.mem_of_getElem? here
  have parties : ∀ other ∈ s.base shares, other.1 ≠ pt.1 := by
    have nodup := s.nodup_map_fst_pointsOf shares
    rw [← base_append_extra, List.map_append, List.nodup_append, later] at nodup
    exact fun other inBase => nodup.2.2 _ (List.mem_map_of_mem inBase) _ (by simp)
  have elsewhere : ∀ other ∈ s.base shares, (pt.2.1 : s.field.Residue) ≠ other.2.1 := by
    intro other inBase same
    have found := (mem_pointsOf.mp (List.mem_of_mem_take inBase)).1
    have equal := natCast_abscissa_injective fits (mem_pointsOf.mp member).1 found same
    exact parties other inBase
      (Roster.abscissa?_injective found (equal ▸ (mem_pointsOf.mp member).1))
  have honest : pt.1 ≠ altered := by
    obtain ⟨other, inBase, rfl⟩ := List.mem_map.mp first
    exact (parties other inBase).symm
  have off : g.eval (pt.2.1 : s.field.Residue) ≠ pt.2.2 := by
    rw [← (but.eval_eq_iff pt member).mpr honest]
    exact (eval_ne_of_mem_base fits spare.le sound but first through elsewhere).symm
  have firstOff : s.firstOff? g (s.extra shares) = some pt := by
    rw [firstOff?, later, List.find?_cons_of_pos (by simpa using off)]
  refine ⟨pt.1, by rw [List.getElem?_map, here]; rfl, honest, ?_⟩
  exact (Verdict.corrupted spare.le sound apart through firstOff).reconstruct_eq

/-! ## Sharings -/

variable {σ : Type}

/-- Shares of one sharing of which one is replaced lie on the polynomial that was drawn, all but
that one. -/
theorem exists_passesBut_of_share (S : Sampler σ) (secret : Nat) (state : σ)
    {chosen : List (PartyId × Nat)} (part : chosen.Subperm (s.share S secret state).1)
    {y y' : Nat} (member : (altered, y) ∈ chosen) (residue : y' < s.field.modulus)
    (differ : y' ≠ y) :
    ∃ f, s.PassesBut f altered ((PartyShares.ofList chosen).insert altered y') ∧
      (f.eval 0).val = secret % s.field.modulus ∧
      (∀ e ∈ ((PartyShares.ofList chosen).insert altered y').entries, s.Sound e) ∧
      ((PartyShares.ofList chosen).insert altered y').entries.map (·.1) = chosen.map (·.1) := by
  have entries := PartyShares.entries_ofList (nodup_of_subperm_share part)
  obtain ⟨f, low, on, constant⟩ := consistent_share S secret state part.subset
  have parties : ((PartyShares.ofList chosen).insert altered y').entries.map (·.1) =
      chosen.map (·.1) := by
    rw [PartyShares.map_fst_insert_of_mem, entries]
    rw [entries]
    exact List.mem_map_of_mem member
  have inserted : ∀ e, e ∈ ((PartyShares.ofList chosen).insert altered y').entries ↔
      e.1 = altered ∧ e.2 = y' ∨ e.1 ≠ altered ∧ e ∈ chosen := by
    intro e
    have inserted : (e.1, e.2) ∈ ((PartyShares.ofList chosen).insert altered y').entries ↔ _ :=
      PartyShares.mem_entries_insert
    rwa [entries] at inserted
  refine ⟨f, ⟨low, fun pt point => ?_⟩, constant.symm, fun e inside => ?_, parties⟩
  · obtain ⟨found, entry⟩ := mem_pointsOf.mp point
    rcases (inserted _).mp entry with ⟨same, value⟩ | ⟨other, there⟩
    · obtain ⟨below, x, foundX, value'⟩ := on _ member
      obtain rfl : x = pt.2.1 := Option.some.inj (foundX.symm.trans (same ▸ found))
      dsimp only at value below value'
      rw [value, value']
      have apart : (y : s.field.Residue) ≠ y' := fun equal =>
        differ ((s.field.natCast_inj below residue).mp equal).symm
      exact iff_of_false apart fun other => other same
    · obtain ⟨-, x, foundX, value⟩ := on _ there
      obtain rfl : x = pt.2.1 := Option.some.inj (foundX.symm.trans found)
      exact iff_of_true value other
  · rcases (inserted e).mp inside with ⟨same, value⟩ | ⟨-, there⟩
    · obtain ⟨-, x, found, -⟩ := on _ member
      exact ⟨same ▸ Roster.mem_of_abscissa? found, value ▸ residue⟩
    · obtain ⟨below, x, found, -⟩ := on _ there
      exact ⟨Roster.mem_of_abscissa? found, below⟩

/-- **One altered share.** In a field with more elements than the roster has parties, take enough
shares of one sharing, in any order, and replace one by another residue. Without a share to spare,
another secret is recovered. With shares to spare, the shares are refused: for the altered one, if
its party is not among those that come first in the roster, and for that of the next party if it
is, though this party's share is as it was dealt. -/
theorem reconstruct_altered (s : Sharer) [Fact s.field.modulus.Prime]
    (fits : s.roster.size < s.field.modulus) (S : Sampler σ) (secret : Nat) (state : σ)
    {chosen : List (PartyId × Nat)} (part : chosen.Subperm (s.share S secret state).1)
    (enough : s.threshold ≤ chosen.length) {altered : PartyId} {y y' : Nat}
    (member : (altered, y) ∈ chosen) (residue : y' < s.field.modulus) (differ : y' ≠ y) :
    ∃ answer, s.reconstruct ((PartyShares.ofList chosen).insert altered y') = answer ∧
      ∃ present, s.roster.inOrder (chosen.map (·.1)) = present ∧
      (chosen.length = s.threshold → ∃ wrong < s.field.modulus,
        wrong ≠ secret % s.field.modulus ∧ answer = .ok wrong) ∧
      (s.threshold < chosen.length → altered ∉ present.take s.threshold →
        answer = .error (.corruption altered)) ∧
      (s.threshold < chosen.length → altered ∈ present.take s.threshold →
        ∃ next, present[s.threshold]? = some next ∧ next ≠ altered ∧
          answer = .error (.corruption next)) := by
  obtain ⟨f, but, constant, sound, parties⟩ :=
    exists_passesBut_of_share S secret state part member residue differ
  generalize (PartyShares.ofList chosen).insert altered y' = shares at but sound parties
  have size : shares.size = chosen.length := by
    simpa [PartyShares.size] using congrArg List.length parties
  have base := s.map_fst_base shares
  have points := s.map_fst_pointsOf shares
  rw [parties] at base points
  have inPoints : altered ∈ (s.pointsOf shares).map (·.1) := by
    obtain ⟨e, entry, same⟩ : ∃ e ∈ shares.entries, e.1 = altered := by
      rw [← List.mem_map, parties]
      exact List.mem_map_of_mem member
    obtain ⟨x, found⟩ := Roster.exists_abscissa? (sound e entry).1
    exact List.mem_map.mpr ⟨(e.1, x, e.2), mem_pointsOf.mpr ⟨found, entry⟩, same⟩
  rw [← constant]
  refine ⟨_, rfl, _, rfl, fun exact => ?_, fun spare later => ?_, fun spare first => ?_⟩
  · refine reconstruct_of_mem_base_of_eq fits (size.trans exact) sound but ?_
    rw [Sharer.base, List.take_of_length_le]
    · exact inPoints
    · rw [length_pointsOf fun e entry => (sound e entry).1, size, exact]
  · rw [← base] at later
    exact reconstruct_of_not_mem_base fits (size ▸ enough) sound but inPoints later
  · rw [← base] at first
    rw [← points]
    exact reconstruct_of_mem_base_of_lt fits (size ▸ spare) sound but first

/-- The shares that `septenary` deals of the secret five, with three and five as coefficients. -/
def septenaryShares : List (PartyId × Nat) :=
  [(⟨[4]⟩, 6), (⟨[2]⟩, 3), (⟨[1]⟩, 6), (⟨[3]⟩, 3)]

theorem septenary_altered : ∃ _ : Fact septenary.field.modulus.Prime,
    septenary.roster.size < septenary.field.modulus ∧
    septenaryShares.Subperm (septenary.share Sampler.tape 5 [3, 5]).1 ∧
    septenary.reconstruct ((PartyShares.ofList septenaryShares).insert ⟨[4]⟩ 2) =
      .error (.corruption ⟨[4]⟩) ∧
    septenary.reconstruct ((PartyShares.ofList septenaryShares).insert ⟨[2]⟩ 0) =
      .error (.corruption ⟨[4]⟩) ∧
    ∃ wrong, wrong ≠ 5 ∧
      septenary.reconstruct ((PartyShares.ofList (septenaryShares.take 3)).insert ⟨[2]⟩ 0) =
        .ok wrong := by
  have prime : Fact septenary.field.modulus.Prime := ⟨Nat.prime_seven⟩
  have fits : septenary.roster.size < septenary.field.modulus := by decide
  have part : septenaryShares.Subperm (septenary.share Sampler.tape 5 [3, 5]).1 := by decide
  have few : (septenaryShares.take 3).Subperm (septenary.share Sampler.tape 5 [3, 5]).1 := by decide
  have fourth : (⟨[4]⟩, 6) ∈ septenaryShares := by decide
  have second : (⟨[2]⟩, 3) ∈ septenaryShares := by decide
  have second' : (⟨[2]⟩, 3) ∈ septenaryShares.take 3 := by decide
  have residue (y : Nat) (small : y < 7) : y < septenary.field.modulus := small
  refine ⟨prime, fits, part, ?_, ?_, ?_⟩
  · obtain ⟨answer, same, present, rfl, -, later, -⟩ := septenary.reconstruct_altered fits
      Sampler.tape 5 [3, 5] part (by decide) fourth (residue 2 (by decide)) (by decide)
    rw [same, later (by decide) (by decide)]
  · obtain ⟨answer, same, present, rfl, -, -, first⟩ := septenary.reconstruct_altered fits
      Sampler.tape 5 [3, 5] part (by decide) second (residue 0 (by decide)) (by decide)
    obtain ⟨next, found, -, refused⟩ := first (by decide) (by decide)
    have last : (septenary.roster.inOrder (septenaryShares.map (·.1)))[septenary.threshold]? =
        some ⟨[4]⟩ := by decide
    rw [same, refused, Option.some.inj (found.symm.trans last)]
  · obtain ⟨answer, same, present, rfl, exact, -, -⟩ := septenary.reconstruct_altered fits
      Sampler.tape 5 [3, 5] few (by decide) second' (residue 0 (by decide)) (by decide)
    obtain ⟨wrong, -, differ, recovered⟩ := exact (by decide)
    exact ⟨wrong, differ, same.trans recovered⟩

end Sharer
end ThresholdMask
