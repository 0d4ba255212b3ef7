import Mathlib
import ThresholdMask.Proofs.Alteration

/-!
# Evaluation points in the field

A sharer is built whenever there are more parties than the degree, whatever the modulus. Abscissas
count from one, but what they are worth depends on their residues: two parties with the same one
hold the same share, and the residue zero is the place of the secret. In a field with more elements
than the roster has parties, the residues are the abscissas themselves, so none is zero and no two
are the same.

`Sharer.ofDegree_sound` says what a sharer does in any field, party by party. Where the residue is
not zero, the share depends on what is drawn. Where the residues of as many parties as reconstruct
are different, their shares give the secret, and where two of them are the same, reconstruction
refuses the shares.
-/

namespace ThresholdMask

/-- The value of the straight line with slope one. -/
theorem PrimeField.natCast_evaluate_line (F : PrimeField) (a n x : Nat) :
    (F.evaluate (a :: 1 :: List.replicate n 0) x : F.Residue) = a + x := by
  have zeros : F.evaluate (List.replicate n 0) x = 0 := by
    induction n with
    | zero => rfl
    | succ n ih =>
      have step : F.evaluate (List.replicate (n + 1) 0) x =
          F.add (F.mul (F.evaluate (List.replicate n 0) x) x) 0 := rfl
      rw [step, ih]
      simp [add, mul]
  have steps : F.evaluate (a :: 1 :: List.replicate n 0) x =
      F.add (F.mul (F.add (F.mul (F.evaluate (List.replicate n 0) x) x) 1) x) a := rfl
  rw [steps, zeros]
  simp only [natCast_add, natCast_mul, Nat.cast_zero, Nat.cast_one]
  ring

namespace Sharer

variable {s : Sharer}

/-- The evaluation point of a party as an element of the field. -/
def point? (s : Sharer) (p : PartyId) : Option Nat := (s.roster.abscissa? p).map s.field.reduce

/-- In the field no two of the parties have the same evaluation point. -/
def Separates (s : Sharer) (parties : List PartyId) : Prop :=
  ∀ p ∈ parties, ∀ q ∈ parties, s.point? p = s.point? q → p = q

instance (s : Sharer) (parties : List PartyId) : Decidable (s.Separates parties) :=
  inferInstanceAs (Decidable (∀ p ∈ parties, ∀ q ∈ parties, s.point? p = s.point? q → p = q))

theorem ofDegree_eq_ok_iff {F : PrimeField} {degree : Nat} {R : Roster} :
    ofDegree F degree R = .ok s ↔ s.field = F ∧ s.degree = degree ∧ s.roster = R := by
  unfold ofDegree
  constructor
  · intro built
    split at built
    · cases built
      exact ⟨rfl, rfl, rfl⟩
    · cases built
  · rintro ⟨rfl, rfl, rfl⟩
    exact dif_pos s.degree_lt

/-! ## Large fields -/

theorem point?_of_abscissa? (fits : s.roster.size < s.field.modulus) {p : PartyId} {x : Nat}
    (found : s.roster.abscissa? p = some x) : s.point? p = some x := by
  have bounds := Roster.abscissa?_bounds found
  have residue : s.field.reduce x = x := Nat.mod_eq_of_lt (by omega)
  rw [point?, found, Option.map_some, residue]

theorem point?_ne_zero (fits : s.roster.size < s.field.modulus) {p : PartyId}
    (onRoster : p ∈ s.roster.parties) : s.point? p ≠ some 0 := by
  obtain ⟨x, found⟩ := Roster.exists_abscissa? onRoster
  rw [point?_of_abscissa? fits found]
  intro zero
  have := Roster.abscissa?_bounds found
  have := Option.some.inj zero
  omega

theorem separates_parties (fits : s.roster.size < s.field.modulus) :
    s.Separates s.roster.parties := by
  intro p onRoster q onRoster' same
  obtain ⟨x, found⟩ := Roster.exists_abscissa? onRoster
  obtain ⟨y, found'⟩ := Roster.exists_abscissa? onRoster'
  rw [point?_of_abscissa? fits found, point?_of_abscissa? fits found'] at same
  exact Roster.abscissa?_injective found (Option.some.inj same ▸ found')

/-! ## Shares that depend on what is drawn -/

theorem Coefficients.exists_draws {ds : List Nat} (length : ds.length = s.degree)
    (below : ∀ d ∈ ds, d < s.field.modulus) : ∃ c : s.Coefficients, c.draws = ds := by
  refine ⟨fun i => ⟨ds[i], below _ (List.getElem_mem _)⟩, ?_⟩
  apply List.ext_getElem
  · rw [length_draws, length]
  · intro i _ _
    simp [draws]

/-- With a degree above zero, a party whose evaluation point is not zero in the field is dealt
another number than the secret by some coefficients. -/
theorem exists_shareFor_ne [prime : Fact s.field.modulus.Prime] (positive : 0 < s.degree)
    {p : PartyId} (onRoster : p ∈ s.roster.parties) (nonzero : s.point? p ≠ some 0)
    (secret : Nat) :
    ∃ (c : s.Coefficients) (y : Nat), s.shareFor secret c p = some y ∧
      y ≠ secret % s.field.modulus := by
  obtain ⟨x, found⟩ := Roster.exists_abscissa? onRoster
  have distinct : (x : s.field.Residue) ≠ 0 := by
    intro zero
    rw [ZMod.natCast_eq_zero_iff, Nat.dvd_iff_mod_eq_zero] at zero
    refine nonzero ?_
    rw [point?, found]
    exact congrArg some zero
  -- the polynomial whose only other coefficient is a one
  obtain ⟨c, draws⟩ : ∃ c : s.Coefficients, c.draws = 1 :: List.replicate (s.degree - 1) 0 := by
    apply Coefficients.exists_draws
    · rw [List.length_cons, List.length_replicate]
      omega
    · intro d member
      have := prime.out.two_le
      rcases List.mem_cons.mp member with rfl | member
      · omega
      · rw [List.eq_of_mem_replicate member]
        omega
  refine ⟨c, _, shareFor_eq found, fun same => distinct ?_⟩
  have value := congrArg (Nat.cast : Nat → s.field.Residue) same
  rw [draws, s.field.natCast_evaluate_line, s.field.natCast_reduce, ZMod.natCast_mod] at value
  exact left_eq_add.mp value.symm

/-! ## Honest shares -/

/-- The abscissas that fix the polynomial stand apart exactly if the field separates the parties,
where no share is to spare. -/
theorem apart_base_iff_separates [NeZero s.field.modulus] {shares : PartyShares}
    (size : shares.size = s.threshold) (onRoster : ∀ e ∈ shares.entries, e.1 ∈ s.roster.parties) :
    s.Apart (s.base shares) ↔ s.Separates (shares.entries.map (·.1)) := by
  have all : s.base shares = s.pointsOf shares := by
    rw [base, List.take_of_length_le (by rw [length_pointsOf onRoster, size])]
  have point {pt : PartyId × Nat × Nat} (member : pt ∈ s.pointsOf shares) :
      s.point? pt.1 = some (pt.2.1 : s.field.Residue).val := by
    rw [point?, (mem_pointsOf.mp member).1, ZMod.val_natCast]
    rfl
  rw [all]
  constructor
  · intro apart p member q member' same
    obtain ⟨e, entry, rfl⟩ := List.mem_map.mp member
    obtain ⟨e', entry', rfl⟩ := List.mem_map.mp member'
    obtain ⟨x, found⟩ := Roster.exists_abscissa? (onRoster e entry)
    obtain ⟨x', found'⟩ := Roster.exists_abscissa? (onRoster e' entry')
    have here : (e.1, x, e.2) ∈ s.pointsOf shares := mem_pointsOf.mpr ⟨found, entry⟩
    have here' : (e'.1, x', e'.2) ∈ s.pointsOf shares := mem_pointsOf.mpr ⟨found', entry'⟩
    rw [point here, point here'] at same
    exact congrArg (·.1) (List.inj_on_of_nodup_map apart here here'
      (ZMod.val_injective _ (Option.some.inj same)))
  · intro separates
    have nodup := s.nodup_map_fst_pointsOf shares
    refine List.Nodup.map_on (fun pt member pt' member' same => ?_) (List.Nodup.of_map _ nodup)
    refine List.inj_on_of_nodup_map nodup member member' (separates _ ?_ _ ?_ ?_)
    · exact List.mem_map_of_mem (mem_pointsOf.mp member).2
    · exact List.mem_map_of_mem (mem_pointsOf.mp member').2
    · rw [point member, point member', same]

variable {σ : Type}

/-- As many shares of one sharing as reconstruct give the secret if the field separates their
parties, and are refused if it does not. -/
theorem reconstruct_share_of_length_eq [Fact s.field.modulus.Prime] (S : Sampler σ) (secret : Nat)
    (state : σ) {chosen : List (PartyId × Nat)}
    (part : chosen.Subperm (s.share S secret state).1) (length : chosen.length = s.threshold) :
    s.reconstruct (.ofList chosen) =
      if s.Separates (chosen.map (·.1)) then .ok (secret % s.field.modulus)
      else .error .collidingAbscissas := by
  have entries := PartyShares.entries_ofList (nodup_of_subperm_share part)
  have consistent := consistent_share S secret state part.subset
  have size : (PartyShares.ofList chosen).size = s.threshold := by
    rw [PartyShares.size, entries, length]
  have onRoster : ∀ e ∈ (PartyShares.ofList chosen).entries, e.1 ∈ s.roster.parties := by
    rw [entries]
    obtain ⟨g, -, on, -⟩ := consistent
    intro e member
    obtain ⟨-, x, found, -⟩ := on e member
    exact Roster.mem_of_abscissa? found
  have recovered := reconstruct_of_consistent size.ge (entries.symm ▸ consistent)
  have separated := apart_base_iff.symm.trans (apart_base_iff_separates size onRoster)
  rw [entries] at recovered separated
  rw [recovered]
  exact if_congr separated rfl rfl

/-- **Soundness of sharers.** Whatever prime a sharer is built over: if the field has more elements
than the roster has parties, then no evaluation point is zero in it and no two are the same; with a
degree above zero, a party whose evaluation point is not zero in the field is not dealt the secret
by all coefficients; and as many honest shares as reconstruct give the secret if the field separates
their parties, and are refused for their evaluation points if not. -/
theorem ofDegree_sound {F : PrimeField} [Fact F.modulus.Prime] {degree : Nat} {R : Roster}
    {s : Sharer} (built : ofDegree F degree R = .ok s) (S : Sampler σ) :
    (R.size < F.modulus →
      (∀ p ∈ R.parties, s.point? p ≠ some 0) ∧ s.Separates R.parties) ∧
      (0 < degree → ∀ p ∈ R.parties, s.point? p ≠ some 0 → ∀ secret,
        ∃ (c : s.Coefficients) (y : Nat), s.shareFor secret c p = some y ∧
          y ≠ secret % F.modulus) ∧
      ∀ (secret : Nat) (state : σ) (chosen : List (PartyId × Nat)),
        chosen.Subperm (s.share S secret state).1 → chosen.length = degree + 1 →
          (s.Separates (chosen.map (·.1)) →
            s.reconstruct (.ofList chosen) = .ok (secret % F.modulus)) ∧
          (¬s.Separates (chosen.map (·.1)) →
            s.reconstruct (.ofList chosen) = .error .collidingAbscissas) := by
  obtain ⟨rfl, rfl, rfl⟩ := ofDegree_eq_ok_iff.mp built
  refine ⟨fun fits => ⟨fun p => point?_ne_zero fits, separates_parties fits⟩,
    fun positive p onRoster nonzero => exists_shareFor_ne positive onRoster nonzero, ?_⟩
  intro secret state chosen part length
  rw [reconstruct_share_of_length_eq S secret state part length]
  exact ⟨fun separates => if_pos separates, fun collide => if_neg collide⟩

theorem septenary_sound : ∃ _ : Fact septenary.field.modulus.Prime,
    ofDegree ⟨7⟩ 2 septenary.roster = .ok septenary ∧ septenary.roster.size < 7 ∧
    septenary.Separates septenary.roster.parties ∧
    (∃ (c : septenary.Coefficients) (y : Nat),
      septenary.shareFor 5 c ⟨[4]⟩ = some y ∧ y ≠ 5) ∧
    (septenaryShares.take 3).Subperm (septenary.share Sampler.tape 5 [3, 5]).1 ∧
    septenary.reconstruct (.ofList (septenaryShares.take 3)) = .ok 5 := by
  have prime : Fact (PrimeField.modulus ⟨7⟩).Prime := ⟨Nat.prime_seven⟩
  have built : ofDegree ⟨7⟩ 2 septenary.roster = .ok septenary := rfl
  have part : (septenaryShares.take 3).Subperm (septenary.share Sampler.tape 5 [3, 5]).1 := by
    decide
  obtain ⟨large, drawn, recovers⟩ := ofDegree_sound built Sampler.tape
  have separates := (large (by decide)).2
  exact ⟨prime, built, by decide, separates, drawn (by decide) _ (by decide) (by decide) 5, part,
    (recovers 5 [3, 5] _ part rfl).1 (by decide)⟩

/-- In the field of three elements the third evaluation point is zero, so that the third party is
dealt the secret whatever is drawn, and the fourth is the same as the first, so that the shares of
these two parties are refused. -/
theorem narrow_unsound : narrow.field.modulus.Prime ∧ narrow.field.modulus % 2 = 1 ∧
    ofDegree narrow.field narrow.degree narrow.roster = .ok narrow ∧
    narrow.point? ⟨[3]⟩ = some 0 ∧ ¬narrow.Separates narrow.roster.parties ∧
    (∀ (secret : Nat) (c : narrow.Coefficients),
      narrow.shareFor secret c ⟨[3]⟩ = some (secret % narrow.field.modulus)) ∧
    [(⟨[4]⟩, 0), (⟨[1]⟩, 0)].Subperm (narrow.share Sampler.tape 7 [2]).1 ∧
    narrow.reconstruct (.ofList [(⟨[4]⟩, 0), (⟨[1]⟩, 0)]) = .error .collidingAbscissas := by
  refine ⟨Nat.prime_three, rfl, rfl, rfl, by decide, fun secret c => ?_, by decide, by decide⟩
  have prime : Fact narrow.field.modulus.Prime := ⟨Nat.prime_three⟩
  have third : narrow.roster.abscissa? ⟨[3]⟩ = some 3 := rfl
  have residue : narrow.field.reduce secret < narrow.field.modulus :=
    narrow.field.reduce_lt (by decide) secret
  have zero : ((3 : Nat) : narrow.field.Residue) = 0 := ZMod.natCast_self 3
  rw [shareFor_eq third]
  refine congrArg some ?_
  rw [narrow.field.evaluate_eq, zero, narrow.field.eval_zero_ofCoefficients,
    ZMod.val_cast_of_lt residue]
  rfl

end Sharer
end ThresholdMask
