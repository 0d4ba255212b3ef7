import Mathlib
import ThresholdMask.Proofs.Secrecy

/-!
# As many shares as the degree are uniform

Fix as many parties as the degree, in a field with more elements than the roster has parties. For
every secret, and whichever residues these parties are to receive, there is exactly one choice of
the coefficients that deals these: the polynomial is fixed by its values at the abscissas and at
zero, one more node than its degree (`PrimeField.eq_of_agree_beside_zero`). Choices of coefficients
and joint views are equally many, so the sharing is a bijection between them, and uniform
coefficients give a uniform view, whatever the secret (`Sharer.joint_view_uniform`).
-/

namespace ThresholdMask

/-! ## Uniform distributions -/

/-- A bijection takes the uniform distribution to the uniform distribution. -/
theorem map_uniform_of_bijective {α β : Type} [Fintype α] [Nonempty α] [Fintype β] [Nonempty β]
    {f : α → β} (bijective : Function.Bijective f) :
    (PMF.uniformOfFintype α).map f = PMF.uniformOfFintype β := by
  classical
  ext b
  obtain ⟨a, rfl⟩ := bijective.surjective b
  have others : ∀ a', a' ≠ a → (if f a = f a' then PMF.uniformOfFintype α a' else 0) = 0 :=
    fun a' differ => if_neg fun same => differ (bijective.injective same.symm)
  rw [PMF.map_apply, tsum_eq_single a others, if_pos rfl, PMF.uniformOfFintype_apply,
    PMF.uniformOfFintype_apply, Fintype.card_of_bijective bijective]

/-! ## The coefficients beside a constant term -/

/-- Residues as coefficients beside the same constant term are the same if the values are the same
at as many abscissas, different from one another and from zero in the field. -/
theorem PrimeField.eq_of_agree_beside_zero (F : PrimeField) [Fact F.modulus.Prime]
    {abscissas ds ds' : List Nat} {a : Nat}
    (distinct : ((0 :: abscissas).map (Nat.cast : Nat → F.Residue)).Nodup)
    (length : ds.length = abscissas.length) (length' : ds'.length = abscissas.length)
    (below : ∀ d ∈ ds, d < F.modulus) (below' : ∀ d ∈ ds', d < F.modulus)
    (agree : ∀ x ∈ abscissas, F.evaluate (a :: ds) x = F.evaluate (a :: ds') x) : ds = ds' := by
  have low {coefficients : List Nat} (length : coefficients.length = abscissas.length) :
      (F.ofCoefficients (a :: coefficients)).degree <
        ((0 :: abscissas).map (Nat.cast : Nat → F.Residue)).length := by
    rw [List.length_map, List.length_cons, ← length]
    exact F.degree_ofCoefficients_lt (a :: coefficients)
  have same : F.ofCoefficients (a :: ds) = F.ofCoefficients (a :: ds') := by
    refine eq_of_agree distinct (low length) (low length') ?_
    intro node member
    obtain ⟨x, inside, rfl⟩ := List.mem_map.mp member
    rcases List.mem_cons.mp inside with rfl | inside
    · rw [Nat.cast_zero, F.eval_zero_ofCoefficients, F.eval_zero_ofCoefficients]
    · rw [← F.natCast_evaluate, ← F.natCast_evaluate, agree x inside]
  apply List.ext_getElem (length.trans length'.symm)
  intro i inside inside'
  have coefficient := congrArg (Polynomial.coeff · (i + 1)) same
  simp only [F.coeff_ofCoefficients, List.getD_cons_succ, List.getD_eq_getElem _ _ inside,
    List.getD_eq_getElem _ _ inside'] at coefficient
  exact (F.natCast_inj (below _ (List.getElem_mem inside))
    (below' _ (List.getElem_mem inside'))).mp coefficient

namespace Sharer

variable {s : Sharer}

/-! ## Shares as functions of the coefficients -/

/-- A choice of the coefficients beside the secret, as many as the degree. -/
abbrev Coefficients (s : Sharer) : Type := Fin s.degree → Fin s.field.modulus

/-- The coefficients in the order in which they are drawn. -/
def Coefficients.draws (c : s.Coefficients) : List Nat := List.ofFn fun i => (c i : Nat)

/-- What a party is dealt if these coefficients are drawn. -/
def shareFor (s : Sharer) (secret : Nat) (c : s.Coefficients) (p : PartyId) : Option Nat :=
  (s.roster.position? p).bind fun i =>
    (s.shareInOrder Sampler.tape.recording secret (c.draws, [])).1[i]?

/-- What some parties are dealt together if these coefficients are drawn. -/
def jointView (s : Sharer) (secret : Nat) (parties : Finset PartyId) (c : s.Coefficients) :
    parties → Option Nat := fun p => s.shareFor secret c p

theorem Coefficients.length_draws (c : s.Coefficients) : c.draws.length = s.degree :=
  List.length_ofFn

theorem Coefficients.draws_injective : Function.Injective (Coefficients.draws (s := s)) := by
  intro c c' same
  funext i
  exact Fin.ext (congrFun (List.ofFn_injective same) i)

theorem Coefficients.lt_of_mem_draws {c : s.Coefficients} {d : Nat} (member : d ∈ c.draws) :
    d < s.field.modulus := by
  obtain ⟨i, rfl⟩ := List.mem_ofFn.mp member
  exact (c i).isLt

theorem Coefficients.fits_draws (c : s.Coefficients) :
    ThresholdMask.Fits c.draws (List.replicate s.degree s.field.modulus) := by
  refine List.forall₂_iff_get.mpr ⟨by rw [c.length_draws, List.length_replicate], ?_⟩
  intro i inside inside'
  rw [List.get_eq_getElem, List.get_eq_getElem, List.getElem_replicate]
  exact lt_of_mem_draws (List.getElem_mem inside)

/-- Sharing draws as many residues as the degree, and deals the values of the polynomial that has
them beside the secret. -/
theorem shareInOrder_draws (s : Sharer) (secret : Nat) (c : s.Coefficients)
    (rest log : List Nat) :
    s.shareInOrder Sampler.tape.recording secret (c.draws ++ rest, log) =
      (s.deal (s.field.reduce secret :: c.draws),
        (rest, log ++ List.replicate s.degree s.field.modulus)) := by
  show (s.deal (_ :: (s.field.randoms _ s.degree _).1), (s.field.randoms _ s.degree _).2) = _
  rw [s.field.randoms_tape c.fits_draws]

theorem fst_shareInOrder (s : Sharer) (secret : Nat) (c : s.Coefficients) :
    (s.shareInOrder Sampler.tape.recording secret (c.draws, [])).1 =
      s.deal (s.field.reduce secret :: c.draws) := by
  have run := s.shareInOrder_draws secret c [] []
  rw [List.append_nil] at run
  rw [run]

theorem shareFor_eq {secret : Nat} {c : s.Coefficients} {p : PartyId} {x : Nat}
    (found : s.roster.abscissa? p = some x) :
    s.shareFor secret c p = some (s.field.evaluate (s.field.reduce secret :: c.draws) x) := by
  obtain ⟨i, position, rfl⟩ := Option.map_eq_some_iff.mp found
  rw [shareFor, position, Option.bind_some, fst_shareInOrder, deal, List.getElem?_map,
    Roster.points, List.getElem?_zipIdx, Roster.position?_eq_some_iff.mp position]
  simp [Nat.add_comm]

/-! ## Views of as many parties as the degree -/

section Privacy

variable [prime : Fact s.field.modulus.Prime] {parties : Finset PartyId}

/-- The residues that some parties are dealt together. -/
theorem exists_dealt (onRoster : ∀ p ∈ parties, p ∈ s.roster.parties) (secret : Nat) :
    ∃ dealt : s.Coefficients → parties → Fin s.field.modulus,
      ∀ c, s.jointView secret parties c = fun p => some (dealt c p : Nat) := by
  choose abscissa found using fun p : parties => Roster.exists_abscissa? (onRoster p p.2)
  refine ⟨fun c p => ⟨s.field.evaluate (s.field.reduce secret :: c.draws) (abscissa p),
    s.field.evaluate_lt prime.out.pos _ _⟩, ?_⟩
  intro c
  funext p
  exact shareFor_eq (found p)

/-- Different coefficients give different views to as many parties as the degree. -/
theorem jointView_injective (fits : s.roster.size < s.field.modulus)
    (onRoster : ∀ p ∈ parties, p ∈ s.roster.parties) (card : parties.card = s.degree)
    (secret : Nat) : Function.Injective (s.jointView secret parties) := by
  intro c c' same
  choose abscissa found using fun p : parties => Roster.exists_abscissa? (onRoster p p.2)
  let abscissas := parties.attach.toList.map abscissa
  have length (c : s.Coefficients) : c.draws.length = abscissas.length := by
    rw [c.length_draws, List.length_map, Finset.length_toList, Finset.card_attach, card]
  have apart : abscissas.Nodup := by
    refine List.Nodup.map ?_ (Finset.nodup_toList _)
    intro p q equal
    exact Subtype.ext (Roster.abscissa?_injective (found p) (equal ▸ found q))
  have bounds : ∀ x ∈ abscissas, 0 < x ∧ x ≤ s.roster.size := by
    intro x member
    obtain ⟨p, -, rfl⟩ := List.mem_map.mp member
    exact Roster.abscissa?_bounds (found p)
  apply Coefficients.draws_injective
  refine s.field.eq_of_agree_beside_zero (a := s.field.reduce secret)
    (s.field.nodup_beside_zero fits apart bounds) (length c) (length c')
    (fun _ => Coefficients.lt_of_mem_draws) (fun _ => Coefficients.lt_of_mem_draws) ?_
  intro x member
  obtain ⟨p, -, rfl⟩ := List.mem_map.mp member
  have here : s.shareFor secret c p = s.shareFor secret c' p := congrFun same p
  rw [shareFor_eq (found p), shareFor_eq (found p)] at here
  exact Option.some.inj here

end Privacy

/-- **Privacy.** Take as many parties of the roster as the degree, and any secret. Whatever residues
they are to receive, exactly one choice of the coefficients deals these. So the joint view for
uniform coefficients is uniform and the same for all secrets; and sharing draws just these
coefficients, each from the whole field. -/
theorem joint_view_uniform (s : Sharer) [Fact s.field.modulus.Prime]
    (fits : s.roster.size < s.field.modulus) {parties : Finset PartyId}
    (onRoster : ∀ p ∈ parties, p ∈ s.roster.parties) (card : parties.card = s.degree)
    (secret : Nat) :
    (∀ assigned : parties → Fin s.field.modulus, ∃! c : s.Coefficients,
        ∀ p : parties, s.shareFor secret c p = some (assigned p : Nat)) ∧
      (PMF.uniformOfFintype s.Coefficients).map (s.jointView secret parties) =
        (PMF.uniformOfFintype (parties → Fin s.field.modulus)).map
          (fun assigned p => some (assigned p : Nat)) ∧
      ∀ (c : s.Coefficients) (rest log : List Nat),
        s.shareInOrder Sampler.tape.recording secret (c.draws ++ rest, log) =
          ((s.shareInOrder Sampler.tape.recording secret (c.draws, [])).1,
            (rest, log ++ List.replicate s.degree s.field.modulus)) := by
  obtain ⟨dealt, view⟩ := exists_dealt onRoster secret
  have injective : Function.Injective dealt := by
    intro c c' same
    apply jointView_injective fits onRoster card secret
    rw [view, view, same]
  have counts : Fintype.card s.Coefficients =
      Fintype.card (parties → Fin s.field.modulus) := by
    rw [Fintype.card_fun, Fintype.card_fun, Fintype.card_fin, Fintype.card_fin, Fintype.card_coe,
      card]
  have bijective : Function.Bijective dealt :=
    (Fintype.bijective_iff_injective_and_card dealt).mpr ⟨injective, counts⟩
  refine ⟨?_, ?_, ?_⟩
  · intro assigned
    obtain ⟨c, rfl, only⟩ := bijective.existsUnique assigned
    refine ⟨c, congrFun (view c), ?_⟩
    intro c' deals
    apply only
    funext p
    have here := (congrFun (view c') p).symm.trans (deals p)
    exact Fin.ext (Option.some.inj here)
  · have through : s.jointView secret parties =
        (fun assigned p => some (assigned p : Nat)) ∘ dealt := funext view
    rw [through, ← PMF.map_comp, map_uniform_of_bijective bijective]
  · intro c rest log
    rw [s.shareInOrder_draws, s.fst_shareInOrder]

/-- Four parties that share with degree two in the field of seven elements. -/
def septenary : Sharer where
  field := ⟨7⟩
  degree := 2
  roster := ⟨[⟨[1]⟩, ⟨[2]⟩, ⟨[3]⟩, ⟨[4]⟩], by decide, by decide⟩
  degree_lt := by decide

theorem septenary_view_uniform : ∃ _ : Fact septenary.field.modulus.Prime,
    (∃! c : septenary.Coefficients, ∀ p : ({⟨[1]⟩, ⟨[4]⟩} : Finset PartyId),
      septenary.shareFor 5 c p = some 6) ∧
    septenary.shareFor 5 ![⟨3, by decide⟩, ⟨5, by decide⟩] ⟨[4]⟩ = some 6 ∧
    (PMF.uniformOfFintype septenary.Coefficients).map (septenary.jointView 5 {⟨[1]⟩, ⟨[4]⟩}) =
      (PMF.uniformOfFintype septenary.Coefficients).map
        (septenary.jointView 2 {⟨[1]⟩, ⟨[4]⟩}) := by
  have prime : Fact septenary.field.modulus.Prime := ⟨Nat.prime_seven⟩
  have uniform (secret : Nat) := septenary.joint_view_uniform (by decide)
    (show ∀ p ∈ ({⟨[1]⟩, ⟨[4]⟩} : Finset PartyId), p ∈ septenary.roster.parties by decide)
    (by decide) secret
  refine ⟨prime, (uniform 5).1 fun _ => ⟨6, by decide⟩, by decide, ?_⟩
  rw [(uniform 5).2.1, (uniform 2).2.1]

end Sharer
end ThresholdMask
