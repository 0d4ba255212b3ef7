import Mathlib
import ThresholdMask.Proofs.Guards

/-!
# The interpolating polynomial

`PrimeField.Interpolates` says which polynomial a list of points stands for: it passes through the
points, read as residues, and its degree is below their number. Over a prime there is exactly one
unless two of the abscissas are congruent (`PrimeField.existsUnique_interpolates`), and then there
is no answer. The interpolated value is the polynomial's at any place, be it one of the abscissas or
not, and however large the numbers are (`PrimeField.interpolation_anywhere`).

Both the polynomial and whether abscissas collide depend only on which points there are. So does the
interpolated value, although the sum and the products are taken in the order of the list.
-/

namespace ThresholdMask.PrimeField

open Polynomial

variable {F : PrimeField} {points others : List (Nat × Nat)}

/-! ## Colliding abscissas -/

/-- Two of the points have abscissas that are congruent modulo the field's modulus. -/
def Collide (F : PrimeField) (points : List (Nat × Nat)) : Prop :=
  ∃ i j : Fin points.length, i < j ∧ (points.get i).1 ≡ (points.get j).1 [MOD F.modulus]

instance (F : PrimeField) (points : List (Nat × Nat)) : Decidable (F.Collide points) :=
  inferInstanceAs (Decidable (∃ i j : Fin points.length, i < j ∧
    (points.get i).1 ≡ (points.get j).1 [MOD F.modulus]))

theorem nodup_abscissas_iff :
    (points.map fun pt => (pt.1 : F.Residue)).Nodup ↔ ¬F.Collide points := by
  unfold List.Nodup Collide
  rw [List.pairwise_map, List.pairwise_iff_get]
  constructor
  · rintro apart ⟨i, j, before, congruent⟩
    exact apart i j before ((ZMod.natCast_eq_natCast_iff _ _ _).mpr congruent)
  · intro apart i j before same
    exact apart ⟨i, j, before, (ZMod.natCast_eq_natCast_iff _ _ _).mp same⟩

theorem collide_iff_of_perm (perm : others.Perm points) : F.Collide others ↔ F.Collide points := by
  rw [← not_iff_not, ← nodup_abscissas_iff, ← nodup_abscissas_iff]
  exact (perm.map fun pt => (pt.1 : F.Residue)).nodup_iff

/-! ## The polynomial through the points -/

/-- The polynomial passes through the points, and its degree is below their number. -/
structure Interpolates (F : PrimeField) (points : List (Nat × Nat)) (g : F.Residue[X]) : Prop where
  degree_lt : g.degree < points.length
  eval_eq : ∀ pt ∈ points, g.eval (pt.1 : F.Residue) = pt.2

theorem Interpolates.of_perm {g : F.Residue[X]} (h : F.Interpolates points g)
    (perm : others.Perm points) : F.Interpolates others g where
  degree_lt := by
    rw [perm.length_eq]
    exact h.degree_lt
  eval_eq pt member := h.eval_eq pt (perm.mem_iff.mp member)

section Prime

variable [prime : Fact F.modulus.Prime]

theorem existsUnique_interpolates (apart : ¬F.Collide points) : ∃! g, F.Interpolates points g := by
  obtain ⟨g, ⟨low, through⟩, only⟩ := existsUnique_polynomial_through
    (fun pt => (pt.2 : F.Residue)) (nodup_abscissas_iff.mpr apart)
  refine ⟨g, ⟨low, through⟩, ?_⟩
  intro f passes
  exact only f ⟨passes.degree_lt, passes.eval_eq⟩

/-! ## Interpolated values -/

theorem interpolate?_eq_none_iff_collide {z : Nat} :
    F.interpolate? points z = none ↔ F.Collide points := by
  rw [interpolate?_eq_none_iff, nodup_abscissas_iff, not_not]

theorem Interpolates.interpolate?_eq {g : F.Residue[X]} (h : F.Interpolates points g)
    (apart : ¬F.Collide points) (z : Nat) :
    F.interpolate? points z = some (g.eval (z : F.Residue)).val :=
  F.interpolate?_eq_some (nodup_abscissas_iff.mpr apart) h.degree_lt h.eval_eq z

/-- At a place that is congruent to an abscissa the point's ordinate comes back, reduced. -/
theorem interpolate?_eq_of_mem (apart : ¬F.Collide points) {pt : Nat × Nat} (member : pt ∈ points)
    {z : Nat} (here : z ≡ pt.1 [MOD F.modulus]) :
    F.interpolate? points z = some (pt.2 % F.modulus) := by
  obtain ⟨g, passes, -⟩ := existsUnique_interpolates apart
  have place : (z : F.Residue) = pt.1 := (ZMod.natCast_eq_natCast_iff _ _ _).mpr here
  rw [passes.interpolate?_eq apart, place, passes.eval_eq pt member, ZMod.val_natCast]

/-- The order of the points makes no difference. -/
theorem interpolate?_eq_of_perm (perm : others.Perm points) (z : Nat) :
    F.interpolate? others z = F.interpolate? points z := by
  by_cases collide : F.Collide points
  · rw [interpolate?_eq_none_iff_collide.mpr collide,
      interpolate?_eq_none_iff_collide.mpr ((collide_iff_of_perm perm).mpr collide)]
  · obtain ⟨g, passes, -⟩ := existsUnique_interpolates collide
    rw [passes.interpolate?_eq collide, (passes.of_perm perm).interpolate?_eq
      (mt (collide_iff_of_perm perm).mp collide)]

end Prime

/-- **Interpolation.** Over a prime and for points of any numbers, interpolation is refused exactly
if two of the abscissas are congruent. Otherwise one polynomial of degree below the number of points
passes through them all, and what is interpolated at any place is the residue of its value there; at
an abscissa, or a place congruent to it, that is the point's ordinate. The order of the points makes
no difference. Taken step by step the answer is the same, with a refusal for abscissas that collide,
and nothing on the way is out of range. -/
theorem interpolation_anywhere (prime : F.modulus.Prime) (points : List (Nat × Nat)) (z : Nat) :
    (F.interpolate? points z = none ↔ F.Collide points) ∧
      (¬F.Collide points → ∃ g : F.Residue[X], F.Interpolates points g ∧
        (∀ f, F.Interpolates points f → f = g) ∧
        F.interpolate? points z = some (g.eval (z : F.Residue)).val) ∧
      (¬F.Collide points → ∀ pt ∈ points, z ≡ pt.1 [MOD F.modulus] →
        F.interpolate? points z = some (pt.2 % F.modulus)) ∧
      (∀ others : List (Nat × Nat), others.Perm points →
        F.interpolate? others z = F.interpolate? points z) ∧
      Guarded.interpolate F points z =
        Guarded.answer (Guarded.orCollision (F.interpolate? points z)) := by
  have : Fact F.modulus.Prime := ⟨prime⟩
  refine ⟨interpolate?_eq_none_iff_collide, fun apart => ?_,
    fun apart pt member => interpolate?_eq_of_mem apart member,
    fun others perm => interpolate?_eq_of_perm perm z,
    Guarded.interpolate_eq prime.two_le points z⟩
  obtain ⟨g, passes, only⟩ := existsUnique_interpolates apart
  exact ⟨g, passes, only, passes.interpolate?_eq apart z⟩

/-- The field of seven elements. -/
def sevenResidues : PrimeField := ⟨7⟩

/-- Points with numbers above the modulus, at a place congruent to an abscissa and at one that is
not, in two orders; and two points whose abscissas are congruent but not the same. -/
theorem sevenResidues_interpolates : sevenResidues.modulus.Prime ∧
    ¬sevenResidues.Collide [(1, 3), (9, 12), (0, 20)] ∧
    sevenResidues.interpolate? [(1, 3), (9, 12), (0, 20)] 16 = some 5 ∧
    (∃ g, sevenResidues.Interpolates [(1, 3), (9, 12), (0, 20)] g ∧
      sevenResidues.interpolate? [(1, 3), (9, 12), (0, 20)] 4 = some (g.eval 4).val) ∧
    [(0, 20), (9, 12), (1, 3)].Perm [(1, 3), (9, 12), (0, 20)] ∧
    sevenResidues.interpolate? [(0, 20), (9, 12), (1, 3)] 4 =
      sevenResidues.interpolate? [(1, 3), (9, 12), (0, 20)] 4 ∧
    sevenResidues.interpolate? [(1, 3), (8, 3)] 4 = none := by
  have prime : sevenResidues.modulus.Prime := Nat.prime_seven
  have apart : ¬sevenResidues.Collide [(1, 3), (9, 12), (0, 20)] := by decide
  have collide : sevenResidues.Collide [(1, 3), (8, 3)] := by decide
  have perm : [(0, 20), (9, 12), (1, 3)].Perm [(1, 3), (9, 12), (0, 20)] := by decide
  obtain ⟨-, -, ordinate, -⟩ := interpolation_anywhere prime [(1, 3), (9, 12), (0, 20)] 16
  obtain ⟨-, value, -, order, -⟩ := interpolation_anywhere prime [(1, 3), (9, 12), (0, 20)] 4
  obtain ⟨refused, -⟩ := interpolation_anywhere prime [(1, 3), (8, 3)] 4
  obtain ⟨g, passes, -, here⟩ := value apart
  exact ⟨prime, apart, ordinate apart (9, 12) (by decide) (by decide), ⟨g, passes, here⟩, perm,
    order _ perm, refused.mpr collide⟩

end ThresholdMask.PrimeField
