import Mathlib
import ThresholdMask.Proofs.Residues

/-!
# Interpolation recovers polynomials

`interpolate?` is Lagrange's sum over the points of a list. Over a prime field, and for points whose
abscissas differ as residues, it computes the value of the one polynomial through the points whose
degree is below their number: `interpolate?_eq_some`. That there is one and no other is
`existsUnique_polynomial_through`.
-/

namespace ThresholdMask

open Polynomial

/-! ## Selections -/

theorem selections_map {α β : Type} (f : α → β) (l : List α) :
    selections (l.map f) = (selections l).map fun s => (f s.1, s.2.map f) := by
  induction l with
  | nil => rfl
  | cons a rest ih =>
    rw [List.map_cons, selections, ih, selections, List.map_cons, List.map_map, List.map_map]
    rfl

/-- A selected element and the other ones make up the list. -/
theorem perm_of_mem_selections {α : Type} {l : List α} {s : α × List α} (h : s ∈ selections l) :
    (s.1 :: s.2).Perm l := by
  induction l generalizing s with
  | nil => cases h
  | cons a rest ih =>
    rcases List.mem_cons.mp h with rfl | h
    · exact List.Perm.refl _
    · obtain ⟨⟨b, others⟩, inRest, rfl⟩ := List.mem_map.mp h
      exact (List.Perm.swap a b others).trans ((ih inRest).cons a)

/-- An element that occurs twice in a list is selected with itself among the other ones. -/
theorem exists_selection_of_not_nodup {α : Type} {l : List α} (h : ¬l.Nodup) :
    ∃ s ∈ selections l, s.1 ∈ s.2 := by
  induction l with
  | nil => exact absurd List.nodup_nil h
  | cons a rest ih =>
    by_cases again : a ∈ rest
    · exact ⟨(a, rest), List.mem_cons_self, again⟩
    · have later : ¬rest.Nodup := fun nodup => h (List.nodup_cons.mpr ⟨again, nodup⟩)
      obtain ⟨s, selected, twice⟩ := ih later
      exact ⟨(s.1, a :: s.2), List.mem_cons_of_mem _ (List.mem_map_of_mem selected),
        List.mem_cons_of_mem _ twice⟩

/-- Reading every element of a list fails if reading one does. -/
theorem mapM_eq_none_of_mem {α β : Type} {read : α → Option β} {l : List α} {a : α}
    (member : a ∈ l) (none : read a = none) : l.mapM read = Option.none := by
  induction l with
  | nil => cases member
  | cons b rest ih =>
    rw [List.mapM_cons]
    rcases List.mem_cons.mp member with rfl | member
    · rw [none]
      rfl
    · rw [ih member]
      cases read b <;> rfl

/-- Reading every element of a list succeeds if reading each one does. -/
theorem mapM_eq_some_map {α β : Type} {read : α → Option β} {f : α → β} {l : List α}
    (h : ∀ a ∈ l, read a = some (f a)) : l.mapM read = some (l.map f) := by
  induction l with
  | nil => rfl
  | cons a rest ih =>
    rw [List.mapM_cons, h a List.mem_cons_self, ih fun b hb => h b (List.mem_cons_of_mem _ hb)]
    rfl

/-! ## Lagrange's sum over a list of nodes -/

section Lagrange

variable {K : Type} [Field K]

/-- A polynomial of degree below the number of nodes is the sum of its values at the nodes, each
weighted by the polynomial that is one at this node and zero at the others. -/
theorem sum_selections {nodes : List K} (distinct : nodes.Nodup) {g : K[X]}
    (low : g.degree < nodes.length) (z : K) :
    ((selections nodes).map fun s =>
      g.eval s.1 * ((s.2.map (z - ·)).prod / (s.2.map (s.1 - ·)).prod)).sum = g.eval z := by
  classical
  have card : nodes.toFinset.card = nodes.length := List.toFinset_card_of_nodup distinct
  have whole := Lagrange.eq_interpolate (s := nodes.toFinset) (v := id) (f := g)
    Function.injective_id.injOn (by rw [card]; exact low)
  let term (x : K) : K := (C (g.eval x) * Lagrange.basis nodes.toFinset id x).eval z
  have value : g.eval z = (nodes.map term).sum := by
    conv_lhs => rw [whole, Lagrange.interpolate_apply, eval_finsetSum]
    exact List.sum_toFinset term distinct
  -- from a sum over a set of nodes to one over the ways to select a node from the list
  have bySelection : nodes.map term = (selections nodes).map fun s => term s.1 := by
    conv_lhs => rw [← map_fst_selections nodes, List.map_map]
    rfl
  rw [value, bySelection]
  congr 1
  apply List.map_congr_left
  intro s selected
  have perm := perm_of_mem_selections selected
  have nodup : (s.1 :: s.2).Nodup := perm.nodup_iff.mpr distinct
  have others : nodes.toFinset.erase s.1 = s.2.toFinset := by
    rw [← List.toFinset_eq_of_perm _ _ perm, List.toFinset_cons, Finset.erase_insert]
    simpa using (List.nodup_cons.mp nodup).1
  simp only [term, eval_mul, eval_C]
  rw [Lagrange.basis, others, eval_prod, List.prod_toFinset _ nodup.of_cons]
  simp only [Lagrange.basisDivisor, eval_mul, eval_C, eval_sub, eval_X, id_eq]
  rw [List.prod_map_mul, div_eq_mul_inv, List.prod_inv, List.map_map, mul_comm (List.prod _)]
  rfl

/-- Polynomials that agree at more nodes than their degrees are the same. -/
theorem eq_of_agree {nodes : List K} (distinct : nodes.Nodup) {f g : K[X]}
    (lowF : f.degree < nodes.length) (lowG : g.degree < nodes.length)
    (agree : ∀ x ∈ nodes, f.eval x = g.eval x) : f = g := by
  classical
  have card : nodes.toFinset.card = nodes.length := List.toFinset_card_of_nodup distinct
  exact eq_of_degrees_lt_of_eval_finset_eq nodes.toFinset (by rw [card]; exact lowF)
    (by rw [card]; exact lowG) fun x hx => agree x (List.mem_toFinset.mp hx)

/-- Through points with different abscissas passes just one polynomial of degree below their
number. -/
theorem existsUnique_polynomial_through {α : Type} {points : List α} {x : α → K} (y : α → K)
    (distinct : (points.map x).Nodup) :
    ∃! g : K[X], g.degree < points.length ∧ ∀ pt ∈ points, g.eval (x pt) = y pt := by
  classical
  let node (i : Fin points.length) : K := x (points.get i)
  have injective : Function.Injective node := by
    intro i j same
    apply List.nodup_iff_injective_get.mp (List.Nodup.of_map _ distinct)
    exact List.inj_on_of_nodup_map distinct (List.get_mem _ _) (List.get_mem _ _) same
  let g := Lagrange.interpolate Finset.univ node fun i => y (points.get i)
  have low : g.degree < points.length := by
    have bound := Lagrange.degree_interpolate_lt (s := Finset.univ)
      (fun i => y (points.get i)) injective.injOn
    rwa [Finset.card_univ, Fintype.card_fin] at bound
  have through : ∀ pt ∈ points, g.eval (x pt) = y pt := by
    intro pt member
    obtain ⟨i, rfl⟩ := List.get_of_mem member
    exact Lagrange.eval_interpolate_at_node _ injective.injOn (Finset.mem_univ i)
  refine ⟨g, ⟨low, through⟩, ?_⟩
  rintro f ⟨lowF, throughF⟩
  have size : (points.map x).length = points.length := List.length_map _
  refine eq_of_agree distinct (size ▸ lowF) (size ▸ low) ?_
  intro node member
  obtain ⟨pt, inPoints, rfl⟩ := List.mem_map.mp member
  rw [throughF pt inPoints, through pt inPoints]

end Lagrange

/-! ## Interpolation -/

namespace PrimeField

variable (F : PrimeField)

theorem natCast_differences [NeZero F.modulus] (x : Nat) (others : List Nat) :
    (F.differences x others : F.Residue) =
      ((others.map (Nat.cast : Nat → F.Residue)).map ((x : F.Residue) - ·)).prod := by
  -- the induction is on the loop, so its invariant holds for any start
  have loop : ∀ start : Nat, ((others.foldl (fun product other => F.mul product (F.sub x other))
      start : Nat) : F.Residue) =
      start * ((others.map (Nat.cast : Nat → F.Residue)).map ((x : F.Residue) - ·)).prod := by
    induction others with
    | nil => simp
    | cons o rest ih =>
      intro start
      rw [List.foldl_cons, ih, natCast_mul, natCast_sub]
      simp only [List.map_cons, List.prod_cons]
      ring
  rw [differences, loop, Nat.cast_one, one_mul]

theorem natCast_foldl_add (terms : List Nat) (start : Nat) :
    ((terms.foldl F.add start : Nat) : F.Residue) =
      start + (terms.map (Nat.cast : Nat → F.Residue)).sum := by
  induction terms generalizing start with
  | nil => simp
  | cons t rest ih =>
    rw [List.foldl_cons, ih, natCast_add, List.map_cons, List.sum_cons, add_assoc]

theorem foldl_add_lt (h : 0 < F.modulus) {start : Nat} (small : start < F.modulus)
    (terms : List Nat) : terms.foldl F.add start < F.modulus := by
  induction terms generalizing start with
  | nil => exact small
  | cons t rest ih => exact ih (F.add_lt h _ _)

variable [prime : Fact F.modulus.Prime]

/-- The weight of a node exists if no other node is the same residue. -/
theorem basis?_eq_some {x : Nat} {others : List Nat} (z : Nat)
    (apart : (x : F.Residue) ∉ others.map (Nat.cast : Nat → F.Residue)) :
    F.basis? z x others =
      some ((F.differences z others : F.Residue) / F.differences x others).val := by
  have nonzero : (F.differences x others : F.Residue) ≠ 0 := by
    rw [natCast_differences]
    intro zero
    rw [List.prod_eq_zero_iff] at zero
    obtain ⟨o, member, same⟩ := List.mem_map.mp zero
    exact apart (by rwa [sub_eq_zero.mp same])
  rw [basis?, div_eq, if_neg nonzero]
  rfl

/-- There is no weight of a node that is the same residue as another one. -/
theorem basis?_eq_none {x : Nat} {others : List Nat} (z : Nat)
    (again : (x : F.Residue) ∈ others.map (Nat.cast : Nat → F.Residue)) :
    F.basis? z x others = none := by
  have zero : (F.differences x others : F.Residue) = 0 := by
    rw [natCast_differences, List.prod_eq_zero_iff]
    exact List.mem_map.mpr ⟨_, again, sub_self _⟩
  rw [basis?, div_eq, if_pos zero]
  rfl

/-- **Interpolation.** From points on a polynomial of degree below their number, with abscissas that
differ in the field, `interpolate?` computes the polynomial's value anywhere. -/
theorem interpolate?_eq_some {points : List (Nat × Nat)} {g : F.Residue[X]}
    (distinct : (points.map fun pt => (pt.1 : F.Residue)).Nodup)
    (low : g.degree < points.length)
    (through : ∀ pt ∈ points, g.eval (pt.1 : F.Residue) = pt.2) (z : Nat) :
    F.interpolate? points z = some (g.eval (z : F.Residue)).val := by
  let term (s : (Nat × Nat) × List (Nat × Nat)) : Nat :=
    F.mul s.1.2 ((F.differences z (s.2.map (·.1)) : F.Residue) /
      F.differences s.1.1 (s.2.map (·.1))).val
  have terms : ((selections points).mapM fun s => do
      let weight ← F.basis? z s.1.1 (s.2.map (·.1))
      return F.mul s.1.2 weight) = some ((selections points).map term) := by
    apply mapM_eq_some_map
    intro s selected
    have nodup := ((perm_of_mem_selections selected).map
      fun pt => (pt.1 : F.Residue)).nodup_iff.mpr distinct
    have apart := (List.nodup_cons.mp nodup).1
    rw [F.basis?_eq_some z (by simpa using apart)]
    rfl
  have sum := sum_selections distinct (by rw [List.length_map]; exact low) (z : F.Residue)
  rw [selections_map, List.map_map] at sum
  have value : F.interpolate? points z = some (((selections points).map term).foldl F.add 0) := by
    rw [interpolate?, terms]
    rfl
  rw [value]
  refine congrArg some (F.eq_val_of_natCast_eq (F.foldl_add_lt prime.out.pos prime.out.pos _) ?_)
  rw [natCast_foldl_add, Nat.cast_zero, zero_add, ← sum, List.map_map]
  congr 1
  apply List.map_congr_left
  intro s selected
  have member : s.1 ∈ points := (perm_of_mem_selections selected).mem_iff.mp List.mem_cons_self
  simp only [Function.comp_apply, term, natCast_mul, ZMod.natCast_zmod_val, natCast_differences]
  rw [through s.1 member, List.map_map, List.map_map, List.map_map, List.map_map, List.map_map,
    List.map_map]
  rfl

/-- Interpolation is refused exactly if two of the points have the same abscissa in the field. -/
theorem interpolate?_eq_none_iff {points : List (Nat × Nat)} {z : Nat} :
    F.interpolate? points z = none ↔ ¬(points.map fun pt => (pt.1 : F.Residue)).Nodup := by
  constructor
  · intro refused distinct
    obtain ⟨g, ⟨low, through⟩, -⟩ :=
      existsUnique_polynomial_through (fun pt => (pt.2 : F.Residue)) distinct
    rw [F.interpolate?_eq_some distinct low through] at refused
    cases refused
  · intro collide
    obtain ⟨_, ofResidues, twice⟩ := exists_selection_of_not_nodup collide
    rw [selections_map] at ofResidues
    obtain ⟨s, selected, rfl⟩ := List.mem_map.mp ofResidues
    have none : F.basis? z s.1.1 (s.2.map (·.1)) = none :=
      F.basis?_eq_none z (by rwa [List.map_map])
    let term? (s : (Nat × Nat) × List (Nat × Nat)) : Option Nat := do
      let weight ← F.basis? z s.1.1 (s.2.map (·.1))
      return F.mul s.1.2 weight
    have refused : (selections points).mapM term? = Option.none :=
      mapM_eq_none_of_mem selected (by simp only [term?, none]; rfl)
    rw [interpolate?, refused]
    rfl

end PrimeField
end ThresholdMask
