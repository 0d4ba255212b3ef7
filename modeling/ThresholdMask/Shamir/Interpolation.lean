import ThresholdMask.Field.Basic

/-!
# Polynomials over a prime field

A polynomial is the list of its coefficients, constant term first; `evaluate` is its value, by
Horner's rule. `interpolate?` is Lagrange interpolation: from points `(x, y)` it computes the value
at `z` of the polynomial of least degree through them,

`∑ yᵢ · ∏ (z - xⱼ) / (xᵢ - xⱼ)` over `j ≠ i`,

and answers with nothing if two of the points have the same abscissa in the field.
-/

namespace ThresholdMask

/-- Every element of a list together with the list of the other ones. -/
def selections {α : Type} : List α → List (α × List α)
  | [] => []
  | a :: rest => (a, rest) :: (selections rest).map fun (b, others) => (b, a :: others)

@[simp] theorem map_fst_selections {α : Type} (l : List α) : (selections l).map (·.1) = l := by
  induction l with
  | nil => rfl
  | cons a rest ih =>
    simp only [selections, List.map_cons, List.map_map, Function.comp_def]
    rw [ih]

namespace PrimeField

/-- The value at `x` of the polynomial with these coefficients, constant term first. -/
def evaluate (F : PrimeField) (coefficients : List Nat) (x : Nat) : Nat :=
  coefficients.foldr (fun c value => F.add (F.mul value x) c) 0

theorem evaluate_lt (F : PrimeField) (h : 0 < F.modulus) (coefficients : List Nat) (x : Nat) :
    F.evaluate coefficients x < F.modulus := by
  cases coefficients with
  | nil => exact h
  | cons c rest => exact F.add_lt h _ _

/-- The product of the differences from `x` to the other abscissas. -/
def differences (F : PrimeField) (x : Nat) (others : List Nat) : Nat :=
  others.foldl (fun product other => F.mul product (F.sub x other)) 1

/-- The value at `z` of the polynomial that is one at `x` and zero at the others. -/
def basis? (F : PrimeField) (z x : Nat) (others : List Nat) : Option Nat :=
  (F.div (F.differences z others) (F.differences x others)).toOption

/-- The value at `z` of the polynomial through the points. -/
def interpolate? (F : PrimeField) (points : List (Nat × Nat)) (z : Nat) : Option Nat := do
  let terms ← (selections points).mapM fun (point, others) => do
    let weight ← F.basis? z point.1 (others.map (·.1))
    return F.mul point.2 weight
  return terms.foldl F.add 0

end PrimeField
end ThresholdMask
