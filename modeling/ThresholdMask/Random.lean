import ThresholdMask.Field.Basic

/-!
# Sources of randomness

A `Sampler` on a state type is all that sharing knows of randomness: asked for a number below `m`,
it answers with one and moves its state. That the answer is below `m` is part of the type, so what
is drawn from a field is a residue whatever the source.

`Sampler.tape` answers from a list of draws written beforehand, and `Sampler.recording` keeps the
list of the bounds that were asked for. Between them they make a run of the dealer a function of
its draws.
-/

namespace ThresholdMask

/-- A source of numbers below a bound. -/
structure Sampler (σ : Type) where
  /-- Draw a number below the bound. -/
  below : Nat → σ → Nat × σ
  /-- What is drawn is below a positive bound. -/
  below_lt : ∀ m s, 0 < m → (below m s).1 < m

namespace Sampler

/-- Draw from a list written beforehand; an entry that is too large is reduced, and after the end
of the list every draw is zero. -/
def tape : Sampler (List Nat) where
  below
    | _, [] => (0, [])
    | m, d :: rest => (d % m, rest)
  below_lt m s h := by
    cases s with
    | nil => exact h
    | cons d rest => exact Nat.mod_lt d h

/-- Draw as `S` does and note each bound, oldest first. -/
def recording {σ : Type} (S : Sampler σ) : Sampler (σ × List Nat) where
  below m s := ((S.below m s.1).1, (S.below m s.1).2, s.2 ++ [m])
  below_lt m s h := S.below_lt m s.1 h

end Sampler

namespace PrimeField

variable {σ : Type}

/-- A random element. -/
def random (F : PrimeField) (S : Sampler σ) : StateM σ Nat := S.below F.modulus

/-- A random element other than zero. -/
def randomNonzero (F : PrimeField) (S : Sampler σ) : StateM σ Nat :=
  fun s => ((S.below (F.modulus - 1) s).1 + 1, (S.below (F.modulus - 1) s).2)

/-- Several random elements, drawn one after another. -/
def randoms (F : PrimeField) (S : Sampler σ) : Nat → StateM σ (List Nat)
  | 0 => pure []
  | n + 1 => do
    let first ← F.random S
    let rest ← F.randoms S n
    return first :: rest

theorem random_lt (F : PrimeField) (S : Sampler σ) (s : σ) (h : 0 < F.modulus) :
    (F.random S s).1 < F.modulus := S.below_lt F.modulus s h

theorem randomNonzero_lt (F : PrimeField) (S : Sampler σ) (s : σ) (h : 1 < F.modulus) :
    (F.randomNonzero S s).1 < F.modulus := by
  have := S.below_lt (F.modulus - 1) s (by omega)
  simp only [randomNonzero]
  omega

end PrimeField
end ThresholdMask
