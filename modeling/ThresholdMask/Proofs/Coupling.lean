import Mathlib
import ThresholdMask.Proofs.Dealing

/-!
# Runs on shifted draws

A masking computation that is run on a tape is a function of the numbers on the tape. `Coupled` ties
two such computations: for fixed offsets, whatever numbers the first one draws, the second one draws
from the same bounds in the same order, and with the offsets added to the numbers it gives a related
result. Coupled computations may be put together (`Coupled.bind`), with their offsets one after the
other, and adding offsets is a bijection of the tapes (`shiftEquiv`).

`Alike` leaves the offsets open but not the bounds below which is drawn, and relates the results by
what is seen of them.
-/

namespace ThresholdMask

/-! ## Draws and offsets -/

/-- The numbers are below their bounds. -/
abbrev Fits (draws bounds : List Nat) : Prop := List.Forall₂ (· < ·) draws bounds

/-- Numbers that may be drawn below the bounds, in their order. -/
def Draws (bounds : List Nat) : Type := { draws : List Nat // Fits draws bounds }

/-- Below bounds none of which is zero, numbers can be drawn. -/
theorem nonempty_draws {bounds : List Nat} (positive : ∀ bound ∈ bounds, 0 < bound) :
    Nonempty (Draws bounds) := by
  refine ⟨⟨bounds.map fun _ => 0, ?_⟩⟩
  rw [Fits, List.forall₂_map_left_iff, List.forall₂_same]
  exact positive

/-- Offsets of draws, each with the bound of its draw. -/
abbrev Offsets := List (Nat × Nat)

namespace Offsets

/-- The bounds of the draws. -/
abbrev bounds (offsets : Offsets) : List Nat := offsets.map (·.1)

/-- Add the offsets to the draws, modulo the bounds. -/
def shift (offsets : Offsets) (draws : List Nat) : List Nat :=
  List.zipWith (fun o d => (d + o.2) % o.1) offsets draws

@[simp] theorem shift_cons (o : Nat × Nat) (offsets : Offsets) (d : Nat) (draws : List Nat) :
    shift (o :: offsets) (d :: draws) = (d + o.2) % o.1 :: offsets.shift draws := rfl

theorem shift_append {offsets others : Offsets} {draws rest : List Nat}
    (fits : Fits draws offsets.bounds) :
    (offsets ++ others).shift (draws ++ rest) = offsets.shift draws ++ others.shift rest := by
  have length : offsets.length = draws.length := by
    rw [fits.length_eq, List.length_map]
  exact List.zipWith_append length

theorem fits_shift {offsets : Offsets} {draws : List Nat} (fits : Fits draws offsets.bounds) :
    Fits (offsets.shift draws) offsets.bounds := by
  induction offsets generalizing draws with
  | nil =>
    cases fits
    exact .nil
  | cons o rest ih =>
    cases fits with
    | cons first others => exact .cons (Nat.mod_lt _ (Nat.zero_lt_of_lt first)) (ih others)

/-- Each offset takes the other one back. -/
def Undone (offsets others : Offsets) : Prop :=
  List.Forall₂ (fun o o' => o'.1 = o.1 ∧ (o.1 ≠ 0 → o.1 ∣ o.2 + o'.2)) offsets others

theorem Undone.shift_shift {offsets others : Offsets} (undone : offsets.Undone others) :
    ∀ {draws : List Nat}, Fits draws offsets.bounds →
      others.shift (offsets.shift draws) = draws := by
  induction undone with
  | nil =>
    intro draws fits
    cases fits
    rfl
  | cons first _ ih =>
    rename_i o o' rest rest'
    intro draws fits
    cases fits with
    | cons below others =>
      rename_i d ds
      -- a number was drawn below the bound, so the bound is not zero
      obtain ⟨k, sum⟩ := first.2 (Nat.ne_zero_of_lt below)
      rw [shift_cons, shift_cons, ih others, first.1, Nat.mod_add_mod, Nat.add_assoc, sum,
        Nat.add_mul_mod_self_left, Nat.mod_eq_of_lt below]

/-- The offsets that take these back. -/
def opposite (offsets : Offsets) : Offsets := offsets.map fun o => (o.1, (o.1 - 1) * o.2)

@[simp] theorem bounds_opposite (offsets : Offsets) :
    offsets.opposite.bounds = offsets.bounds := by
  rw [bounds, opposite, List.map_map]
  rfl

theorem dvd_add_opposite {bound offset : Nat} (nonzero : bound ≠ 0) :
    bound ∣ offset + (bound - 1) * offset := by
  obtain ⟨k, rfl⟩ := Nat.exists_eq_succ_of_ne_zero nonzero
  exact ⟨offset, by rw [Nat.succ_sub_one, Nat.succ_mul, Nat.add_comm]⟩

theorem undone_opposite (offsets : Offsets) : offsets.Undone offsets.opposite := by
  rw [Undone, opposite, List.forall₂_map_right_iff, List.forall₂_same]
  exact fun o _ => ⟨rfl, dvd_add_opposite⟩

theorem opposite_undone (offsets : Offsets) : offsets.opposite.Undone offsets := by
  rw [Undone, opposite, List.forall₂_map_left_iff, List.forall₂_same]
  refine fun o _ => ⟨rfl, fun nonzero => ?_⟩
  rw [Nat.add_comm]
  exact dvd_add_opposite nonzero

theorem fits_opposite_iff {offsets : Offsets} {draws : List Nat} :
    Fits draws offsets.opposite.bounds ↔ Fits draws offsets.bounds := by
  rw [bounds_opposite]

/-- Adding offsets is a bijection of the draws below the bounds. -/
def shiftEquiv (offsets : Offsets) : Draws offsets.bounds ≃ Draws offsets.bounds where
  toFun draws := ⟨offsets.shift draws.1, fits_shift draws.2⟩
  invFun draws := ⟨offsets.opposite.shift draws.1,
    fits_opposite_iff.mp (fits_shift (fits_opposite_iff.mpr draws.2))⟩
  left_inv draws := Subtype.ext (offsets.undone_opposite.shift_shift draws.2)
  right_inv draws := Subtype.ext
    (offsets.opposite_undone.shift_shift (fits_opposite_iff.mpr draws.2))

end Offsets

/-! ## Coupled computations -/

section Coupled

variable {α β γ δ : Type}

/-- A tape, and the bounds below which was drawn from it. -/
abbrev Taped := List Nat × List Nat

/-- From a tape that begins with these numbers, the computation draws just them, each below its
bound, and gives the result. -/
def Yields (x : Masker.Masking Taped α) (draws bounds : List Nat) (a : α) : Prop :=
  ∀ rest log, x.run (draws ++ rest, log) = (.ok a, (rest, log ++ bounds))

theorem Yields.pure (a : α) : Yields (pure a) [] [] a := by
  intro rest log
  rw [List.append_nil]
  rfl

theorem Yields.bind {x : Masker.Masking Taped α} {f : α → Masker.Masking Taped γ}
    {draws more bounds others : List Nat} {a : α} {c : γ} (first : Yields x draws bounds a)
    (next : Yields (f a) more others c) :
    Yields (x >>= f) (draws ++ more) (bounds ++ others) c := by
  intro rest log
  refine Masker.run_bind_eq_ok.mpr ⟨a, (more ++ rest, log ++ bounds), ?_, ?_⟩
  · rw [List.append_assoc]
    exact first (more ++ rest) log
  · rw [← List.append_assoc log]
    exact next rest (log ++ bounds)

/-- Whatever fits the bounds, the first computation has a result on it, and the second one has a
related result on it with the offsets added. -/
def Coupled (offsets : Offsets) (x : Masker.Masking Taped α) (y : Masker.Masking Taped β)
    (R : α → β → Prop) : Prop :=
  ∀ draws, Fits draws offsets.bounds → ∃ a b, Yields x draws offsets.bounds a ∧
    Yields y (offsets.shift draws) offsets.bounds b ∧ R a b

namespace Coupled

variable {R : α → β → Prop} {Q : γ → δ → Prop}

theorem pure {a : α} {b : β} (related : R a b) : Coupled [] (pure a) (pure b) R := by
  intro draws fits
  cases fits
  exact ⟨a, b, Yields.pure a, Yields.pure b, related⟩

/-- Coupled computations may be followed by ones that are coupled after related results. -/
theorem bind {offsets others : Offsets} {x : Masker.Masking Taped α} {y : Masker.Masking Taped β}
    (first : Coupled offsets x y R) {f : α → Masker.Masking Taped γ}
    {g : β → Masker.Masking Taped δ} (next : ∀ a b, R a b → Coupled others (f a) (g b) Q) :
    Coupled (offsets ++ others) (x >>= f) (y >>= g) Q := by
  intro draws fits
  have bounds : Offsets.bounds (offsets ++ others) = offsets.bounds ++ others.bounds :=
    List.map_append
  rw [bounds] at fits ⊢
  -- the first computations take the draws of their own offsets, the next ones take the others
  have fitsFirst := List.forall₂_take_append draws _ _ fits
  have fitsNext := List.forall₂_drop_append draws _ _ fits
  rw [← List.take_append_drop offsets.bounds.length draws, Offsets.shift_append fitsFirst]
  obtain ⟨a, b, yieldsX, yieldsY, related⟩ := first _ fitsFirst
  obtain ⟨c, d, yieldsF, yieldsG, related'⟩ := next a b related _ fitsNext
  exact ⟨c, d, yieldsX.bind yieldsF, yieldsY.bind yieldsG, related'⟩

/-- The results of coupled computations may be passed through functions. -/
theorem bind_pure {offsets : Offsets} {x : Masker.Masking Taped α} {y : Masker.Masking Taped β}
    (first : Coupled offsets x y R) {f : α → γ} {g : β → δ} (next : ∀ a b, R a b → Q (f a) (g b)) :
    Coupled offsets (x >>= fun a => Pure.pure (f a)) (y >>= fun b => Pure.pure (g b)) Q := by
  rw [← List.append_nil offsets]
  exact first.bind fun a b related => pure (next a b related)

end Coupled

/-! ## Computations that look alike -/

/-- For some offsets of draws below these bounds the computations are coupled, with results of which
the same is seen from each of the points of view. -/
def Alike {ι : Type} (views : List ι) (see : ι → α → γ) (bounds : List Nat)
    (x y : Masker.Masking Taped α) : Prop :=
  ∃ offsets : Offsets, offsets.bounds = bounds ∧
    Coupled offsets x y fun a b => ∀ z ∈ views, see z a = see z b

namespace Alike

variable {ι γ' δ' : Type} {views : List ι} {see : ι → α → γ} {see' : ι → β → γ'}
  {seen : ι → δ → δ'} {bounds bounds' : List Nat}

theorem pure (a : α) : Alike views see [] (pure a) (pure a) := by
  refine ⟨[], rfl, Coupled.pure ?_⟩
  intro z _
  rfl

/-- What is made of the results looks alike if it shows no more of them than was seen. -/
theorem map {x y : Masker.Masking Taped α} (h : Alike views see bounds x y) {f g : α → δ}
    (shown : ∀ z a b, see z a = see z b → seen z (f a) = seen z (g b)) :
    Alike views seen bounds (x >>= fun a => Pure.pure (f a)) (y >>= fun a => Pure.pure (g a)) := by
  obtain ⟨offsets, same, coupled⟩ := h
  refine ⟨offsets, same, coupled.bind_pure ?_⟩
  intro a b agree z member
  exact shown z a b (agree z member)

/-- One computation after another, and what is made of both results. -/
theorem map₂ {x y : Masker.Masking Taped α} (h : Alike views see bounds x y)
    {x' y' : Masker.Masking Taped β} (h' : Alike views see' bounds' x' y') {f : α → β → δ}
    (shown : ∀ z a b a' b', see z a = see z b → see' z a' = see' z b' →
      seen z (f a a') = seen z (f b b')) :
    Alike views seen (bounds ++ bounds') (do let a ← x; let a' ← x'; return f a a')
      (do let b ← y; let b' ← y'; return f b b') := by
  obtain ⟨offsets, rfl, coupled⟩ := h
  obtain ⟨more, rfl, coupled'⟩ := h'
  refine ⟨offsets ++ more, List.map_append, coupled.bind ?_⟩
  intro a b agree
  apply coupled'.bind_pure
  intro a' b' agree' z member
  exact shown z a b a' b' (agree z member) (agree' z member)

/-- Lists that are worked through alike look alike member by member. -/
theorem mapM {τ τ' : Type} {f : τ → Masker.Masking Taped α} {g : τ' → Masker.Masking Taped α}
    {boundsOf : τ → List Nat} {l : List τ} {l' : List τ'}
    (each : List.Forall₂ (fun a b => Alike views see (boundsOf a) (f a) (g b)) l l') :
    Alike views (fun z as => as.map (see z)) (l.flatMap boundsOf) (l.mapM f) (l'.mapM g) := by
  induction each with
  | nil =>
    rw [List.mapM_nil, List.mapM_nil]
    exact pure []
  | cons first _ ih =>
    rw [List.mapM_cons, List.mapM_cons, List.flatMap_cons]
    apply first.map₂ ih
    intro z a b as bs same others
    rw [List.map_cons, List.map_cons, same, others]

end Alike
end Coupled
end ThresholdMask
