import Mathlib
import ThresholdMask.Masker.Path
import ThresholdMask.ValueTree

/-!
# Places in values

Steps lead from a value to its parts (`ValueTree.follow?`). The places of a value are listed in
depth-first order by `ValueTree.places`: a whole before its parts, the elements of an array by
index, the left side of a tuple before the right one. They are all the places that steps lead to
(`ValueTree.mem_places_iff`), each before those that come later in lexicographic order
(`ValueTree.pairwise_places`).
-/

namespace ThresholdMask

/-! ## Where paths lead -/

namespace ValueTree

variable {σ : Type}

/-- The part of a tree that a step leads to. -/
def child? (v : ValueTree σ) (s : PathStep) : Option (ValueTree σ) :=
  match s, v with
  | .index i, .array _ elements => elements[i]?
  | .left, .tuple left _ => some left
  | .right, .tuple _ right => some right
  | _, _ => none

/-- The part of a tree that steps lead to, one after the other. -/
def follow? (v : ValueTree σ) : List PathStep → Option (ValueTree σ)
  | [] => some v
  | s :: steps => (v.child? s).bind (follow? · steps)

end ValueTree

namespace Path

/-- The path extended by steps. -/
def extend (p : Path) (steps : List PathStep) : Path := ⟨p.name, p.steps ++ steps⟩

@[simp] theorem extend_nil (p : Path) : p.extend [] = p := by simp [extend]

theorem extend_step (p : Path) (s : PathStep) (steps : List PathStep) :
    (p.step s).extend steps = p.extend (s :: steps) := by simp [extend, step]

theorem render_extend (p : Path) (steps : List PathStep) :
    (p.extend steps).render = p.render ++ String.join (steps.map renderStep) := by
  induction steps generalizing p with
  | nil => simp [extend]
  | cons s steps ih =>
    rw [← extend_step, ih, List.map_cons, String.join_cons, ← String.append_assoc]
    simp [render, step]

end Path

/-! ## Places in a value -/

/-- A place in a value. -/
structure Place (σ : Type) where
  /-- The steps that lead to the place. -/
  steps : List PathStep
  /-- If an array has the place for an element: the index, and the type that the array declares. -/
  declared : Option (Nat × ValueType)
  /-- What is found there. -/
  part : ValueTree σ

/-- The place behind one more step. -/
def Place.under {σ : Type} (s : PathStep) (p : Place σ) : Place σ :=
  { p with steps := s :: p.steps }

/-- The order of steps from one whole: elements by index, the left side before the right one. -/
def PathStep.Before : PathStep → PathStep → Prop
  | .index i, .index j => i < j
  | .left, .right => True
  | _, _ => False

namespace ValueTree

variable {σ : Type}

mutual

/-- The places inside of a value, in depth-first order. -/
def innerPlaces : ValueTree σ → List (Place σ)
  | .publicLeaf _ | .secretLeaf _ => []
  | .array inner elements => elementPlaces inner 0 elements
  | .tuple left right =>
    (⟨[], none, left⟩ :: innerPlaces left).map (.under .left) ++
      (⟨[], none, right⟩ :: innerPlaces right).map (.under .right)

/-- The places of the elements of an array and inside of them, at indices from `start`. -/
def elementPlaces (inner : ValueType) (start : Nat) : List (ValueTree σ) → List (Place σ)
  | [] => []
  | v :: rest =>
    (⟨[], some (start, inner), v⟩ :: innerPlaces v).map (.under (.index start)) ++
      elementPlaces inner (start + 1) rest

end

/-- The place of a value of which something may be declared, and the places inside of it. -/
def placesAs (declared : Option (Nat × ValueType)) (v : ValueTree σ) : List (Place σ) :=
  ⟨[], declared, v⟩ :: v.innerPlaces

/-- The places of a value, in depth-first order. -/
def places (v : ValueTree σ) : List (Place σ) := v.placesAs none

/-! ### From a whole to its parts -/

/-- The steps to the parts of a value, in order. -/
def partSteps : ValueTree σ → List PathStep
  | .publicLeaf _ | .secretLeaf _ => []
  | .array _ elements => (List.range elements.length).map .index
  | .tuple _ _ => [.left, .right]

/-- What an array declares of the element that a step leads to. -/
def declares? (v : ValueTree σ) (s : PathStep) : Option (Nat × ValueType) :=
  match s, v with
  | .index i, .array inner _ => some (i, inner)
  | _, _ => none

/-- The places of the part that a step leads to. -/
def placesUnder (v : ValueTree σ) (s : PathStep) : List (Place σ) :=
  match v.child? s with
  | some part => (part.placesAs (v.declares? s)).map (.under s)
  | none => []

theorem mem_partSteps {v : ValueTree σ} {s : PathStep} :
    s ∈ v.partSteps ↔ ∃ part, v.child? s = some part := by
  cases v with
  | publicLeaf leaf => cases s <;> simp [partSteps, child?]
  | secretLeaf secret => cases s <;> simp [partSteps, child?]
  | array inner elements =>
    cases s with
    | index i =>
      have inside : (∃ part, elements[i]? = some part) ↔ i < elements.length := by
        rw [← Option.isSome_iff_exists]
        simp
      simp [partSteps, child?, inside]
    | left => simp [partSteps, child?]
    | right => simp [partSteps, child?]
  | tuple left right => cases s <;> simp [partSteps, child?]

theorem exists_under_of_mem_placesUnder {v : ValueTree σ} {s : PathStep} {place : Place σ}
    (member : place ∈ v.placesUnder s) : ∃ below : Place σ, place = below.under s := by
  unfold placesUnder at member
  split at member
  · obtain ⟨below, -, same⟩ := List.mem_map.mp member
    exact ⟨below, same.symm⟩
  · cases member

theorem pairwise_partSteps (v : ValueTree σ) : v.partSteps.Pairwise PathStep.Before := by
  cases v with
  | publicLeaf leaf => exact .nil
  | secretLeaf secret => exact .nil
  | array inner elements =>
    rw [partSteps, List.pairwise_map]
    exact List.pairwise_lt_range
  | tuple left right => simp [partSteps, PathStep.Before]

theorem elementPlaces_eq (inner : ValueType) (elements : List (ValueTree σ)) (start : Nat) :
    elementPlaces inner start elements = (elements.zipIdx start).flatMap fun e =>
      (e.1.placesAs (some (e.2, inner))).map (.under (.index e.2)) := by
  induction elements generalizing start with
  | nil => rfl
  | cons v rest ih =>
    rw [elementPlaces, ih, List.zipIdx_cons, List.flatMap_cons]
    rfl

/-- The places inside of a value are those of its parts, in the order of the steps to them. -/
theorem innerPlaces_eq (v : ValueTree σ) : v.innerPlaces = v.partSteps.flatMap v.placesUnder := by
  cases v with
  | publicLeaf leaf => rfl
  | secretLeaf secret => rfl
  | array inner elements =>
    have indices : List.range elements.length = elements.zipIdx.map (·.2) := by
      rw [List.zipIdx_map_snd, List.range_eq_range']
    rw [innerPlaces, elementPlaces_eq, partSteps, indices, List.map_map, List.flatMap_map]
    refine List.flatMap_congr fun e member => ?_
    have found : elements[e.2]? = some e.1 := List.mem_zipIdx_iff_getElem?.mp member
    show _ = placesUnder (.array inner elements) (.index e.2)
    rw [placesUnder, child?, found]
    rfl
  | tuple left right =>
    rw [innerPlaces]
    simp [partSteps, placesUnder, child?, declares?, placesAs]

/-- What holds of a value if it holds of its parts, holds of every value. -/
theorem induction_child {motive : ValueTree σ → Prop}
    (whole : ∀ v : ValueTree σ, (∀ s part, v.child? s = some part → motive part) → motive v)
    (v : ValueTree σ) : motive v := by
  induction v using ValueTree.induction with
  | publicLeaf leaf => exact whole _ fun s part found => by cases s <;> cases found
  | secretLeaf secret => exact whole _ fun s part found => by cases s <;> cases found
  | array inner elements each =>
    refine whole _ fun s part found => ?_
    cases s with
    | index i => exact each part (List.mem_of_getElem? found)
    | left => cases found
    | right => cases found
  | tuple left right onLeft onRight =>
    refine whole _ fun s part found => ?_
    cases s with
    | index i => cases found
    | left => exact Option.some.inj found ▸ onLeft
    | right => exact Option.some.inj found ▸ onRight

theorem mem_innerPlaces {v : ValueTree σ} {place : Place σ} :
    place ∈ v.innerPlaces ↔ ∃ s part below, v.child? s = some part ∧
      below ∈ part.placesAs (v.declares? s) ∧ place = below.under s := by
  rw [innerPlaces_eq, List.mem_flatMap]
  constructor
  · rintro ⟨s, step, member⟩
    obtain ⟨part, found⟩ := mem_partSteps.mp step
    rw [placesUnder, found] at member
    obtain ⟨below, there, same⟩ := List.mem_map.mp member
    exact ⟨s, part, below, found, there, same.symm⟩
  · rintro ⟨s, part, below, found, there, rfl⟩
    refine ⟨s, mem_partSteps.mpr ⟨part, found⟩, ?_⟩
    rw [placesUnder, found]
    exact List.mem_map_of_mem there

/-! ### The places are those that steps lead to -/

/-- What is declared of the place that steps lead to, given what is declared of the whole. -/
def declaredAt? (declared : Option (Nat × ValueType)) (v : ValueTree σ) :
    List PathStep → Option (Nat × ValueType)
  | [] => declared
  | s :: steps => (v.child? s).bind fun part => part.declaredAt? (v.declares? s) steps

theorem mem_placesAs {v : ValueTree σ} : ∀ {declared : Option (Nat × ValueType)} {place : Place σ},
    place ∈ v.placesAs declared ↔
      v.follow? place.steps = some place.part ∧
        place.declared = v.declaredAt? declared place.steps := by
  induction v using induction_child with
  | whole v ih =>
    rintro declared ⟨steps, declared', part⟩
    rw [placesAs, List.mem_cons, mem_innerPlaces]
    cases steps with
    | nil =>
      constructor
      · rintro (same | ⟨s, part', below, -, -, same⟩)
        · cases same
          exact ⟨rfl, rfl⟩
        · cases same
      · rintro ⟨same, rfl⟩
        obtain rfl : v = part := Option.some.inj same
        exact .inl rfl
    | cons s steps =>
      show _ ↔ (v.child? s).bind (follow? · steps) = some part ∧
        declared' = (v.child? s).bind fun part => part.declaredAt? (v.declares? s) steps
      constructor
      · rintro (same | ⟨s', part', below, found, there, same⟩)
        · cases same
        · cases same
          rw [found]
          exact (ih _ _ found).mp there
      · rintro ⟨leads, rfl⟩
        obtain ⟨part', found, leads⟩ := Option.bind_eq_some_iff.mp leads
        rw [found]
        exact .inr ⟨s, part', ⟨steps, _, part⟩, found, (ih _ _ found).mpr ⟨leads, rfl⟩, rfl⟩

theorem declares?_eq_some_iff {v : ValueTree σ} {s : PathStep} {i : Nat} {inner : ValueType} :
    v.declares? s = some (i, inner) ↔ s = .index i ∧ ∃ elements, v = .array inner elements := by
  cases v with
  | publicLeaf leaf => cases s <;> simp [declares?]
  | secretLeaf secret => cases s <;> simp [declares?]
  | array inner' elements => cases s <;> simp [declares?]
  | tuple left right => cases s <;> simp [declares?]

theorem follow?_concat (v : ValueTree σ) (before : List PathStep) (s : PathStep) :
    v.follow? (before ++ [s]) = (v.follow? before).bind (·.child? s) := by
  induction before generalizing v with
  | nil =>
    show (v.child? s).bind some = v.child? s
    cases v.child? s <;> rfl
  | cons s' before ih =>
    rw [List.cons_append, follow?, follow?, Option.bind_assoc]
    simp only [ih]

theorem declaredAt?_concat (declared : Option (Nat × ValueType)) (v : ValueTree σ)
    (before : List PathStep) (s : PathStep) :
    v.declaredAt? declared (before ++ [s]) =
      (v.follow? before).bind fun whole => (whole.child? s).bind fun _ => whole.declares? s := by
  induction before generalizing v declared with
  | nil => rfl
  | cons s' before ih =>
    rw [List.cons_append, declaredAt?, follow?, Option.bind_assoc]
    simp only [ih]

/-- Something is declared of what steps lead to if the last one leads into an array. -/
theorem declaredAt?_eq_some_iff {v part : ValueTree σ} {steps : List PathStep}
    (leads : v.follow? steps = some part) {i : Nat} {inner : ValueType} :
    v.declaredAt? none steps = some (i, inner) ↔ ∃ before elements,
      steps = before ++ [.index i] ∧ v.follow? before = some (.array inner elements) := by
  rcases List.eq_nil_or_concat steps with rfl | ⟨before, s, rfl⟩
  · simp [declaredAt?]
  · rw [List.concat_eq_append] at leads ⊢
    rw [follow?_concat] at leads
    obtain ⟨whole, found, leads⟩ := Option.bind_eq_some_iff.mp leads
    rw [declaredAt?_concat, found, Option.bind_some, leads, Option.bind_some, declares?_eq_some_iff]
    constructor
    · rintro ⟨rfl, elements, rfl⟩
      exact ⟨before, elements, rfl, found⟩
    · rintro ⟨before', elements, same, found'⟩
      obtain ⟨rfl, last⟩ := List.append_inj' same rfl
      rw [found] at found'
      exact ⟨(List.cons.inj last).1, elements, Option.some.inj found'⟩

/-- The places of a value are those that steps lead to. -/
theorem mem_places_iff {v : ValueTree σ} {place : Place σ} :
    place ∈ v.places ↔ v.follow? place.steps = some place.part ∧
      ∀ i inner, place.declared = some (i, inner) ↔ ∃ before elements,
        place.steps = before ++ [.index i] ∧ v.follow? before = some (.array inner elements) := by
  rw [places, mem_placesAs]
  constructor
  · rintro ⟨leads, same⟩
    exact ⟨leads, fun i inner => by rw [same, declaredAt?_eq_some_iff leads]⟩
  · rintro ⟨leads, same⟩
    refine ⟨leads, Option.ext fun d => ?_⟩
    rw [same d.1 d.2, ← declaredAt?_eq_some_iff leads]

/-! ### The places are in depth-first order -/

theorem pairwise_placesAs (v : ValueTree σ) : ∀ declared : Option (Nat × ValueType),
    (v.placesAs declared).Pairwise fun a b => List.Lex PathStep.Before a.steps b.steps := by
  induction v using induction_child with
  | whole v ih =>
    intro declared
    rw [placesAs, List.pairwise_cons]
    constructor
    · intro place member
      obtain ⟨s, part, below, -, -, rfl⟩ := mem_innerPlaces.mp member
      exact .nil
    · rw [innerPlaces_eq, List.pairwise_flatMap]
      constructor
      · intro s step
        obtain ⟨part, found⟩ := mem_partSteps.mp step
        rw [placesUnder, found, List.pairwise_map]
        exact (ih s part found _).imp .cons
      · refine v.pairwise_partSteps.imp fun before a here b there => ?_
        obtain ⟨a', rfl⟩ := exists_under_of_mem_placesUnder here
        obtain ⟨b', rfl⟩ := exists_under_of_mem_placesUnder there
        exact .rel before

/-- A place comes before those inside of it and before those that a later step leads to. -/
theorem pairwise_places (v : ValueTree σ) :
    v.places.Pairwise fun a b => List.Lex PathStep.Before a.steps b.steps :=
  v.pairwise_placesAs none

end ValueTree

end ThresholdMask
