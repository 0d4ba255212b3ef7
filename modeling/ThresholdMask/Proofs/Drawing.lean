import Mathlib
import ThresholdMask.Masker.Basic
import ThresholdMask.Proofs.Dealing
import ThresholdMask.Proofs.Outlines

/-!
# How much is drawn

A recording sampler draws as the sampler that it is made from, and notes below which bounds. `Logs`
says of a computation that it has the same results with both, and which bounds are noted when it
has one; it is closed under the ways in which masking is put together. So a successful masking run
draws, secret by secret, as many numbers as the degree for each element that it shares
(`Masker.logs_mask`).

How often each bound occurs among them is told beforehand by the classification of the collection
(`Masker.perm_drawBounds`).
-/

namespace ThresholdMask

/-! ## Recorded draws -/

/-- Random elements are the same if they are recorded, and the modulus is noted once for each. -/
theorem PrimeField.randoms_recording {σ : Type} (F : PrimeField) (S : Sampler σ) (n : Nat) (s : σ)
    (log : List Nat) :
    F.randoms S.recording n (s, log) =
      ((F.randoms S n s).1, ((F.randoms S n s).2, log ++ List.replicate n F.modulus)) := by
  induction n generalizing s log with
  | zero =>
    rw [List.replicate_zero, List.append_nil]
    rfl
  | succ n ih =>
    have first : F.random S.recording (s, log) =
        ((F.random S s).1, ((F.random S s).2, log ++ [F.modulus])) := rfl
    rw [randoms_succ, randoms_succ, first, ih, List.append_assoc, List.singleton_append,
      List.replicate_succ]

namespace Masker

variable {σ α β : Type}

/-- Whenever the first computation has a result, the second one has it from a recording state, and
notes the bounds. -/
def Logs (x : Masking σ α) (y : Masking (σ × List Nat) α) (bounds : List Nat) : Prop :=
  ∀ ⦃s a s'⦄, x.run s = (.ok a, s') → ∀ log, y.run (s, log) = (.ok a, (s', log ++ bounds))

namespace Logs

theorem pure (a : α) : Logs (Pure.pure a : Masking σ α) (Pure.pure a) [] := by
  intro s b s' ran log
  obtain ⟨rfl, rfl⟩ := run_pure_eq_ok.mp ran
  rw [List.append_nil]
  exact run_pure_eq_ok.mpr ⟨rfl, rfl⟩

variable {x : Masking σ α} {y : Masking (σ × List Nat) α} {bounds : List Nat}

theorem bind {f : α → Masking σ β} {g : α → Masking (σ × List Nat) β} {others : List Nat}
    (first : Logs x y bounds) (next : ∀ a, Logs (f a) (g a) others) :
    Logs (x >>= f) (y >>= g) (bounds ++ others) := by
  intro s b s' ran log
  obtain ⟨a, s₁, ranX, ranF⟩ := run_bind_eq_ok.mp ran
  refine run_bind_eq_ok.mpr ⟨a, (s₁, log ++ bounds), first ranX log, ?_⟩
  rw [← List.append_assoc]
  exact next a ranF (log ++ bounds)

/-- What is made of a result draws nothing more. -/
theorem bind_pure (first : Logs x y bounds) (f : α → β) :
    Logs (x >>= fun a => Pure.pure (f a)) (y >>= fun a => Pure.pure (f a)) bounds := by
  rw [← List.append_nil bounds]
  exact first.bind fun a => pure (f a)

theorem throw_ite {p : Prop} [Decidable p] {e : MaskError} {f : β → Masking σ α}
    {g : β → Masking (σ × List Nat) α} (h : Logs x y bounds) :
    Logs (if p then throw e >>= f else x) (if p then throw e >>= g else y) bounds := by
  intro s a s' ran log
  obtain ⟨passed, ran⟩ := run_throw_ite_eq_ok.mp ran
  exact run_throw_ite_eq_ok.mpr ⟨passed, h ran log⟩

theorem mapM {f : α → Masking σ β} {g : α → Masking (σ × List Nat) β} {bounds : α → List Nat}
    {l : List α} (each : ∀ a ∈ l, Logs (f a) (g a) (bounds a)) :
    Logs (l.mapM f) (l.mapM g) (l.flatMap bounds) := by
  induction l with
  | nil => exact pure []
  | cons a rest ih =>
    rw [List.forall_mem_cons] at each
    rw [List.mapM_cons, List.mapM_cons, List.flatMap_cons]
    exact each.1.bind fun b => (ih each.2).bind_pure (b :: ·)

end Logs

/-! ## The bounds of a value -/

/-- The bounds of the numbers that are drawn for a secret: for each element that is shared as many
as the degree. -/
def secretBounds (m : Masker) : Secret → List Nat
  | .scalar v => List.replicate m.degree (m.fieldOf v.kind).modulus
  | .blob bytes => (bytes.chunks m.chunkSize).flatMap fun _ => List.replicate m.degree m.field.modulus

/-- The bounds of the numbers that are drawn for a value, secret by secret. -/
def bounds (m : Masker) (v : Value) : List Nat := v.leaves (fun _ => []) m.secretBounds

variable {m : Masker} {S : Sampler σ}

theorem logs_dealElement {path : Path} {F : PrimeField} {encoded : Except FieldError Nat} :
    Logs (m.dealElement S path F encoded) (m.dealElement S.recording path F encoded)
      (List.replicate m.degree F.modulus) := by
  intro s coefficients s' ran log
  cases encoded with
  | error e => cases ran
  | ok secret =>
    have drawn : (Except.ok (F.reduce secret :: (F.randoms S m.degree s).1), (F.randoms S m.degree s).2) =
        ((.ok coefficients, s') : Except MaskError (List Nat) × σ) := ran
    obtain ⟨same, rfl⟩ := Prod.mk.inj drawn
    show (Except.ok (F.reduce secret :: (F.randoms S.recording m.degree (s, log)).1),
      (F.randoms S.recording m.degree (s, log)).2) = _
    rw [F.randoms_recording, same]

theorem logs_dealSecret {path : Path} (secret : Secret) :
    Logs (m.dealSecret S path secret) (m.dealSecret S.recording path secret)
      (m.secretBounds secret) := by
  cases secret with
  | scalar v => exact logs_dealElement.bind_pure _
  | blob bytes => exact (Logs.mapM fun chunk _ => logs_dealElement).bind_pure _

theorem logs_dealElements {path : Path} {inner : ValueType} {elements : List Value}
    (each : ∀ v ∈ elements, ∀ {path},
      Logs (m.dealValue S path v) (m.dealValue S.recording path v) (m.bounds v)) {start : Nat} :
    Logs (m.dealElements S path inner start elements)
      (m.dealElements S.recording path inner start elements) (elements.flatMap m.bounds) := by
  induction elements generalizing start with
  | nil =>
    unfold dealElements
    exact .pure []
  | cons v rest ih =>
    rw [List.forall_mem_cons] at each
    have first : Logs (m.dealValue S (path.index start) v) _ (m.bounds v) := each.1
    have others : Logs (m.dealElements S path inner (start + 1) rest) _ _ := ih each.2
    unfold dealElements
    exact (first.bind fun d => others.bind_pure (d :: ·)).throw_ite

/-- What is drawn for a value depends on nothing but its secrets. -/
theorem logs_dealValue (v : Value) : ∀ {path : Path},
    Logs (m.dealValue S path v) (m.dealValue S.recording path v) (m.bounds v) := by
  induction v using ValueTree.induction with
  | publicLeaf leaf =>
    intro path
    unfold dealValue
    exact .pure _
  | secretLeaf secret =>
    intro path
    unfold dealValue
    exact (logs_dealSecret secret).bind_pure _
  | array inner elements each =>
    intro path
    rw [bounds, ValueTree.leaves, ValueTree.leavesList_eq]
    unfold dealValue
    exact (logs_dealElements each).bind_pure _
  | tuple left right onLeft onRight =>
    intro path
    unfold dealValue
    exact onLeft.bind fun l => onRight.bind_pure _

/-- The bounds of the numbers that are drawn for a collection, value by value. -/
def namedBounds (m : Masker) (values : NamedValues Value) : List Nat :=
  values.toList.flatMap fun e => m.bounds e.2

/-- A masking run gives the same bundles if it is recorded, and notes the bounds of the
collection. -/
theorem logs_mask (values : NamedValues Value) :
    Logs (m.mask S values) (m.mask S.recording values) (m.namedBounds values) :=
  Logs.bind_pure (Logs.mapM fun e _ => (logs_dealValue e.2).bind_pure (e.1, ·)) _

/-! ## Counts of bounds -/

/-- The bounds of as many coefficients as the degree for everything that is counted as shared. -/
def drawBounds (m : Masker) (c : Classification) : List Nat :=
  List.replicate (m.degree * c.shares) m.field.modulus ++
    List.replicate (m.degree * c.ecdsaKeyShares) m.ecdsaKeyField.modulus ++
    List.replicate (m.degree * c.eddsaKeyShares) m.eddsaKeyField.modulus

/-- Since chunks of blobs are never empty, the classification counts the chunks that are dealt. -/
theorem ofSecret_blob (m : Masker) (bytes : Bytes) :
    Classification.ofSecret m.chunkSize (.blob bytes) =
      { shares := Bytes.chunkCount bytes.length m.chunkSize } := by
  rw [Classification.ofSecret, max_eq_left m.chunkSize_pos]

theorem perm_drawBounds_add (m : Masker) (c d : Classification) :
    (m.drawBounds c ++ m.drawBounds d).Perm (m.drawBounds (c + d)) := by
  have sum : c + d = ⟨c.shares + d.shares, c.publicLeaves + d.publicLeaves,
    c.ecdsaKeyShares + d.ecdsaKeyShares, c.eddsaKeyShares + d.eddsaKeyShares⟩ := rfl
  -- fields may share a modulus, so that a bound can come from several parts
  rw [List.perm_iff_count]
  intro bound
  simp only [drawBounds, sum, Nat.mul_add, List.count_append, List.count_replicate]
  split_ifs <;> omega

theorem drawBounds_empty (m : Masker) : m.drawBounds {} = [] := by
  simp [drawBounds]

theorem perm_secretBounds (secret : Secret) :
    (m.secretBounds secret).Perm (m.drawBounds (Classification.ofSecret m.chunkSize secret)) := by
  apply List.Perm.of_eq
  cases secret with
  | scalar v => cases v <;> simp [secretBounds, drawBounds, Classification.ofSecret, fieldOf,
      SecretScalar.kind]
  | blob bytes =>
    rw [ofSecret_blob]
    simp [secretBounds, drawBounds, List.flatMap_def, Nat.mul_comm m.degree]

theorem perm_elementBounds {elements : List Value}
    (each : ∀ v ∈ elements,
      (m.bounds v).Perm (m.drawBounds (Classification.ofValue m.chunkSize v))) :
    (elements.flatMap m.bounds).Perm (m.drawBounds (Classification.ofList m.chunkSize elements)) := by
  induction elements with
  | nil => rw [List.flatMap_nil, Classification.ofList, drawBounds_empty]
  | cons v rest ih =>
    rw [List.forall_mem_cons] at each
    rw [List.flatMap_cons, Classification.ofList]
    exact (each.1.append (ih each.2)).trans (m.perm_drawBounds_add _ _)

theorem perm_bounds (v : Value) :
    (m.bounds v).Perm (m.drawBounds (Classification.ofValue m.chunkSize v)) := by
  induction v using ValueTree.induction with
  | publicLeaf leaf =>
    rw [bounds, ValueTree.leaves, Classification.ofValue]
    simp [drawBounds]
  | secretLeaf secret => exact perm_secretBounds secret
  | array inner elements each =>
    rw [bounds, ValueTree.leaves, ValueTree.leavesList_eq, Classification.ofValue]
    exact perm_elementBounds each
  | tuple left right onLeft onRight =>
    rw [bounds, ValueTree.leaves, Classification.ofValue]
    exact (onLeft.append onRight).trans (m.perm_drawBounds_add _ _)

/-- Nothing is drawn but elements of the fields in use. -/
theorem exists_kind_of_mem_drawBounds {c : Classification} {bound : Nat}
    (member : bound ∈ m.drawBounds c) : ∃ kind, bound = (m.fieldOf kind).modulus := by
  unfold drawBounds at member
  rw [List.mem_append, List.mem_append] at member
  rcases member with (drawn | drawn) | drawn
  · exact ⟨.integer, (List.mem_replicate.mp drawn).2⟩
  · exact ⟨.ecdsaPrivateKey, (List.mem_replicate.mp drawn).2⟩
  · exact ⟨.eddsaPrivateKey, (List.mem_replicate.mp drawn).2⟩

/-- The bounds of a collection are those that its classification tells, in some order. -/
theorem perm_drawBounds (values : NamedValues Value) :
    (m.namedBounds values).Perm (m.drawBounds (m.classify values)) := by
  rw [namedBounds, ← List.flatMap_map]
  exact perm_elementBounds fun v _ => perm_bounds v

/-- The bounds of a collection are moduli of the fields in use, so that none of them is zero. -/
theorem exists_kind_of_mem_namedBounds {values : NamedValues Value} {bound : Nat}
    (member : bound ∈ m.namedBounds values) :
    ∃ kind, bound = (m.fieldOf kind).modulus ∧ 0 < bound := by
  obtain ⟨kind, rfl⟩ := exists_kind_of_mem_drawBounds ((perm_drawBounds values).mem_iff.mp member)
  exact ⟨kind, rfl, (m.prime_fieldOf kind).out.pos⟩

/-! ## Bounds and outlines -/

/-- The bounds of the numbers that are drawn for a secret of this outline. -/
def outlineBounds (m : Masker) : SecretKind × Nat → List Nat
  | (.scalar kind, _) => List.replicate m.degree (m.fieldOf kind).modulus
  | (.blob, length) =>
    List.replicate (Bytes.chunkCount length m.chunkSize * m.degree) m.field.modulus

theorem secretBounds_eq (secret : Secret) :
    m.secretBounds secret = m.outlineBounds secret.outline := by
  cases secret with
  | scalar v => rfl
  | blob bytes =>
    rw [secretBounds, Secret.outline, outlineBounds, List.flatMap_def, List.map_const',
      List.flatten_replicate_replicate, Bytes.length_chunks]

/-- The bounds of a value do not depend on the contents of its secrets. -/
theorem bounds_eq (v : Value) : m.bounds v = v.outline.leaves (fun _ => []) m.outlineBounds := by
  rw [bounds, Value.outline, ValueTree.leaves_map]
  congr 1
  funext secret
  exact secretBounds_eq secret

theorem bounds_eq_of_outline {v w : Value} (same : v.outline = w.outline) :
    m.bounds v = m.bounds w := by
  rw [bounds_eq, bounds_eq, same]

end Masker
end ThresholdMask
