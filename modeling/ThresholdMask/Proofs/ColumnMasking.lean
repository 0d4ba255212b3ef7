import Mathlib
import ThresholdMask.Proofs.Dealing

/-!
# Masking with a column for each party

Masking written once more as a program that never holds a dealing: it shares every secret as it
comes to it, and keeps for each party of the roster a column of what the party has so far. What is
shared next is zipped to the columns, and so are the sides of tuples and in the end the parties.

A zip that is too short would drop parties without a word. None is: there are as many columns as
parties all the way, and the program does what `Masker.mask` does, draw by draw and failure by
failure (`Columnwise.mask_eq`).
-/

namespace ThresholdMask

namespace Columnwise

variable {σ : Type}

/-! ## Columns -/

/-- Change each column by what comes in for it; a column for which nothing comes in stays. -/
def zipOnto {α β : Type} (change : β → α → β) : List β → List α → List β
  | column :: columns, a :: rest => change column a :: zipOnto change columns rest
  | columns, _ => columns

/-- Empty columns, one for each party. -/
def emptyColumns {β : Type} (m : Masker) (empty : β) : List β := List.replicate m.roster.size empty

/-! ## Secret leaves -/

/-- Share an encoded secret; an encoding error is reported at the path. -/
def shareElement (m : Masker) (S : Sampler σ) (path : Path) (F : PrimeField)
    (encoded : Except FieldError Nat) : Masker.Masking σ (List Nat) :=
  match encoded with
  | .error e => throw (.encoding path e)
  | .ok secret => (m.sharer F).shareInOrder S secret

/-- Share the next chunk of a blob. -/
def nextChunk (m : Masker) (S : Sampler σ) (path : Path) (columns : List (List Nat))
    (chunk : Bytes) : Masker.Masking σ (List (List Nat)) := do
  let shares ← shareElement m S path m.field (m.field.encodeChunk chunk)
  return zipOnto (fun column share => column ++ [share]) columns shares

/-- Share a secret leaf. -/
def maskSecret (m : Masker) (S : Sampler σ) (path : Path) :
    Secret → Masker.Masking σ (List MaskedValue)
  | .scalar v => do
    let F := m.fieldOf v.kind
    let shares ← shareElement m S path F (v.encode F)
    return shares.map fun share => .secretLeaf (.scalar v.kind share)
  | .blob bytes => do
    let columns ← (bytes.chunks m.chunkSize).foldlM (nextChunk m S path) (emptyColumns m [])
    return columns.map fun column => .secretLeaf (.blob ⟨column, bytes.length⟩)

/-! ## Values -/

mutual

/-- Mask a value: what each party holds of it, in roster order. -/
def maskValue (m : Masker) (S : Sampler σ) (path : Path) :
    Value → Masker.Masking σ (List MaskedValue)
  | .publicLeaf leaf => return List.replicate m.roster.size (.publicLeaf leaf)
  | .secretLeaf secret => maskSecret m S path secret
  | .array inner elements => do
    let columns ← maskElements m S path inner 0 (emptyColumns m []) elements
    return columns.map (.array inner)
  | .tuple left right => do
    let lefts ← maskValue m S path.left left
    let rights ← maskValue m S path.right right
    return List.zipWith .tuple lefts rights

/-- Mask the elements of an array, at indices from `start`, behind what the columns hold. -/
def maskElements (m : Masker) (S : Sampler σ) (path : Path) (inner : ValueType) (start : Nat)
    (columns : List (List MaskedValue)) :
    List Value → Masker.Masking σ (List (List MaskedValue))
  | [] => return columns
  | v :: rest => do
    if v.type ≠ inner then
      throw (.invalidValue (path.index start) (.arrayTypeMismatch start inner v.type))
    let copies ← maskValue m S (path.index start) v
    maskElements m S path inner (start + 1)
      (zipOnto (fun column copy => column ++ [copy]) columns copies) rest

end

/-! ## Collections -/

/-- Mask the next value of a collection into the bundles. -/
def nextValue (m : Masker) (S : Sampler σ) (bundles : List Bundle) (entry : String × Value) :
    Masker.Masking σ (List Bundle) := do
  let copies ← maskValue m S (Path.ofName entry.1) entry.2
  return zipOnto (fun bundle copy => (bundle.insert entry.1 copy).2) bundles copies

/-- Mask a collection: one bundle per party, in roster order. -/
def mask (m : Masker) (S : Sampler σ) (values : NamedValues Value) :
    Masker.Masking σ (List (PartyId × Bundle)) := do
  let bundles ← values.toList.foldlM (nextValue m S) (emptyColumns m NamedValues.empty)
  return m.roster.parties.zip bundles

/-! ## Columns are as many as the parties -/

section Columns

variable {α β : Type} {m : Masker} {S : Sampler σ} {path : Path}

/-- What a list of points makes of functions stays as long as the list. -/
theorem zipOnto_map {ι : Type} (change : β → α → β) (column : ι → β) (item : ι → α)
    (points : List ι) :
    zipOnto change (points.map column) (points.map item) =
      points.map fun e => change (column e) (item e) := by
  induction points with
  | nil => rfl
  | cons e rest ih =>
    rw [List.map_cons, List.map_cons, zipOnto, ih, List.map_cons]

theorem replicate_eq_map_points (m : Masker) (b : β) :
    List.replicate m.roster.size b = m.roster.points.map fun _ => b := by
  rw [List.map_const', ← List.length_map (f := (·.1)), Roster.map_fst_points]
  rfl

/-- A loop over columns does what is done item by item, and changes each column by the results one
after another. -/
theorem foldlM_columns {ι γ δ : Type} {points : List ι}
    {step : List γ → α → Masker.Masking σ (List γ)} (deal : α → Masker.Masking σ δ)
    (next : ι → γ → δ → γ) (items : List α)
    (onto : ∀ item ∈ items, ∀ column : ι → γ, step (points.map column) item =
      deal item >>= fun d => pure (points.map fun e => next e (column e) d))
    (column : ι → γ) :
    items.foldlM step (points.map column) =
      items.mapM deal >>= fun ds => pure (points.map fun e => ds.foldl (next e) (column e)) := by
  induction items generalizing column with
  | nil => simp
  | cons item rest ih =>
    rw [List.forall_mem_cons] at onto
    rw [List.foldlM_cons, List.mapM_cons, onto.1]
    simp only [bind_assoc, pure_bind, List.foldl_cons]
    congr 1
    funext d
    exact ih onto.2 fun e => next e (column e) d

theorem foldl_append_singleton (f : α → β) (start : List β) (l : List α) :
    l.foldl (fun column a => column ++ [f a]) start = start ++ l.map f := by
  rw [List.foldl_append_eq_append, ← List.flatMap_def, ← List.map_eq_flatMap]

/-! ## The same draws and the same failures -/

/-- Sharing an element is dealing it and evaluating what is dealt. -/
theorem shareElement_eq (F : PrimeField) (encoded : Except FieldError Nat) :
    shareElement m S path F encoded = m.dealElement S path F encoded >>= fun p =>
      pure (m.roster.points.map fun e => F.evaluate p e.2) := by
  cases encoded with
  | error e => rfl
  | ok secret => rfl

theorem nextChunk_eq (column : PartyId × Nat → List Nat) (chunk : Bytes) :
    nextChunk m S path (m.roster.points.map column) chunk =
      m.dealElement S path m.field (m.field.encodeChunk chunk) >>= fun p =>
        pure (m.roster.points.map fun e => column e ++ [m.field.evaluate p e.2]) := by
  unfold nextChunk
  simp only [shareElement_eq, bind_assoc, pure_bind, zipOnto_map]

theorem maskSecret_eq (secret : Secret) :
    maskSecret m S path secret = m.dealSecret S path secret >>= fun d =>
      pure (m.roster.points.map fun e => .secretLeaf (m.shareAt e.2 d)) := by
  cases secret with
  | scalar v =>
    unfold maskSecret Masker.dealSecret
    simp only [shareElement_eq, bind_assoc, pure_bind, List.map_map]
    rfl
  | blob bytes =>
    have chunks := foldlM_columns
      (fun chunk => m.dealElement S path m.field (m.field.encodeChunk chunk))
      (fun (e : PartyId × Nat) column p => column ++ [m.field.evaluate p e.2])
      (bytes.chunks m.chunkSize) (fun chunk _ column => nextChunk_eq column chunk) fun _ => []
    rw [maskSecret, emptyColumns, replicate_eq_map_points, chunks, Masker.dealSecret]
    simp only [bind_assoc, pure_bind, foldl_append_singleton, List.nil_append, List.map_map]
    rfl

/-- Masking elements is dealing them and evaluating what is dealt behind what the columns hold. -/
theorem maskElements_eq {inner : ValueType} {elements : List Value}
    (each : ∀ v ∈ elements, ∀ {path}, maskValue m S path v = m.dealValue S path v >>= fun d =>
      pure (m.roster.points.map fun e => m.maskedAt e.2 d))
    {start : Nat} (column : PartyId × Nat → List MaskedValue) :
    maskElements m S path inner start (m.roster.points.map column) elements =
      m.dealElements S path inner start elements >>= fun ds =>
        pure (m.roster.points.map fun e => column e ++ ds.map (m.maskedAt e.2)) := by
  induction elements generalizing start column with
  | nil =>
    unfold maskElements Masker.dealElements
    simp
  | cons v rest ih =>
    rw [List.forall_mem_cons] at each
    unfold maskElements Masker.dealElements
    by_cases type : v.type = inner
    · simp only [ne_eq, type, not_true_eq_false, if_false, pure_bind, each.1, bind_assoc,
        zipOnto_map, ih each.2, List.map_cons, List.append_assoc, List.singleton_append]
    · simp only [ne_eq, type, not_false_eq_true, if_true]
      rfl

/-- Masking a value is dealing it and evaluating what is dealt for every party. -/
theorem maskValue_eq (v : Value) : ∀ {path : Path},
    maskValue m S path v = m.dealValue S path v >>= fun d =>
      pure (m.roster.points.map fun e => m.maskedAt e.2 d) := by
  induction v using ValueTree.induction with
  | publicLeaf leaf =>
    intro path
    unfold maskValue Masker.dealValue
    rw [replicate_eq_map_points, pure_bind]
    rfl
  | secretLeaf secret =>
    intro path
    unfold maskValue Masker.dealValue
    rw [maskSecret_eq, bind_assoc]
    simp only [pure_bind]
    rfl
  | array inner elements each =>
    intro path
    unfold maskValue Masker.dealValue emptyColumns
    rw [replicate_eq_map_points, maskElements_eq each]
    simp only [bind_assoc, pure_bind, List.nil_append, List.map_map, Masker.maskedAt,
      ValueTree.map, ValueTree.mapList_eq]
    rfl
  | tuple left right onLeft onRight =>
    intro path
    unfold maskValue Masker.dealValue
    simp only [onLeft, onRight, bind_assoc, pure_bind, List.zipWith_map, List.zipWith_self,
      Masker.maskedAt, ValueTree.map]

theorem nextValue_eq (bundle : PartyId × Nat → Bundle) (entry : String × Value) :
    nextValue m S (m.roster.points.map bundle) entry =
      (m.dealValue S (Path.ofName entry.1) entry.2 >>= fun d => pure (entry.1, d)) >>= fun d =>
        pure (m.roster.points.map fun e => ((bundle e).insert d.1 (m.maskedAt e.2 d.2)).2) := by
  unfold nextValue
  simp only [maskValue_eq, bind_assoc, pure_bind, zipOnto_map]

/-- **Columns.** Masking with a column for each party draws, fails and gives bundles as masking by
dealings does. -/
theorem mask_eq (m : Masker) (S : Sampler σ) (values : NamedValues Value) :
    mask m S values = m.mask S values := by
  have entries := foldlM_columns
    (fun entry => m.dealValue S (Path.ofName entry.1) entry.2 >>= fun d => pure (entry.1, d))
    (fun e bundle d => (bundle.insert d.1 (m.maskedAt e.2 d.2)).2) values.toList
    (fun entry _ bundle => nextValue_eq bundle entry) fun _ => NamedValues.empty
  unfold mask emptyColumns Masker.mask Masker.deal
  rw [replicate_eq_map_points, entries, bind_assoc]
  congr 1
  funext ds
  have bundle (x : Nat) : ds.foldl (fun bundle d => (bundle.insert d.1 (m.maskedAt x d.2)).2)
      NamedValues.empty = m.bundleAt x ds := by
    rw [Masker.bundleAt, NamedValues.ofList, NamedValues.extend, List.foldl_map]
  rw [pure_bind, ← Roster.map_fst_points, List.zip_map']
  simp only [bundle]

end Columns

end Columnwise
end ThresholdMask
