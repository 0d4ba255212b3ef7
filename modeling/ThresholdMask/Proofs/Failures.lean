import Mathlib
import ThresholdMask.Proofs.GuardedUnmasking
import ThresholdMask.Proofs.Places
import ThresholdMask.Proofs.Verdict

/-!
# How unmasking fails

`Masker.Reported` lists the failures of unmasking a jar that the masker has built, whatever parties
put in or took out: too few bundles, a party or a name that is missing, contributions that do not
fit together, shares that are corrupted, and a chunk that does not fit its place in a blob. Nothing
else is ever reported (`Masker.failsOnly_unmask`).

The checks made before shares are reconstructed rule out that they are refused for other reasons:
the contributions to a value come from distinct parties of the roster, as many as unmask, and in
every field in use their abscissas stay apart. A key that is reconstructed always fits into its
bytes, as no field in use has more elements than there are byte strings of this length.
-/

namespace ThresholdMask

/-! ## Failures of computations -/

section Computations

variable {ε ε' α β : Type} {P : ε → Prop}

/-- Every failure of the computation is one of these. -/
def FailsOnly (P : ε → Prop) (x : Except ε α) : Prop := ∀ e, x = .error e → P e

theorem FailsOnly.ok (a : α) : FailsOnly P (.ok a) := fun _ h => by cases h

theorem FailsOnly.error {e : ε} (h : P e) : FailsOnly P (.error e : Except ε α) := by
  rintro _ ⟨⟩
  exact h

theorem FailsOnly.mono {Q : ε → Prop} {x : Except ε α} (h : FailsOnly Q x)
    (imp : ∀ e, Q e → P e) : FailsOnly P x := fun e failed => imp e (h e failed)

theorem FailsOnly.bind {x : Except ε α} {f : α → Except ε β} (hx : FailsOnly P x)
    (hf : ∀ a, x = .ok a → FailsOnly P (f a)) : FailsOnly P (x >>= f) := by
  cases x with
  | error e => exact .error (hx e rfl)
  | ok a => exact hf a rfl

theorem FailsOnly.map {x : Except ε α} {f : α → β} (h : FailsOnly P x) :
    FailsOnly P (x.map f) := by
  cases x with
  | error e => exact .error (h e rfl)
  | ok a => exact .ok (f a)

theorem FailsOnly.mapError {Q : ε' → Prop} {x : Except ε α} {f : ε → ε'}
    (h : FailsOnly (fun e => Q (f e)) x) : FailsOnly Q (x.mapError f) := by
  cases x with
  | error e => exact .error (h e rfl)
  | ok a => exact .ok a

/-- A computation behind a check that reports one failure. -/
theorem FailsOnly.ite_error {p : Prop} [Decidable p] {x : Except ε α} {e : ε}
    (hx : p → FailsOnly P x) (he : ¬p → P e) : FailsOnly P (if p then x else .error e) := by
  by_cases passed : p
  · rw [if_pos passed]
    exact hx passed
  · rw [if_neg passed]
    exact .error (he passed)

theorem FailsOnly.mapM {f : α → Except ε β} {l : List α} (each : ∀ a ∈ l, FailsOnly P (f a)) :
    FailsOnly P (l.mapM f) := by
  induction l with
  | nil => exact .ok []
  | cons a rest ih =>
    rw [List.forall_mem_cons] at each
    rw [List.mapM_cons]
    exact each.1.bind fun b _ => (ih each.2).bind fun bs _ => .ok (b :: bs)

theorem FailsOnly.eachContribution {P : UnmaskError → Prop}
    {check : PartyId → α → Except UnmaskError Unit} {cs : List (PartyId × α)}
    (each : ∀ c ∈ cs, FailsOnly P (check c.1 c.2)) :
    FailsOnly P (ThresholdMask.eachContribution check cs) := by
  induction cs with
  | nil => exact .ok ()
  | cons c rest ih =>
    rw [List.forall_mem_cons] at each
    exact each.1.bind fun _ _ => ih each.2

end Computations

/-! ## Failures at a value -/

/-- The failures of unmasking contributions to the value at a path: at some place in the value they
do not fit together, or shares are corrupted, or a chunk does not fit, and this only in a blob. -/
inductive ValueFailure (path : Path) (cs : List Contribution) : UnmaskError → Prop
  | typeMismatch (steps : List PathStep) (p : PartyId) (expected found : MaskedForm) :
      ValueFailure path cs (.typeMismatch (path.extend steps) p expected found)
  | inconsistency (steps : List PathStep) (p : PartyId) :
      ValueFailure path cs (.inconsistency (path.extend steps) p)
  | corruption (steps : List PathStep) (p : Option PartyId) :
      ValueFailure path cs (.corruption (path.extend steps) p)
  | encoding (steps : List PathStep) (source : FieldError)
      (blobs : ∀ c ∈ cs, ∃ b, c.2.follow? steps = some (.secretLeaf (.blob b))) :
      ValueFailure path cs (.encoding (path.extend steps) source)

variable {path : Path} {cs : List Contribution}

/-- What fails in a part of the contributions, which all of them have, fails in them. -/
theorem ValueFailure.of_part {s : PathStep} (whole : ∀ c ∈ cs, (c.2.child? s).isSome)
    {e : UnmaskError} (h : ValueFailure (path.step s) (partsOf (·.child? s) cs) e) :
    ValueFailure path cs e := by
  cases h with
  | typeMismatch steps p expected found =>
    rw [Path.extend_step]
    exact .typeMismatch (s :: steps) p expected found
  | inconsistency steps p =>
    rw [Path.extend_step]
    exact .inconsistency (s :: steps) p
  | corruption steps p =>
    rw [Path.extend_step]
    exact .corruption (s :: steps) p
  | encoding steps source blobs =>
    rw [Path.extend_step]
    refine .encoding (s :: steps) source fun c member => ?_
    obtain ⟨v, found⟩ := Option.isSome_iff_exists.mp (whole c member)
    obtain ⟨b, leads⟩ := blobs (c.1, v) (mem_partsOf.mpr ⟨c.2, member, found⟩)
    refine ⟨b, ?_⟩
    rw [ValueTree.follow?, found]
    exact leads

theorem ValueFailure.mismatch (p : PartyId) (expected found : MaskedForm) :
    ValueFailure path cs (.typeMismatch path p expected found) := by
  have here : ValueFailure path cs (.typeMismatch (path.extend []) p expected found) :=
    .typeMismatch [] p expected found
  rwa [Path.extend_nil] at here

theorem ValueFailure.differs (p : PartyId) : ValueFailure path cs (.inconsistency path p) := by
  have here : ValueFailure path cs (.inconsistency (path.extend []) p) := .inconsistency [] p
  rwa [Path.extend_nil] at here

theorem ValueFailure.corrupted (p : Option PartyId) :
    ValueFailure path cs (.corruption path p) := by
  have here : ValueFailure path cs (.corruption (path.extend []) p) := .corruption [] p
  rwa [Path.extend_nil] at here

theorem ValueFailure.chunk {blobs : List (PartyId × BlobShares)}
    (same : cs = formed (fun b => .secretLeaf (.blob b)) blobs) (source : FieldError) :
    ValueFailure path cs (.encoding path source) := by
  have here : ValueFailure path cs (.encoding (path.extend []) source) := by
    refine .encoding [] source fun c member => ?_
    rw [same] at member
    obtain ⟨b, -, form⟩ := mem_formed.mp member
    exact ⟨b, congrArg some form⟩
  rwa [Path.extend_nil] at here

theorem failsOnly_checkKinds {expected : ValueType} {others : List Contribution} :
    FailsOnly (ValueFailure path cs) (checkKinds path expected others) :=
  .eachContribution fun c _ => .ite_error (fun _ => .ok ()) fun _ => .mismatch c.1 _ _

namespace Masker

variable {m : Masker} {visit : VisitOrder}

theorem failsOnly_checkPublic {leaf : PublicLeaf} {others : List Contribution} :
    FailsOnly (ValueFailure path cs) (checkPublic path leaf others) :=
  .eachContribution fun c _ => .ite_error (fun _ => .ok ()) fun _ => .differs c.1

section Arrays

variable {P : UnmaskError → Prop} {p : PartyId} {inner : ValueType}

/-- Elements of an array fail to be accepted only as a mismatch of the party that holds it. -/
theorem failsOnly_checkElements
    (mismatch : ∀ expected found, P (.typeMismatch path p expected found))
    {elements : List MaskedValue} : FailsOnly P (checkElements path p inner elements) := by
  unfold checkElements
  split
  · exact .error (mismatch _ _)
  · exact .ok ()

theorem failsOnly_checkColumn
    (mismatch : ∀ expected found, P (.typeMismatch path p expected found))
    {length : Nat} {v : MaskedValue} : FailsOnly P (checkColumn path inner length p v) := by
  cases v with
  | array declared elements =>
    exact .ite_error (fun _ => failsOnly_checkElements mismatch) fun _ => mismatch _ _
  | _ => exact .error (mismatch _ _)

end Arrays

/-! ## Failures of secret leaves -/

/-- Shares of enough parties fail to give a secret only by being corrupted. -/
theorem failsOnly_reconstructAt (fits : m.RosterFits) (kind : ScalarKind)
    {shares : List (PartyId × Nat)} (enough : m.Enough shares) {position : Nat} :
    FailsOnly (fun e => ∃ p, e = .corruption path (some p))
      (m.reconstructAt visit path position (m.fieldOf kind) shares) := by
  let visited := visit.arrange path position (.ofList shares)
  have perm : visited.entries.Perm shares := by
    rw [← PartyShares.entries_ofList enough.nodup]
    exact visit.perm_arrange path position _
  have size : m.threshold ≤ visited.size := by
    have := enough.enough
    rwa [List.length_map, ← perm.length_eq] at this
  refine .mapError fun e failed => ?_
  have verdict := (m.sharer (m.fieldOf kind)).verdict_reconstruct visited
  rw [failed] at verdict
  cases verdict with
  | insufficient few => exact absurd size (not_le.mpr few)
  | @unsound entry _ first =>
    have member : entry ∈ shares := perm.mem_iff.mp (List.mem_of_find?_eq_some first)
    have onRoster : entry.1 ∈ (m.sharer (m.fieldOf kind)).roster.parties :=
      enough.mem _ (List.mem_map_of_mem member)
    refine ⟨entry.1, ?_⟩
    rw [Sharer.fault, if_pos onRoster]
    rfl
  | colliding _ _ collide =>
    have apart := Sharer.nodup_abscissas_pointsOf (s := m.sharer (m.fieldOf kind)) (fits kind)
      visited
    exact absurd (((List.take_sublist _ _).map _).nodup apart) collide
  | @corrupted g pt => exact ⟨pt.1, rfl⟩

/-- No field in use has more elements than there are keys. -/
theorem modulus_le_keys (m : Masker) (kind : ScalarKind) :
    (m.fieldOf kind).modulus ≤ 1 <<< (8 * keySize) := by
  rcases m.fieldOf_cases kind with same | same | same
  · rw [same]
    cases m.prime <;> decide
  · rw [same]
    decide
  · rw [same]
    decide

theorem failsOnly_decodeKeyAt {kind : ScalarKind} {secret : Nat}
    (residue : secret < (m.fieldOf kind).modulus) :
    FailsOnly (fun e => e = .corruption path none)
      (decodeKeyAt path (m.fieldOf kind) secret) := by
  have small : secret < 1 <<< (8 * keySize) := lt_of_lt_of_le residue (m.modulus_le_keys kind)
  unfold decodeKeyAt PrimeField.decodeKey
  rw [if_pos small]
  by_cases zero : secret = 0
  · rw [if_pos zero]
    exact .error rfl
  · rw [if_neg zero]
    exact .ok _

/-- A scalar fails to be decoded only as no boolean, or as no key. -/
theorem failsOnly_decodeScalarAt_of_key {P : UnmaskError → Prop} {F : PrimeField}
    {kind : ScalarKind} {secret : Nat} (corrupted : P (.corruption path none))
    (key : FailsOnly P (decodeKeyAt path F secret)) :
    FailsOnly P (decodeScalarAt path F kind secret) := by
  cases kind with
  | integer => exact .ok _
  | unsignedInteger => exact .ok _
  | boolean =>
    unfold decodeScalarAt
    dsimp only
    split
    · exact .ok _
    · exact .error corrupted
  | ecdsaPrivateKey => exact key.map
  | eddsaPrivateKey => exact key.map

/-- A residue fails to be decoded only if it stands for nothing. -/
theorem failsOnly_decodeScalarAt {kind : ScalarKind} {secret : Nat}
    (residue : secret < (m.fieldOf kind).modulus) :
    FailsOnly (fun e => e = .corruption path none)
      (decodeScalarAt path (m.fieldOf kind) kind secret) :=
  failsOnly_decodeScalarAt_of_key rfl (failsOnly_decodeKeyAt residue)

theorem failsOnly_unmaskScalar (fits : m.RosterFits) {kind : ScalarKind}
    {shares : List (PartyId × Nat)} (enough : m.Enough shares) :
    FailsOnly (ValueFailure path cs) (m.unmaskScalar visit path kind shares) := by
  refine .bind ((failsOnly_reconstructAt fits kind enough).mono ?_) ?_
  · rintro _ ⟨p, rfl⟩
    exact .corrupted (some p)
  · intro secret reconstructed
    have residue := ((reconstructAt_eq_ok fits kind enough).mp reconstructed).lt
    refine (failsOnly_decodeScalarAt residue).mono ?_
    rintro _ rfl
    exact .corrupted none

theorem failsOnly_unmaskChunk (fits : m.RosterFits) {total i : Nat}
    {blobs : List (PartyId × BlobShares)} (enough : m.Enough blobs)
    (same : cs = formed (fun b => .secretLeaf (.blob b)) blobs)
    (whole : ∀ c ∈ blobs, i < c.2.chunks.length) :
    FailsOnly (ValueFailure path cs) (m.unmaskChunk visit path total blobs i) := by
  have parts : m.Enough (partsOf (·.chunks[i]?) blobs) := enough.partsOf fun c member =>
    Option.isSome_iff_exists.mpr ⟨_, List.getElem?_eq_getElem (whole c member)⟩
  refine .bind ((failsOnly_reconstructAt fits .integer parts).mono ?_) ?_
  · rintro _ ⟨p, rfl⟩
    exact .corrupted (some p)
  · intro secret _
    exact .mapError fun source _ => .chunk same source

theorem failsOnly_unmaskBlob (fits : m.RosterFits) {p : PartyId} {first : BlobShares}
    {others : List (PartyId × BlobShares)} (enough : m.Enough ((p, first) :: others))
    (same : cs = formed (fun b => .secretLeaf (.blob b)) ((p, first) :: others)) :
    FailsOnly (ValueFailure path cs) (m.unmaskBlob visit path p first others) := by
  unfold unmaskBlob
  dsimp only
  by_cases count : first.chunks.length = Bytes.chunkCount first.byteLength m.chunkSize
  · rw [if_neg (not_not.mpr count)]
    refine .bind (.eachContribution fun c _ => ?_) fun _ agree => ?_
    · exact .ite_error (fun _ => .ok ()) fun _ => .mismatch c.1 _ _
    have whole := length_chunks_of_agree p count agree
    refine .bind (.mapM fun i inside => ?_) fun chunks _ => .ok _
    exact failsOnly_unmaskChunk fits enough same fun c member =>
      (whole c member).symm ▸ List.mem_range.mp inside
  · rw [if_pos count]
    exact .error (.mismatch p _ _)

/-! ## Failures of values -/

/-- What fails in the part that a step leads to, fails in the value. -/
theorem failsOnly_of_part {α : Type} {s : PathStep} {row : List Contribution}
    (whole : ∀ c ∈ cs, (c.2.child? s).isSome) (same : partsOf (·.child? s) cs = row)
    {x : Except UnmaskError α} (h : FailsOnly (ValueFailure (path.step s) row) x) :
    FailsOnly (ValueFailure path cs) x := by
  subst same
  exact h.mono fun _ => ValueFailure.of_part whole

theorem failsOnly_unmaskValue_scalar (fits : m.RosterFits) {p : PartyId} {kind : ScalarKind}
    {y : Nat} {others : List Contribution}
    (enough : m.Enough ((p, .secretLeaf (.scalar kind y)) :: others)) :
    FailsOnly (ValueFailure path cs)
      (m.unmaskValue visit path p (.secretLeaf (.scalar kind y)) others) := by
  let form (y : Nat) : MaskedValue := .secretLeaf (.scalar kind y)
  rw [unmaskValue]
  refine .bind failsOnly_checkKinds ?_
  intro _ checked
  obtain ⟨shares, rfl⟩ := checkKinds_scalar_eq_ok.mp checked
  have all : m.Enough (formed form ((p, y) :: shares)) := enough
  rw [partsOf_scalars]
  exact .bind (failsOnly_unmaskScalar fits all.of_formed) fun _ _ => .ok _

theorem failsOnly_unmaskValue_blob (fits : m.RosterFits) {p : PartyId} {blob : BlobShares}
    {others : List Contribution} (enough : m.Enough ((p, .secretLeaf (.blob blob)) :: others)) :
    FailsOnly (ValueFailure path ((p, .secretLeaf (.blob blob)) :: others))
      (m.unmaskValue visit path p (.secretLeaf (.blob blob)) others) := by
  let form (b : BlobShares) : MaskedValue := .secretLeaf (.blob b)
  rw [unmaskValue]
  refine .bind failsOnly_checkKinds ?_
  intro _ checked
  obtain ⟨blobs, rfl⟩ := checkKinds_blob_eq_ok.mp checked
  have all : m.Enough (formed form ((p, blob) :: blobs)) := enough
  rw [partsOf_blobs]
  exact .bind (failsOnly_unmaskBlob fits all.of_formed rfl) fun _ _ => .ok _

/-- What fails in a row of arrays, fails in them. -/
theorem failsOnly_of_row {inner : ValueType} {i : Nat} {α : Type}
    {columns : List (PartyId × List MaskedValue)} (long : ∀ c ∈ columns, i < c.2.length)
    {x : Except UnmaskError α}
    (h : FailsOnly (ValueFailure (path.index i) (partsOf (fun column => column[i]?) columns)) x) :
    FailsOnly (ValueFailure path (formed (.array inner) columns)) x := by
  refine failsOnly_of_part ?_ (partsOf_comp (ValueTree.array inner) (·.child? (.index i)) columns) h
  intro c member
  obtain ⟨column, there, same⟩ := mem_formed.mp member
  have inside : i < column.length := long _ there
  rw [same]
  show (column[i]?).isSome
  simp [inside]

/-- What fails on one side of tuples, fails in them. -/
theorem failsOnly_of_side {α : Type} {s : PathStep} {side : MaskedValue × MaskedValue → MaskedValue}
    (leads : ∀ sides : MaskedValue × MaskedValue,
      (ValueTree.tuple sides.1 sides.2).child? s = some (side sides))
    {sides : List (PartyId × MaskedValue × MaskedValue)} {x : Except UnmaskError α}
    (h : FailsOnly (ValueFailure (path.step s) (formed side sides)) x) :
    FailsOnly (ValueFailure path (formed (fun s => .tuple s.1 s.2) sides)) x := by
  refine failsOnly_of_part ?_ (partsOf_formed leads sides) h
  intro c member
  obtain ⟨both, -, same⟩ := mem_formed.mp member
  rw [same, leads]
  rfl

theorem failsOnly_unmaskValue_array {p : PartyId} {inner : ValueType} {elements : List MaskedValue}
    (each : ∀ e ∈ elements, ∀ {path others}, m.Enough ((p, e) :: others) →
      FailsOnly (ValueFailure path ((p, e) :: others)) (m.unmaskValue visit path p e others))
    {others : List Contribution} (enough : m.Enough ((p, .array inner elements) :: others)) :
    FailsOnly (ValueFailure path ((p, .array inner elements) :: others))
      (m.unmaskValue visit path p (.array inner elements) others) := by
  let form (elements : List MaskedValue) : MaskedValue := .array inner elements
  rw [unmaskValue]
  refine .bind failsOnly_checkKinds fun _ _ => ?_
  refine .bind (failsOnly_checkElements (.mismatch p)) fun _ _ => ?_
  refine .bind (.eachContribution fun c _ => failsOnly_checkColumn (.mismatch c.1)) ?_
  intro _ checked
  obtain ⟨columns, rfl, shape⟩ := checkColumns_eq_ok.mp checked
  have all : m.Enough (formed form ((p, elements) :: columns)) := enough
  rw [partsOf_columns, unmaskElements_eq_mapM]
  refine .bind (.mapM fun i _ => ?_) fun _ _ => .ok _
  -- every contribution has an element at the index, and these make up the row
  have long : ∀ c ∈ (p, elements) :: columns, i.val < c.2.length := by
    rw [List.forall_mem_cons]
    exact ⟨i.isLt, fun c member => (shape c member).1.symm ▸ i.isLt⟩
  have row : partsOf (fun column => column[i.val]?) ((p, elements) :: columns) =
      (p, elements[i]) :: partsOf (fun column => column[i.val]?) columns :=
    partsOf_cons_some (a := elements) (List.getElem?_eq_getElem i.isLt) columns
  have rowEnough : m.Enough (partsOf (fun column => column[i.val]?) ((p, elements) :: columns)) :=
    all.of_formed.partsOf fun c member => by simp [long c member]
  rw [row] at rowEnough
  have failsRow : FailsOnly (ValueFailure (path.index i) _)
      (m.unmaskValue visit (path.index i) p elements[i] _) :=
    each elements[i] (List.getElem_mem i.isLt) rowEnough
  rw [← row] at failsRow
  rw [Nat.zero_add]
  exact failsOnly_of_row long failsRow

theorem failsOnly_unmaskValue_tuple {p : PartyId} {left right : MaskedValue}
    (onLeft : ∀ {path others}, m.Enough ((p, left) :: others) →
      FailsOnly (ValueFailure path ((p, left) :: others)) (m.unmaskValue visit path p left others))
    (onRight : ∀ {path others}, m.Enough ((p, right) :: others) →
      FailsOnly (ValueFailure path ((p, right) :: others))
        (m.unmaskValue visit path p right others))
    {others : List Contribution} (enough : m.Enough ((p, .tuple left right) :: others)) :
    FailsOnly (ValueFailure path ((p, .tuple left right) :: others))
      (m.unmaskValue visit path p (.tuple left right) others) := by
  let form (s : MaskedValue × MaskedValue) : MaskedValue := .tuple s.1 s.2
  rw [unmaskValue]
  refine .bind failsOnly_checkKinds ?_
  intro _ checked
  obtain ⟨sides, rfl⟩ := checkKinds_tuple_eq_ok.mp checked
  have all : m.Enough (formed form ((p, left, right) :: sides)) := enough
  have onFst : m.Enough (formed Prod.fst ((p, left, right) :: sides)) := all.of_formed.formed
  have onSnd : m.Enough (formed Prod.snd ((p, left, right) :: sides)) := all.of_formed.formed
  have failsLeft : FailsOnly (ValueFailure path.left (formed Prod.fst ((p, left, right) :: sides)))
      (m.unmaskValue visit path.left p left (formed Prod.fst sides)) := onLeft onFst
  have failsRight :
      FailsOnly (ValueFailure path.right (formed Prod.snd ((p, left, right) :: sides)))
        (m.unmaskValue visit path.right p right (formed Prod.snd sides)) := onRight onSnd
  rw [partsOf_lefts, partsOf_rights]
  show FailsOnly (ValueFailure path (formed form ((p, left, right) :: sides))) _
  refine .bind (failsOnly_of_side (fun _ => rfl) failsLeft) fun _ _ => ?_
  exact .bind (failsOnly_of_side (fun _ => rfl) failsRight) fun _ _ => .ok _

/-- **Failures of a value.** What enough parties contribute to a value fails to be unmasked only in
these ways. -/
theorem failsOnly_unmaskValue (fits : m.RosterFits) {first : MaskedValue} :
    ∀ {path p others}, m.Enough ((p, first) :: others) →
      FailsOnly (ValueFailure path ((p, first) :: others))
        (m.unmaskValue visit path p first others) := by
  induction first using ValueTree.induction with
  | publicLeaf leaf =>
    intro path p others _
    rw [unmaskValue]
    exact .bind failsOnly_checkKinds fun _ _ => .bind failsOnly_checkPublic fun _ _ => .ok _
  | secretLeaf share =>
    intro path p others enough
    cases share with
    | scalar kind y => exact failsOnly_unmaskValue_scalar fits enough
    | blob blob => exact failsOnly_unmaskValue_blob fits enough
  | array inner elements each =>
    intro path p others enough
    exact failsOnly_unmaskValue_array (fun e member => each e member) enough
  | tuple left right onLeft onRight =>
    intro path p others enough
    exact failsOnly_unmaskValue_tuple onLeft onRight enough

/-! ## Failures of jars -/

/-- The failures of unmasking a jar that the masker has built. -/
inductive Reported (m : Masker) (jar : BundleJar) : UnmaskError → Prop
  | insufficientShares (few : jar.size < m.threshold) :
      Reported m jar (.insufficientShares none jar.size m.threshold)
  /-- Everybody has to contribute, and the party has not. -/
  | missingParty {p : PartyId} (full : m.options.requireFullRoster = true)
      (missing : p ∈ jar.missing) : Reported m jar (.missingParty none p)
  /-- The party's bundle lacks a name that another one has. -/
  | missingName {name : String} {p : PartyId} {bundle : Bundle}
      (held : (p, bundle) ∈ jar.elements) (lacks : name ∉ bundle.names)
      (carried : ∃ e ∈ jar.elements, name ∈ e.2.names) :
      Reported m jar (.missingParty (some name) p)
  | typeMismatch (path : Path) (p : PartyId) (expected found : MaskedForm) :
      Reported m jar (.typeMismatch path p expected found)
  | inconsistency (path : Path) (p : PartyId) : Reported m jar (.inconsistency path p)
  | corruption (path : Path) (p : Option PartyId) : Reported m jar (.corruption path p)
  /-- The path leads to a blob in every bundle. -/
  | encoding (path : Path) (source : FieldError)
      (blobs : ∀ e ∈ jar.elements, ∃ v b, e.2.get? path.name = some v ∧
        v.follow? path.steps = some (.secretLeaf (.blob b))) :
      Reported m jar (.encoding path source)

variable {jar : BundleJar}

theorem reported_of_valueFailure {name : String}
    (carried : ∀ e ∈ jar.elements, name ∈ e.2.names) {e : UnmaskError}
    (h : ValueFailure (Path.ofName name) (partsOf (·.get? name) jar.elements) e) :
    m.Reported jar e := by
  cases h with
  | typeMismatch steps p expected found => exact .typeMismatch _ p expected found
  | inconsistency steps p => exact .inconsistency _ p
  | corruption steps p => exact .corruption _ p
  | encoding steps source blobs =>
    refine .encoding _ source fun e member => ?_
    obtain ⟨v, found⟩ := NamedValues.exists_get?.mpr (carried e member)
    obtain ⟨b, leads⟩ := blobs (e.1, v) (mem_partsOf.mpr ⟨e.2, member, found⟩)
    exact ⟨v, b, found, leads⟩

/-- Bundles fail to carry the same names only for a name that one has and the other lacks. -/
theorem failsOnly_checkNames {P : UnmaskError → Prop} {p q : PartyId} {first bundle : Bundle}
    (lacks : ∀ name ∈ first.names, name ∉ bundle.names → P (.missingParty (some name) q))
    (adds : ∀ name ∈ bundle.names, name ∉ first.names → P (.missingParty (some name) p)) :
    FailsOnly P (checkNames p first q bundle) := by
  have absent {name : String} {a b : Bundle}
      (found : a.names.find? (!b.contains ·) = some name) : name ∈ a.names ∧ name ∉ b.names := by
    refine ⟨List.mem_of_find?_eq_some found, ?_⟩
    have lacks := List.find?_some found
    rw [← NamedValues.contains_iff]
    simpa using lacks
  unfold checkNames
  split
  · rename_i name found
    exact .error (lacks name (absent found).1 (absent found).2)
  · split
    · rename_i name found
      exact .error (adds name (absent found).1 (absent found).2)
    · exact .ok ()

theorem failsOnly_unmaskBundles (fits : m.RosterFits) {p : PartyId} {first : Bundle}
    {others : List (PartyId × Bundle)} (elements : jar.elements = (p, first) :: others)
    (enough : m.Enough ((p, first) :: others)) :
    FailsOnly (m.Reported jar) (m.unmaskBundles visit p first others) := by
  refine .bind (.eachContribution fun c member => ?_) fun _ checked => ?_
  · have heldFirst : (p, first) ∈ jar.elements := elements ▸ List.mem_cons_self
    have held : c ∈ jar.elements := elements ▸ List.mem_cons_of_mem _ member
    exact failsOnly_checkNames
      (fun name here lacks => .missingName held lacks ⟨_, heldFirst, here⟩)
      (fun name here lacks => .missingName heldFirst lacks ⟨_, held, here⟩)
  · have sameNames := eachContribution_eq_ok.mp checked
    refine .bind (.mapM fun e member => .bind ?_ fun _ _ => .ok _) fun _ _ => .ok _
    have named : e.1 ∈ first.names := List.mem_map_of_mem member
    have carried : ∀ c ∈ (p, first) :: others, e.1 ∈ c.2.names := by
      rw [List.forall_mem_cons]
      exact ⟨named, fun c there => (checkNames_eq_ok.mp (sameNames c there) e.1).mpr named⟩
    have found : first.get? e.1 = some e.2 := NamedValues.mem_toList_iff.mp member
    have parts : partsOf (·.get? e.1) ((p, first) :: others) =
        (p, e.2) :: partsOf (·.get? e.1) others := partsOf_cons_some (a := first) found others
    have contributors := enough.named carried
    rw [parts] at contributors
    refine (failsOnly_unmaskValue fits contributors).mono fun _ failure => ?_
    rw [← parts, ← elements] at failure
    exact reported_of_valueFailure (elements ▸ carried) failure

theorem failsOnly_unmask (fits : m.RosterFits) (roster : jar.roster = m.roster)
    (binding : jar.binding = m.fingerprint) :
    FailsOnly (m.Reported jar) (m.unmask jar visit) := by
  unfold unmask
  rw [if_neg (by simp [roster, binding])]
  by_cases few : jar.size < m.threshold
  · rw [if_pos few]
    exact .error (.insufficientShares few)
  · rw [if_neg few]
    have enough := enough_elements roster (not_lt.mp few)
    cases absent : m.absent? jar with
    | some p =>
      unfold absent? at absent
      split at absent
      · exact .error (.missingParty ‹_› (List.mem_of_head? absent))
      · cases absent
    | none =>
      cases elements : jar.elements with
      | nil =>
        rw [elements] at enough
        obtain ⟨_, member⟩ := enough.exists_mem
        cases member
      | cons first others =>
        rw [elements] at enough
        exact failsOnly_unmaskBundles fits elements enough

/-- **Safety.** Whatever was put into a jar of the masker and taken out again, unmasking it makes no
access out of range, and the failures it reports are the expected ones. -/
theorem unmask_safe (fits : m.RosterFits) {requests : List (PartyJar.Request Bundle)}
    (built : m.buildJar.afterAll requests = jar) :
    Guarded.unmask m jar = Guarded.answer (m.unmask jar) ∧
      Guarded.unmask m jar ≠ .error .outOfRange ∧
      ∀ e, m.unmask jar = .error e → m.Reported jar e := by
  have owner := m.buildJar.owner_afterAll requests
  rw [built] at owner
  have guarded := Guarded.unmask_eq_answer m jar .gathered
  refine ⟨guarded, ?_, failsOnly_unmask fits owner.1 owner.2⟩
  rw [guarded]
  exact Guarded.answer_ne_outOfRange _

/-- A blob of one byte whose chunk opens to 300, beside a public leaf. -/
def wideBundle : Bundle :=
  .ofList [("doc", .tuple (.secretLeaf (.blob ⟨[300], 1⟩)) (.publicLeaf (.boolean true)))]

/-- The requests of three parties and a stranger. -/
def wideRequests : List (PartyJar.Request Bundle) :=
  [.add ⟨[3]⟩ wideBundle, .add ⟨[9]⟩ wideBundle, .add ⟨[2]⟩ wideBundle, .add ⟨[1]⟩ wideBundle,
    .remove ⟨[2]⟩]

theorem wideRequests_safe : trio.RosterFits ∧ ∃ jar, trio.buildJar.afterAll wideRequests = jar ∧
    trio.unmask jar =
      .error (.encoding ⟨"doc", [.left]⟩ (.outOfRange 64 (.chunkOverflow 1))) ∧
    Guarded.unmask trio jar =
      .error (.failure (.encoding ⟨"doc", [.left]⟩ (.outOfRange 64 (.chunkOverflow 1)))) ∧
    trio.Reported jar (.encoding ⟨"doc", [.left]⟩ (.outOfRange 64 (.chunkOverflow 1))) := by
  have safe := unmask_safe rosterFits_trio (rfl : trio.buildJar.afterAll wideRequests = _)
  have failed : trio.unmask (trio.buildJar.afterAll wideRequests) =
      .error (.encoding ⟨"doc", [.left]⟩ (.outOfRange 64 (.chunkOverflow 1))) := by
    have opened : (trio.unmask (trio.buildJar.afterAll wideRequests)).map NamedValues.toList =
        .error (.encoding ⟨"doc", [.left]⟩ (.outOfRange 64 (.chunkOverflow 1))) := by
      decide +kernel
    exact map_eq_error.mp opened
  refine ⟨rosterFits_trio, _, rfl, failed, ?_, safe.2.2 _ failed⟩
  rw [safe.1, failed]
  rfl

end Masker
end ThresholdMask
