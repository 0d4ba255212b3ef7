import Mathlib
import ThresholdMask.Proofs.RoundTrip

/-!
# What is unmasked can be masked again

`Masker.Maskable` says of a value that its arrays hold, at every depth, elements of the declared
type and that every scalar in it has a place in the field in which it is shared. That is all that
masking asks for: a collection of maskable values is masked whatever is drawn
(`Masker.exists_mask`). And it is what unmasking establishes, although the jar may hold anything:
each check on the contributions says something about the value that they are coherent with
(`Masker.Coherent.maskable`). So what a masker unmasks it can mask and unmask again.
-/

namespace ThresholdMask

/-! ## Scalars in the range of a field -/

namespace SecretScalar

/-- The scalar has a place in the field: an integer of at most half of the field in magnitude, a
natural number below the modulus, or a key that is not zero and below the modulus. -/
def InRange (F : PrimeField) : SecretScalar → Prop
  | integer v => v.natAbs ≤ (F.modulus - 1) / 2
  | unsignedInteger v => v < F.modulus
  | boolean _ => True
  | ecdsaPrivateKey key | eddsaPrivateKey key =>
    Bytes.toNatBE key.val ≠ 0 ∧ Bytes.toNatBE key.val < F.modulus

variable {F : PrimeField} {v : SecretScalar}

/-- What a residue stands for has a place in the field. -/
theorem DecodedFrom.inRange {a : Nat} (h : v.DecodedFrom F a) (residue : a < F.modulus) :
    v.InRange F := by
  cases v with
  | integer v => exact h.1
  | unsignedInteger v =>
    show v < F.modulus
    rwa [show v = a from h]
  | boolean b => trivial
  | ecdsaPrivateKey key =>
    obtain ⟨nonzero, rfl⟩ := h
    exact ⟨nonzero, residue⟩
  | eddsaPrivateKey key =>
    obtain ⟨nonzero, rfl⟩ := h
    exact ⟨nonzero, residue⟩

theorem InRange.exists_encode (h : v.InRange F) : ∃ a, v.encode F = .ok a := by
  cases v with
  | integer v => exact ⟨_, error_ite_eq_ok.mpr ⟨not_lt.mpr h, rfl⟩⟩
  | unsignedInteger v => exact ⟨v, PrimeField.element_eq_ok.mpr ⟨h, rfl⟩⟩
  | boolean b => exact ⟨_, rfl⟩
  | ecdsaPrivateKey key => exact ⟨_, PrimeField.encodeKey_eq_ok.mpr ⟨h.2, h.1, rfl⟩⟩
  | eddsaPrivateKey key => exact ⟨_, PrimeField.encodeKey_eq_ok.mpr ⟨h.2, h.1, rfl⟩⟩

end SecretScalar

namespace Masker

variable {m : Masker}

/-! ## Maskable values -/

/-- At every depth the elements of arrays have the declared type, and every scalar has a place in
the field in which it is shared. -/
inductive Maskable (m : Masker) : Value → Prop
  | publicLeaf (leaf : PublicLeaf) : Maskable m (.publicLeaf leaf)
  | scalar (v : SecretScalar) (inRange : v.InRange (m.fieldOf v.kind)) :
      Maskable m (.secretLeaf (.scalar v))
  | blob (bytes : Bytes) : Maskable m (.secretLeaf (.blob bytes))
  | array (inner : ValueType) (elements : List Value) (types : ∀ v ∈ elements, v.type = inner)
      (each : ∀ v ∈ elements, Maskable m v) : Maskable m (.array inner elements)
  | tuple (left right : Value) (hl : Maskable m left) (hr : Maskable m right) :
      Maskable m (.tuple left right)

/-- The elements that columns are coherent with have the type of the entries of the columns. -/
theorem CoherentElements.maskable {inner : ValueType} {elements : List Value}
    (each : ∀ v ∈ elements, ∀ {cs}, m.Enough cs → m.Coherent v cs → m.Maskable v)
    {columns : List (PartyId × List MaskedValue)} (enough : m.Enough columns)
    (shape : ∀ c ∈ columns, c.2.length = elements.length ∧ ∀ e ∈ c.2, e.type = inner)
    (h : m.CoherentElements elements columns) :
    ∀ v ∈ elements, v.type = inner ∧ m.Maskable v := by
  induction elements generalizing columns with
  | nil => exact fun _ none => absurd none List.not_mem_nil
  | cons v rest ih =>
    rw [List.forall_mem_cons] at each
    rw [CoherentElements] at h
    have lengths : ∀ c ∈ columns, c.2.length = rest.length + 1 := fun c member => (shape c member).1
    have row := enough.partsOf (isSome_head?_of_length lengths)
    have tails : ∀ c ∈ formed List.tail columns, c.2.length = rest.length ∧
        ∀ e ∈ c.2, e.type = inner := by
      intro c member
      refine ⟨length_tail_of_length lengths c member, ?_⟩
      obtain ⟨column, there, same⟩ := mem_formed.mp member
      rw [same]
      exact fun e inTail => (shape _ there).2 e (List.mem_of_mem_tail inTail)
    have type : v.type = inner := by
      obtain ⟨c, member⟩ := row.exists_mem
      obtain ⟨column, there, first⟩ := mem_partsOf.mp member
      rw [← h.1.type_eq c member]
      exact (shape _ there).2 c.2 (List.mem_of_head? first)
    rw [List.forall_mem_cons]
    exact ⟨⟨type, each.1 row h.1⟩, ih each.2 enough.formed tails h.2⟩

/-- Values that the contributions of enough parties are coherent with are maskable. -/
theorem Coherent.maskable {v : Value} : ∀ {cs : List Contribution}, m.Enough cs →
    m.Coherent v cs → m.Maskable v := by
  induction v using ValueTree.induction with
  | publicLeaf leaf => exact fun _ _ => .publicLeaf leaf
  | secretLeaf secret =>
    intro cs enough h
    cases secret with
    | scalar v =>
      unfold Coherent at h
      obtain ⟨shares, secret, rfl, consistent, decoded⟩ := h
      exact .scalar v (decoded.inRange (Sharer.Consistent.lt consistent))
    | blob bytes => exact .blob bytes
  | array inner elements each =>
    intro cs enough h
    unfold Coherent at h
    obtain ⟨columns, rfl, shape, coherent⟩ := h
    have elements := coherent.maskable each enough.of_formed shape
    exact .array inner _ (fun v member => (elements v member).1)
      fun v member => (elements v member).2
  | tuple left right onLeft onRight =>
    intro cs enough h
    unfold Coherent at h
    obtain ⟨sides, rfl, hl, hr⟩ := h
    exact .tuple left right (onLeft enough.of_formed.formed hl) (onRight enough.of_formed.formed hr)

/-! ## Runs that cannot fail -/

variable {σ α β : Type}

/-- Every run of the computation has a result. -/
def Always (x : Masking σ α) : Prop := ∀ s, ∃ a s', x.run s = (.ok a, s')

theorem Always.pure (a : α) : Always (Pure.pure a : Masking σ α) := fun s =>
  ⟨a, s, run_pure_eq_ok.mpr ⟨rfl, rfl⟩⟩

theorem Always.bind {x : Masking σ α} {f : α → Masking σ β} (hx : Always x)
    (hf : ∀ a, Always (f a)) : Always (x >>= f) := by
  intro s
  obtain ⟨a, s₁, ranX⟩ := hx s
  obtain ⟨b, s', ranF⟩ := hf a s₁
  exact ⟨b, s', run_bind_eq_ok.mpr ⟨a, s₁, ranX, ranF⟩⟩

theorem Always.mapM {f : α → Masking σ β} {l : List α} (each : ∀ a ∈ l, Always (f a)) :
    Always (l.mapM f) := by
  induction l with
  | nil => exact .pure []
  | cons a rest ih =>
    rw [List.forall_mem_cons] at each
    rw [List.mapM_cons]
    exact each.1.bind fun b => (ih each.2).bind fun bs => .pure (b :: bs)

theorem always_dealElement {S : Sampler σ} {path : Path} {F : PrimeField}
    {encoded : Except FieldError Nat} (h : ∃ a, encoded = .ok a) :
    Always (m.dealElement S path F encoded) := by
  obtain ⟨a, rfl⟩ := h
  exact fun s => ⟨_, _, rfl⟩

theorem always_dealBlob {S : Sampler σ} {path : Path} (bytes : Bytes) :
    Always (m.dealSecret S path (.blob bytes)) := by
  refine Always.bind (.mapM fun chunk member => always_dealElement ?_) fun _ => .pure _
  exact ⟨_, m.field.encodeChunk_eq_ok m.prime_field.out.ne_zero
    (Bytes.length_le_of_mem_chunks member)⟩

theorem always_dealElements {S : Sampler σ} {path : Path} {inner : ValueType}
    {elements : List Value} (types : ∀ v ∈ elements, v.type = inner)
    (each : ∀ v ∈ elements, ∀ {path}, Always (m.dealValue S path v)) {start : Nat} :
    Always (m.dealElements S path inner start elements) := by
  induction elements generalizing start with
  | nil =>
    unfold dealElements
    exact .pure []
  | cons v rest ih =>
    rw [List.forall_mem_cons] at types each
    have first : Always (m.dealValue S (path.index start) v) := each.1
    have others : Always (m.dealElements S path inner (start + 1) rest) := ih types.2 each.2
    have dealt := first.bind fun d => others.bind fun ds => Always.pure (d :: ds)
    unfold dealElements
    dsimp only
    intro s
    obtain ⟨ds, s', ran⟩ := dealt s
    exact ⟨ds, s', run_throw_ite_eq_ok.mpr ⟨not_not.mpr types.1, ran⟩⟩

/-- A maskable value is dealt whatever is drawn. -/
theorem Maskable.always_dealValue {S : Sampler σ} {v : Value} (h : m.Maskable v) :
    ∀ {path}, Always (m.dealValue S path v) := by
  induction h with
  | publicLeaf leaf =>
    intro path
    rw [dealValue]
    exact .pure _
  | scalar v inRange =>
    intro path
    rw [dealValue]
    exact ((always_dealElement inRange.exists_encode).bind fun _ => .pure _).bind fun _ => .pure _
  | blob bytes =>
    intro path
    rw [dealValue]
    exact (always_dealBlob bytes).bind fun _ => .pure _
  | array inner elements types _ each =>
    intro path
    rw [dealValue]
    exact (always_dealElements types each).bind fun _ => .pure _
  | tuple left right _ _ onLeft onRight =>
    intro path
    rw [dealValue]
    exact onLeft.bind fun _ => onRight.bind fun _ => .pure _

/-! ## Masking again -/

variable {values : NamedValues Value} {bundles : List (PartyId × Bundle)}

/-- A collection of maskable values is masked by every run. -/
theorem exists_mask (maskable : ∀ name v, values.get? name = some v → m.Maskable v)
    (S : Sampler σ) (s : σ) : ∃ bundles s', (m.mask S values).run s = (.ok bundles, s') := by
  have dealt : Always (m.deal S values) := by
    refine .mapM fun e member => ?_
    have value := maskable e.1 e.2 (NamedValues.mem_toList_iff.mp member)
    exact value.always_dealValue.bind fun _ => .pure _
  exact dealt.bind (fun _ => .pure _) s

/-- The bundles of the whole roster fill a jar that opens. -/
theorem exists_jar_of_mask {S : Sampler σ} {s s' : σ}
    (masked : (m.mask S values).run s = (.ok bundles, s')) :
    ∃ jar, m.buildJar.addAll bundles = .ok jar ∧ m.Opens jar values := by
  have parties := map_fst_of_mask masked
  have onRoster : ∀ e ∈ bundles, e.1 ∈ m.roster.parties := fun e member =>
    parties ▸ List.mem_map_of_mem member
  obtain ⟨jar, added, roster, binding, holds⟩ :=
    PartyJar.exists_filled (parties ▸ m.roster.nodup) onRoster m.fingerprint
  have size : jar.size = m.roster.size := by
    rw [← jar.length_elements, holds.length_eq, Roster.size, ← parties, List.length_map]
  have enough : m.threshold ≤ jar.size := size ▸ m.degree_lt
  exact ⟨jar, added, opens_of_mask masked binding roster holds.subset enough fun _ => size⟩

/-- **Remasking.** Whatever the jar held, what is unmasked consists of maskable values, the masker
masks it again whatever is drawn, and unmasking that gives it back. -/
theorem mask_unmasked (fits : m.RosterFits) {jar : BundleJar}
    (opened : m.unmask jar = .ok values) :
    (∀ name v, values.get? name = some v → m.Maskable v) ∧
      ∀ {σ : Type} (S : Sampler σ) (s : σ), ∃ bundles s',
        (m.mask S values).run s = (.ok bundles, s') ∧
          ∃ again, m.buildJar.addAll bundles = .ok again ∧ m.unmask again = .ok values := by
  have opens := opens_of_unmask fits opened
  have maskable : ∀ name v, values.get? name = some v → m.Maskable v := by
    intro name v found
    have named : name ∈ values.names := NamedValues.exists_get?.mp ⟨v, found⟩
    have carried := (enough_elements opens.roster opens.enough).named fun e member =>
      (opens.sameNames e member name).mpr named
    exact (opens.coherent name v found).maskable carried
  refine ⟨maskable, ?_⟩
  intro σ S s
  obtain ⟨bundles, s', masked⟩ := exists_mask maskable S s
  obtain ⟨again, filled, opensAgain⟩ := exists_jar_of_mask masked
  exact ⟨bundles, s', masked, again, filled, opensAgain.unmask fits⟩

/-- A jar of the first and the last party's bundles. -/
def quorumJar : BundleJar where
  roster := trio.roster
  binding := trio.fingerprint
  slots := [some (trio.bundleAt 1 trioDealings), none, some (trio.bundleAt 3 trioDealings)]
  length_slots := rfl

theorem quorumJar_remasked : trio.RosterFits ∧
    (∀ name v, trioValues.get? name = some v → trio.Maskable v) ∧
      ∃ bundles s', (trio.mask Sampler.tape trioValues).run [9] = (.ok bundles, s') ∧
        ∃ again, trio.buildJar.addAll bundles = .ok again ∧ trio.unmask again = .ok trioValues := by
  have opened : trio.unmask quorumJar = .ok trioValues :=
    NamedValues.eq_ok_of_toList (by decide +kernel)
  have remasked := mask_unmasked rosterFits_trio opened
  exact ⟨rosterFits_trio, remasked.1, remasked.2 Sampler.tape [9]⟩

end Masker
end ThresholdMask
