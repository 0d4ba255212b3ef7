import Mathlib
import ThresholdMask.Proofs.Places
import ThresholdMask.Proofs.Remasking

/-!
# What masking refuses

Masking a collection fails exactly if some value in it is not maskable, and then it reports the
first offender in depth-first order (`Masker.mask_verdict`): the values as the collection has them,
in each a whole before its parts, the elements of an array by index, the left side of a tuple before
the right one. Nothing that is drawn has a part in this.

`Masker.offence?` says what is wrong at a place in a value, and a value is maskable if nothing is
wrong at any of its places (`Masker.maskable_iff`). Masking takes the places one after the other, so
it fails as a search through them does (`Masker.ends_mask`).
-/

namespace ThresholdMask

/-! ## Offences -/

/-- How a computation fails, if it does. -/
def failure? {ε α : Type} : Except ε α → Option ε
  | .ok _ => none
  | .error e => some e

theorem failure?_eq_none_iff {ε α σ : Type} {ran : Except ε α × σ} :
    failure? ran.1 = none ↔ ∃ a s', ran = (.ok a, s') := by
  rcases ran with ⟨e | a, s'⟩ <;> simp [failure?]

theorem failure?_eq_some_iff {ε α σ : Type} {ran : Except ε α × σ} {e : ε} :
    failure? ran.1 = some e ↔ ∃ s', ran = (.error e, s') := by
  rcases ran with ⟨e' | a, s'⟩ <;> simp [failure?]

namespace SecretScalar

/-- What keeps a key from having a place in the field: its size before all. -/
def keyFault? (F : PrimeField) (key : FixedBytes keySize) : Option RangeFault :=
  if F.modulus ≤ Bytes.toNatBE key.val then some .notBelowModulus
  else if Bytes.toNatBE key.val = 0 then some .zeroScalar
  else none

/-- What keeps a scalar from having a place in the field. -/
def fault? (F : PrimeField) : SecretScalar → Option RangeFault
  | integer v => if v.natAbs ≤ (F.modulus - 1) / 2 then none else some (.magnitude v)
  | unsignedInteger v => if v < F.modulus then none else some .notBelowModulus
  | boolean _ => none
  | ecdsaPrivateKey key | eddsaPrivateKey key => keyFault? F key

variable {F : PrimeField} {v : SecretScalar}

theorem keyFault?_eq_none_iff (key : FixedBytes keySize) :
    keyFault? F key = none ↔
      Bytes.toNatBE key.val ≠ 0 ∧ Bytes.toNatBE key.val < F.modulus := by
  unfold keyFault?
  split_ifs with wide zero
  · simp [not_lt.mpr wide]
  · simp [zero]
  · simp [zero, not_le.mp wide]

theorem failure?_encodeKey (F : PrimeField) (key : FixedBytes keySize) :
    failure? (F.encodeKey key) = (keyFault? F key).map F.outOfRange := by
  unfold PrimeField.encodeKey PrimeField.element keyFault?
  by_cases below : Bytes.toNatBE key.val < F.modulus
  · rw [if_pos below, if_neg (not_le.mpr below)]
    show failure? (if Bytes.toNatBE key.val = 0 then _ else _) = _
    by_cases zero : Bytes.toNatBE key.val = 0
    · rw [if_pos zero, if_pos zero]
      rfl
    · rw [if_neg zero, if_neg zero]
      rfl
  · rw [if_neg below, if_pos (not_lt.mp below)]
    rfl

theorem fault?_eq_none_iff : v.fault? F = none ↔ v.InRange F := by
  cases v with
  | integer v => simp [fault?, InRange]
  | unsignedInteger v => simp [fault?, InRange]
  | boolean b => simp [fault?, InRange]
  | ecdsaPrivateKey key => exact keyFault?_eq_none_iff key
  | eddsaPrivateKey key => exact keyFault?_eq_none_iff key

/-- Encoding a scalar fails as its fault says. -/
theorem failure?_encode (F : PrimeField) (v : SecretScalar) :
    failure? (v.encode F) = (v.fault? F).map F.outOfRange := by
  cases v with
  | integer v =>
    show failure? (F.encodeSigned v) = Option.map F.outOfRange
      (if v.natAbs ≤ (F.modulus - 1) / 2 then none else some (.magnitude v))
    unfold PrimeField.encodeSigned PrimeField.half
    by_cases fits : v.natAbs ≤ (F.modulus - 1) / 2
    · rw [if_neg (not_lt.mpr fits), if_pos fits]
      rfl
    · rw [if_pos (not_le.mp fits), if_neg fits]
      rfl
  | unsignedInteger v =>
    show failure? (F.element v) = Option.map F.outOfRange
      (if v < F.modulus then none else some .notBelowModulus)
    unfold PrimeField.element
    by_cases below : v < F.modulus
    · rw [if_pos below, if_pos below]
      rfl
    · rw [if_neg below, if_neg below]
      rfl
  | boolean b => rfl
  | ecdsaPrivateKey key => exact failure?_encodeKey F key
  | eddsaPrivateKey key => exact failure?_encodeKey F key

end SecretScalar

/-- The type of the place is not the one that is declared of it. -/
def Place.mismatch? {σ : Type} [SecretLeaf σ] (p : Place σ) : Option ValueError :=
  match p.declared with
  | some (i, inner) =>
    if p.part.type = inner then none else some (.arrayTypeMismatch i inner p.part.type)
  | none => none

namespace Masker

variable {m : Masker}

/-- A scalar has no place in the field in which it is shared. -/
def misfit? (m : Masker) : Value → Option FieldError
  | .secretLeaf (.scalar v) => (v.fault? (m.fieldOf v.kind)).map (m.fieldOf v.kind).outOfRange
  | _ => none

/-- What is wrong at a place in the value at a path, its type first. -/
def offence? (m : Masker) (root : Path) (p : Place Secret) : Option MaskError :=
  (p.mismatch?.map (.invalidValue (root.extend p.steps))).or
    ((m.misfit? p.part).map (.encoding (root.extend p.steps)))

theorem offence?_under (root : Path) (s : PathStep) (p : Place Secret) :
    m.offence? root (p.under s) = m.offence? (root.step s) p := by
  unfold offence?
  rw [Path.extend_step]
  rfl

/-- The first offence in a value is its own, or else the first one inside of it. -/
theorem findSome?_places (root : Path) (v : Value) :
    v.places.findSome? (m.offence? root) =
      ((m.misfit? v).map (.encoding root)).or (v.innerPlaces.findSome? (m.offence? root)) := by
  have head : m.offence? root ⟨[], none, v⟩ = (m.misfit? v).map (.encoding root) := by
    unfold offence?
    rw [Path.extend_nil]
    rfl
  rw [ValueTree.places, ValueTree.placesAs, List.findSome?_cons, head]
  cases (m.misfit? v).map (MaskError.encoding root) <;> rfl

/-- A declared type can only be at fault at the place of the value itself. -/
theorem findSome?_placesAs (root : Path) (declared : Option (Nat × ValueType)) (v : Value) :
    (v.placesAs declared).findSome? (m.offence? root) =
      ((Place.mismatch? ⟨[], declared, v⟩).map (.invalidValue root)).or
        (v.places.findSome? (m.offence? root)) := by
  have head : m.offence? root ⟨[], declared, v⟩ =
      ((Place.mismatch? ⟨[], declared, v⟩).map (.invalidValue root)).or
        (m.offence? root ⟨[], none, v⟩) := by
    unfold offence?
    rw [Path.extend_nil]
    rfl
  rw [ValueTree.places, ValueTree.placesAs, ValueTree.placesAs, List.findSome?_cons,
    List.findSome?_cons, head]
  cases Place.mismatch? ⟨[], declared, v⟩ <;> rfl

/-- The first offence under a step is the first one in what the step leads to. -/
theorem findSome?_map_under (root : Path) (s : PathStep) (places : List (Place Secret)) :
    (places.map (.under s)).findSome? (m.offence? root) =
      places.findSome? (m.offence? (root.step s)) := by
  rw [List.findSome?_map]
  congr 1
  funext p
  exact offence?_under root s p

theorem maskable_iff_parts {v : Value} :
    m.Maskable v ↔ m.misfit? v = none ∧ ∀ s part, v.child? s = some part →
      Place.mismatch? ⟨[], v.declares? s, part⟩ = none ∧ m.Maskable part := by
  cases v with
  | publicLeaf leaf =>
    refine iff_of_true (.publicLeaf leaf) ⟨rfl, fun s part found => ?_⟩
    cases s <;> cases found
  | secretLeaf secret =>
    have partless : ∀ s part, (ValueTree.secretLeaf secret).child? s = some part →
        Place.mismatch? ⟨[], (ValueTree.secretLeaf secret).declares? s, part⟩ = none ∧
          m.Maskable part := fun s part found => by cases s <;> cases found
    cases secret with
    | scalar v =>
      rw [misfit?, Option.map_eq_none_iff, SecretScalar.fault?_eq_none_iff]
      constructor
      · rintro (_ | ⟨_, inRange⟩)
        exact ⟨inRange, partless⟩
      · exact fun h => .scalar v h.1
    | blob bytes => exact iff_of_true (.blob bytes) ⟨rfl, partless⟩
  | array inner elements =>
    constructor
    · rintro (_ | _ | _ | ⟨_, _, types, each⟩)
      refine ⟨rfl, fun s part found => ?_⟩
      cases s with
      | index i =>
        have member : part ∈ elements := List.mem_of_getElem? found
        exact ⟨if_pos (types part member), each part member⟩
      | left => cases found
      | right => cases found
    · rintro ⟨-, each⟩
      refine .array inner elements (fun part member => ?_) fun part member => ?_
      · obtain ⟨i, found⟩ := List.getElem?_of_mem member
        by_contra other
        cases (if_neg other).symm.trans (each (.index i) part found).1
      · obtain ⟨i, found⟩ := List.getElem?_of_mem member
        exact (each (.index i) part found).2
  | tuple left right =>
    constructor
    · rintro (_ | _ | _ | _ | ⟨_, _, hl, hr⟩)
      refine ⟨rfl, fun s part found => ?_⟩
      cases s with
      | index i => cases found
      | left => exact ⟨rfl, Option.some.inj found ▸ hl⟩
      | right => exact ⟨rfl, Option.some.inj found ▸ hr⟩
    · rintro ⟨-, each⟩
      exact .tuple left right (each .left left rfl).2 (each .right right rfl).2

/-- A value is maskable if there is no offence in it. -/
theorem maskable_iff {v : Value} : ∀ {root : Path},
    m.Maskable v ↔ v.places.findSome? (m.offence? root) = none := by
  induction v using ValueTree.induction_child with
  | whole v ih =>
    intro root
    rw [maskable_iff_parts, ValueTree.places, ValueTree.placesAs, List.findSome?_eq_none_iff,
      List.forall_mem_cons]
    refine and_congr ?_ ⟨fun each place member => ?_, fun each s part found => ?_⟩
    · show _ ↔ (m.misfit? v).map _ = none
      rw [Option.map_eq_none_iff]
    · obtain ⟨s, part, below, found, there, rfl⟩ := ValueTree.mem_innerPlaces.mp member
      obtain ⟨typed, maskable⟩ := each s part found
      have none : (part.placesAs (v.declares? s)).findSome? (m.offence? (root.step s)) = none := by
        rw [findSome?_placesAs, typed, (ih s part found).mp maskable]
        rfl
      rw [offence?_under]
      exact List.findSome?_eq_none_iff.mp none below there
    · have none : (part.placesAs (v.declares? s)).findSome? (m.offence? (root.step s)) = none := by
        rw [List.findSome?_eq_none_iff]
        intro below there
        rw [← offence?_under]
        exact each _ (ValueTree.mem_innerPlaces.mpr ⟨s, part, below, found, there, rfl⟩)
      rw [findSome?_placesAs, Option.or_eq_none_iff, Option.map_eq_none_iff] at none
      exact ⟨none.1, (ih s part found).mpr none.2⟩

/-! ## Runs -/

variable {σ α β : Type}

/-- Every run of the computation fails in this way, or none does. -/
def Ends (x : Masking σ α) (failure : Option MaskError) : Prop :=
  ∀ s, failure? (x.run s).1 = failure

theorem Always.ends {x : Masking σ α} (h : Always x) : Ends x none := by
  intro s
  obtain ⟨a, s', ran⟩ := h s
  rw [ran]
  rfl

theorem Ends.pure (a : α) : Ends (Pure.pure a : Masking σ α) none := fun _ => rfl

theorem Ends.bind {x : Masking σ α} {f : α → Masking σ β} {first second : Option MaskError}
    (hx : Ends x first) (hf : ∀ a, Ends (f a) second) : Ends (x >>= f) (first.or second) := by
  intro s
  rw [← hx s]
  rcases ran : x.run s with ⟨e | a, s₁⟩
  · rw [run_bind_of_error ran]
    rfl
  · rw [run_bind_of_ok ran]
    exact hf a s₁

/-- What is made of a result does not fail. -/
theorem Ends.bind_pure {x : Masking σ α} {failure : Option MaskError} (h : Ends x failure)
    (g : α → β) : Ends (x >>= fun a => Pure.pure (g a)) failure := by
  have run := h.bind fun a => Ends.pure (g a)
  rwa [Option.or_none] at run

theorem Ends.throw_ite {p : Prop} [Decidable p] {e : MaskError} {f : α → Masking σ β}
    {x : Masking σ β} {failure : Option MaskError} (h : Ends x failure) :
    Ends (if p then throw e >>= f else x) ((if p then some e else none).or failure) := by
  by_cases thrown : p
  · rw [if_pos thrown, if_pos thrown]
    exact fun _ => rfl
  · rw [if_neg thrown, if_neg thrown]
    exact h

theorem Ends.mapM {f : α → Masking σ β} {l : List α} {failure : α → Option MaskError}
    (each : ∀ a ∈ l, Ends (f a) (failure a)) : Ends (l.mapM f) (l.findSome? failure) := by
  induction l with
  | nil => exact .pure []
  | cons a rest ih =>
    rw [List.forall_mem_cons] at each
    have run := each.1.bind fun b => (ih each.2).bind_pure (b :: ·)
    rw [List.mapM_cons, List.findSome?_cons]
    cases failed : failure a with
    | none => rwa [failed] at run
    | some e => rwa [failed] at run

theorem ends_dealElement {S : Sampler σ} {path : Path} {F : PrimeField}
    {encoded : Except FieldError Nat} :
    Ends (m.dealElement S path F encoded) ((failure? encoded).map (.encoding path)) := by
  cases encoded with
  | error e => exact fun _ => rfl
  | ok a => exact fun _ => rfl

theorem ends_dealSecret {S : Sampler σ} {path : Path} (secret : Secret) :
    Ends (m.dealSecret S path secret) ((m.misfit? (.secretLeaf secret)).map (.encoding path)) := by
  cases secret with
  | scalar v =>
    have run : Ends (m.dealSecret S path (.scalar v)) _ :=
      ends_dealElement.bind_pure (Dealt.scalar v.kind)
    rwa [SecretScalar.failure?_encode] at run
  | blob bytes => exact (always_dealBlob bytes).ends

theorem ends_dealElements {S : Sampler σ} {path : Path} {inner : ValueType} {elements : List Value}
    (each : ∀ v ∈ elements, ∀ {path},
      Ends (m.dealValue S path v) (v.places.findSome? (m.offence? path))) {start : Nat} :
    Ends (m.dealElements S path inner start elements)
      ((ValueTree.elementPlaces inner start elements).findSome? (m.offence? path)) := by
  induction elements generalizing start with
  | nil =>
    unfold dealElements
    exact .pure []
  | cons v rest ih =>
    rw [List.forall_mem_cons] at each
    have first : Ends (m.dealValue S (path.index start) v) _ := each.1
    have others : Ends (m.dealElements S path inner (start + 1) rest) _ := ih each.2
    have run := first.bind fun d => others.bind_pure (d :: ·)
    have places : ValueTree.elementPlaces inner start (v :: rest) =
        (v.placesAs (some (start, inner))).map (.under (.index start)) ++
          ValueTree.elementPlaces inner (start + 1) rest := rfl
    rw [places, List.findSome?_append, findSome?_map_under, findSome?_placesAs, Option.or_assoc]
    unfold dealElements
    have mismatch : (Place.mismatch? ⟨[], some (start, inner), v⟩).map
        (MaskError.invalidValue (path.step (.index start))) =
          if v.type ≠ inner then
            some (.invalidValue (path.index start) (.arrayTypeMismatch start inner v.type))
          else none := by
      unfold Place.mismatch?
      by_cases typed : v.type = inner <;> simp [typed, Path.index]
    rw [mismatch]
    exact run.throw_ite

/-- Dealing a value fails as the first offence in it says. -/
theorem ends_dealValue {S : Sampler σ} (v : Value) : ∀ {path : Path},
    Ends (m.dealValue S path v) (v.places.findSome? (m.offence? path)) := by
  induction v using ValueTree.induction with
  | publicLeaf leaf =>
    intro path
    rw [findSome?_places, dealValue]
    exact .pure _
  | secretLeaf secret =>
    intro path
    rw [findSome?_places, dealValue, ValueTree.innerPlaces, List.findSome?_nil, Option.or_none]
    exact (ends_dealSecret secret).bind_pure _
  | array inner elements each =>
    intro path
    rw [findSome?_places, dealValue, ValueTree.innerPlaces]
    exact (ends_dealElements each).bind_pure _
  | tuple left right onLeft onRight =>
    intro path
    have places : (ValueTree.tuple left right).innerPlaces =
        left.places.map (.under .left) ++ right.places.map (.under .right) := rfl
    rw [findSome?_places, dealValue, places, List.findSome?_append, findSome?_map_under,
      findSome?_map_under]
    exact onLeft.bind fun l => onRight.bind_pure _

/-! ## The first offence -/

/-- The failure is the first offence of a collection: no value under an earlier name and no earlier
place in the value is at fault. -/
inductive FirstOffence (m : Masker) (values : NamedValues Value) : MaskError → Prop
  | intro {earlier later : List (String × Value)} {name : String} {v : Value}
      {before after : List (Place Secret)} {place : Place Secret} {e : MaskError}
      (entries : values.toList = earlier ++ (name, v) :: later)
      (maskable : ∀ entry ∈ earlier, m.Maskable entry.2)
      (places : v.places = before ++ place :: after)
      (innocent : ∀ p ∈ before, m.offence? (Path.ofName name) p = none)
      (offends : m.offence? (Path.ofName name) place = some e) : FirstOffence m values e

/-- Search a collection for an offence, name by name and place by place. -/
def firstOffence? (m : Masker) (values : NamedValues Value) : Option MaskError :=
  values.toList.findSome? fun e => e.2.places.findSome? (m.offence? (Path.ofName e.1))

/-- Masking a collection fails as the search for an offence says. -/
theorem ends_mask (m : Masker) (S : Sampler σ) (values : NamedValues Value) :
    Ends (m.mask S values) (m.firstOffence? values) := by
  have dealt : Ends (m.deal S values) _ := .mapM fun e _ => (ends_dealValue e.2).bind_pure (e.1, ·)
  exact dealt.bind_pure fun ds => formed (m.bundleAt · ds) m.roster.points

/-- No offence is found in a collection if all of its values are maskable. -/
theorem firstOffence?_eq_none_iff {values : NamedValues Value} :
    m.firstOffence? values = none ↔ ∀ entry ∈ values.toList, m.Maskable entry.2 := by
  rw [firstOffence?, List.findSome?_eq_none_iff]
  exact forall₂_congr fun entry _ => maskable_iff.symm

/-- What is found in a collection is its first offence. -/
theorem firstOffence?_eq_some_iff {values : NamedValues Value} {e : MaskError} :
    m.firstOffence? values = some e ↔ m.FirstOffence values e := by
  rw [firstOffence?, List.findSome?_eq_some_iff]
  constructor
  · rintro ⟨earlier, ⟨name, v⟩, later, entries, found, none⟩
    obtain ⟨before, place, after, places, offends, innocent⟩ := List.findSome?_eq_some_iff.mp found
    exact ⟨entries, fun entry member => maskable_iff.mpr (none entry member), places, innocent,
      offends⟩
  · rintro ⟨entries, maskable, places, innocent, offends⟩
    exact ⟨_, _, _, entries, List.findSome?_eq_some_iff.mpr ⟨_, _, _, places, offends, innocent⟩,
      fun entry member => maskable_iff.mp (maskable entry member)⟩

/-- **Verdict.** Whatever is drawn, masking a collection succeeds exactly if every value in it is
maskable, and fails exactly with the first offence in it. The places of a value, among which the
offence is looked for, are those that steps lead to, in depth-first order; the path of one is the
name with the steps behind it. -/
theorem mask_verdict (m : Masker) (S : Sampler σ) (s : σ) (values : NamedValues Value) :
    ((∃ bundles s', (m.mask S values).run s = (.ok bundles, s')) ↔
      ∀ entry ∈ values.toList, m.Maskable entry.2) ∧
    (∀ e, (∃ s', (m.mask S values).run s = (.error e, s')) ↔ m.FirstOffence values e) ∧
    (∀ (v : Value) (place : Place Secret), place ∈ v.places ↔
      v.follow? place.steps = some place.part ∧
        ∀ i inner, place.declared = some (i, inner) ↔ ∃ before elements,
          place.steps = before ++ [.index i] ∧
            v.follow? before = some (.array inner elements)) ∧
    (∀ v : Value, v.places.Pairwise fun a b => List.Lex PathStep.Before a.steps b.steps) ∧
    ∀ name steps, ((Path.ofName name).extend steps).render =
      name ++ String.join (steps.map Path.renderStep) := by
  have ends := m.ends_mask S values s
  refine ⟨?_, fun e => ?_, fun v place => ValueTree.mem_places_iff, ValueTree.pairwise_places,
    fun name steps => Path.render_extend _ steps⟩
  · rw [← firstOffence?_eq_none_iff, ← ends]
    exact failure?_eq_none_iff.symm
  · rw [← firstOffence?_eq_some_iff, ← ends]
    exact failure?_eq_some_iff.symm

/-- A collection in which an integer is declared and a truth value found, and then a key is zero. -/
def mixedValues : NamedValues Value :=
  .ofList [("flag", .publicLeaf (.boolean true)),
    ("pair", .tuple (.secretLeaf (.blob [1, 2, 3, 4]))
      (.array (.secretLeaf (.scalar .integer))
        [.secretLeaf (.scalar (.integer (-5))), .secretLeaf (.scalar (.boolean true))])),
    ("key", .secretLeaf (.scalar (.ecdsaPrivateKey ⟨List.replicate 32 0, rfl⟩)))]

theorem mixedValues_refused :
    (∃ s', (trio.mask Sampler.tape mixedValues).run [9] = (.error (.invalidValue
      ⟨"pair", [.right, .index 1]⟩ (.arrayTypeMismatch 1 (.secretLeaf (.scalar .integer))
        (.secretLeaf (.scalar .boolean)))), s')) ∧
    trio.FirstOffence mixedValues (.invalidValue
      ⟨"pair", [.right, .index 1]⟩ (.arrayTypeMismatch 1 (.secretLeaf (.scalar .integer))
        (.secretLeaf (.scalar .boolean)))) := by
  have refused : ∃ s', (trio.mask Sampler.tape mixedValues).run [9] = (.error (.invalidValue
      ⟨"pair", [.right, .index 1]⟩ (.arrayTypeMismatch 1 (.secretLeaf (.scalar .integer))
        (.secretLeaf (.scalar .boolean)))), s') := ⟨[], rfl⟩
  exact ⟨refused, ((mask_verdict trio Sampler.tape [9] mixedValues).2.1 _).mp refused⟩

end Masker
end ThresholdMask
