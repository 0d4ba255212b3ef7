import Mathlib
import ThresholdMask.Masker.Masking
import ThresholdMask.Proofs.Coherence

/-!
# Dealt bundles are coherent

What a successful run of the dealer establishes, whatever it draws: the polynomials that it draws
for a secret leaf have the encoded secret as constant term and at most the masker's degree, so that
the bundles evaluated from them are coherent with the collection (`Masker.coherent_of_mask`).
-/

namespace ThresholdMask

/-- The values of a polynomial at the abscissas of parties are consistent shares of its constant
term. -/
theorem Sharer.consistent_evaluate {s : Sharer} [Fact s.field.modulus.Prime] {secret : Nat}
    (residue : secret < s.field.modulus) {rest : List Nat} (length : rest.length = s.degree)
    {points : List (PartyId × Nat)} (onRoster : points ⊆ s.roster.points) :
    s.Consistent (formed (s.field.evaluate (s.field.reduce secret :: rest)) points) secret := by
  have low := s.field.degree_ofCoefficients_lt (s.field.reduce secret :: rest)
  rw [List.length_cons, length] at low
  refine ⟨s.field.ofCoefficients (s.field.reduce secret :: rest),
    Sharer.degree_lt_threshold_iff.mp low, ?_, ?_⟩
  · intro share member
    obtain ⟨x, point, value⟩ := mem_formed.mp member
    refine ⟨?_, x, Roster.abscissa?_eq_some_iff.mpr (onRoster point), ?_⟩
    · rw [value]
      exact s.field.evaluate_lt (Nat.zero_lt_of_lt residue) _ _
    · rw [value, s.field.natCast_evaluate]
  · rw [s.field.eval_zero_ofCoefficients, s.field.natCast_reduce, ZMod.val_cast_of_lt residue]

theorem PrimeField.randoms_succ {σ : Type} (F : PrimeField) (S : Sampler σ) (n : Nat) (s : σ) :
    F.randoms S (n + 1) s = ((F.random S s).1 :: (F.randoms S n (F.random S s).2).1,
      (F.randoms S n (F.random S s).2).2) := rfl

/-! ## Runs -/

namespace Masker

variable {σ α β : Type}

theorem run_pure_eq_ok {a b : α} {s s' : σ} :
    (pure a : Masking σ α).run s = (.ok b, s') ↔ a = b ∧ s = s' := by
  show ((Except.ok a : Except MaskError α), s) = (.ok b, s') ↔ a = b ∧ s = s'
  rw [Prod.mk.injEq, Except.ok.injEq]

theorem run_bind_of_ok {x : Masking σ α} {f : α → Masking σ β} {a : α} {s s' : σ}
    (ran : x.run s = (.ok a, s')) : (x >>= f).run s = (f a).run s' := by
  show ExceptT.bindCont f (x.run s).1 (x.run s).2 = _
  rw [ran]
  rfl

theorem run_bind_of_error {x : Masking σ α} {f : α → Masking σ β} {e : MaskError} {s s' : σ}
    (ran : x.run s = (.error e, s')) : (x >>= f).run s = (.error e, s') := by
  show ExceptT.bindCont f (x.run s).1 (x.run s).2 = _
  rw [ran]
  rfl

theorem run_bind_eq_ok {x : Masking σ α} {f : α → Masking σ β} {b : β} {s s' : σ} :
    (x >>= f).run s = (.ok b, s') ↔
      ∃ a s₁, x.run s = (.ok a, s₁) ∧ (f a).run s₁ = (.ok b, s') := by
  -- what was drawn before a failure does not matter here, as a failure gives no result
  rcases first : x.run s with ⟨e | a, s₁⟩
  · rw [run_bind_of_error first]
    refine iff_of_false (fun failed => nomatch failed) ?_
    rintro ⟨a, s₂, failed, -⟩
    cases failed
  · rw [run_bind_of_ok first]
    constructor
    · intro ran
      exact ⟨a, s₁, rfl, ran⟩
    · rintro ⟨a', s₂, same, ran⟩
      cases same
      exact ran

theorem run_throw_ite_eq_ok {p : Prop} [Decidable p] {e : MaskError} {f : α → Masking σ β}
    {x : Masking σ β} {b : β} {s s' : σ} :
    (if p then throw e >>= f else x).run s = (.ok b, s') ↔ ¬p ∧ x.run s = (.ok b, s') := by
  by_cases h : p
  · rw [if_pos h, run_bind_eq_ok]
    refine iff_of_false ?_ fun ⟨hn, _⟩ => hn h
    rintro ⟨a, s₁, failed, -⟩
    cases failed
  · rw [if_neg h]
    exact ⟨fun ran => ⟨h, ran⟩, fun ⟨_, ran⟩ => ran⟩

/-- The members of a list that is worked through are worked on one by one. -/
theorem run_mapM {f : α → Masking σ β} {l : List α} {bs : List β} {s s' : σ}
    (h : (l.mapM f).run s = (.ok bs, s')) :
    List.Forall₂ (fun a b => ∃ s₁ s₂, (f a).run s₁ = (.ok b, s₂)) l bs := by
  induction l generalizing bs s s' with
  | nil =>
    rw [List.mapM_nil, run_pure_eq_ok] at h
    rw [← h.1]
    exact .nil
  | cons a rest ih =>
    rw [List.mapM_cons, run_bind_eq_ok] at h
    obtain ⟨b, s₁, first, others⟩ := h
    rw [run_bind_eq_ok] at others
    obtain ⟨bs', s₂, others, last⟩ := others
    rw [run_pure_eq_ok] at last
    rw [← last.1]
    exact .cons ⟨s, s₁, first⟩ (ih others)

/-- Some run of the computation has a result. -/
def Succeeds (x : Masking σ α) : Prop := ∃ s a s', x.run s = (.ok a, s')

theorem Succeeds.of_bind {x : Masking σ α} {f : α → Masking σ β} (h : Succeeds (x >>= f)) :
    Succeeds x ∧ ∃ a, Succeeds (f a) := by
  obtain ⟨s, b, s', ran⟩ := h
  obtain ⟨a, s₁, ranX, ranF⟩ := run_bind_eq_ok.mp ran
  exact ⟨⟨s, a, s₁, ranX⟩, a, s₁, b, s', ranF⟩

theorem Succeeds.of_mapM {f : α → Masking σ β} {l : List α} (h : Succeeds (l.mapM f)) :
    ∀ a ∈ l, Succeeds (f a) := by
  obtain ⟨s, bs, s', ran⟩ := h
  have each := run_mapM ran
  clear ran
  induction each with
  | nil => exact fun _ none => absurd none List.not_mem_nil
  | cons first _ ih =>
    rw [List.forall_mem_cons]
    obtain ⟨s₁, s₂, ran⟩ := first
    exact ⟨⟨s₁, _, s₂, ran⟩, ih⟩

/-! ## Dealt elements -/

theorem length_randoms (F : PrimeField) (S : Sampler σ) (n : Nat) (s : σ) :
    (F.randoms S n s).1.length = n := by
  induction n generalizing s with
  | zero => rfl
  | succ n ih => rw [PrimeField.randoms_succ, List.length_cons, ih]

/-- The polynomial of an element: the encoded secret and as many coefficients as the degree. -/
theorem dealElement_eq_ok {m : Masker} {S : Sampler σ} {path : Path} {F : PrimeField}
    {encoded : Except FieldError Nat} {coefficients : List Nat} {s s' : σ}
    (h : (m.dealElement S path F encoded).run s = (.ok coefficients, s')) :
    ∃ secret rest, encoded = .ok secret ∧ coefficients = F.reduce secret :: rest ∧
      rest.length = m.degree := by
  cases encoded with
  | error e => cases h
  | ok secret =>
    have drawn : F.reduce secret :: (F.randoms S m.degree s).1 = coefficients :=
      Except.ok.inj (congrArg Prod.fst h)
    exact ⟨secret, _, rfl, drawn.symm, length_randoms F S m.degree s⟩

/-! ## Dealt leaves -/

section Leaves

variable {m : Masker} {points : List (PartyId × Nat)}

/-- The shares of a scalar at points of the roster. -/
theorem coherent_scalar (onRoster : points ⊆ m.roster.points) {v : SecretScalar} {secret : Nat}
    (encoded : v.encode (m.fieldOf v.kind) = .ok secret) {rest : List Nat}
    (length : rest.length = m.degree) :
    m.Coherent (.secretLeaf (.scalar v)) (formed (fun x => m.maskedAt x (.secretLeaf
      (.scalar v.kind ((m.fieldOf v.kind).reduce secret :: rest)))) points) := by
  obtain ⟨residue, decoded⟩ := SecretScalar.decodedFrom_of_encode (m.odd_fieldOf v.kind)
    (m.prime_fieldOf v.kind).out.one_lt encoded
  unfold Coherent
  let shares := formed ((m.fieldOf v.kind).evaluate ((m.fieldOf v.kind).reduce secret :: rest)) points
  refine ⟨shares, secret, ?_, ?_, decoded⟩
  · rw [formed_comp]
    rfl
  · exact Sharer.consistent_evaluate (s := m.sharer (m.fieldOf v.kind)) residue length onRoster

/-- The shares of a blob, chunk by chunk. -/
theorem coherent_blob (onRoster : points ⊆ m.roster.points) {bytes : Bytes}
    {polynomials : List (List Nat)}
    (dealt : List.Forall₂ (fun (chunk : Bytes) coefficients => ∃ rest : List Nat,
      coefficients = m.field.reduce chunk.toNatLE :: rest ∧ rest.length = m.degree)
      (bytes.chunks m.chunkSize) polynomials) :
    m.Coherent (.secretLeaf (.blob bytes)) (formed (fun x => m.maskedAt x (.secretLeaf
      (.blob polynomials bytes.length))) points) := by
  unfold Coherent
  refine ⟨formed (fun x => polynomials.map (m.field.evaluate · x)) points, ?_, ?_, ?_⟩
  · rw [formed_comp]
    rfl
  · intro c member
    obtain ⟨x, -, same⟩ := mem_formed.mp member
    rw [same, List.length_map, dealt.length_eq]
  · intro i chunk found
    obtain ⟨inside, here⟩ := List.getElem?_eq_some_iff.mp found
    obtain ⟨rest, coefficients, length⟩ : ∃ rest, polynomials[i]? =
        some (m.field.reduce chunk.toNatLE :: rest) ∧ rest.length = m.degree := by
      obtain ⟨rest, same, length⟩ := (List.forall₂_iff_get.mp dealt).2 i inside
        (dealt.length_eq ▸ inside)
      refine ⟨rest, ?_, length⟩
      rw [List.getElem?_eq_getElem (dealt.length_eq ▸ inside), ← here]
      exact congrArg some same
    rw [partsOf_formed fun x => by rw [List.getElem?_map, coefficients]; rfl]
    have residue : chunk.toNatLE < m.field.modulus :=
      m.field.toNatLE_lt_modulus m.prime_field.out.ne_zero chunk
        (Bytes.length_le_of_mem_chunks (List.mem_of_getElem? found))
    exact Sharer.consistent_evaluate (s := m.sharer m.field) residue length onRoster

end Leaves

/-! ## Dealt values -/

/-- The value is well-typed, the dealing has its type, and what the dealing gives to parties of the
roster is coherent with it. -/
structure Represents (m : Masker) (v : Value) (d : Dealing) : Prop where
  wellTyped : v.WellTyped
  type_eq : d.type = v.type
  coherent : ∀ points, points ⊆ m.roster.points →
    m.Coherent v (formed (m.maskedAt · d) points)

variable {m : Masker} {S : Sampler σ} {path : Path} {s s' : σ}

theorem type_maskedAt (x : Nat) (d : Dealing) : (m.maskedAt x d).type = d.type :=
  ValueTree.type_map (m.shareAt x) (fun dealt => by cases dealt <;> rfl) d

theorem represents_of_dealSecret {secret : Secret} {dealt : Dealt}
    (h : (m.dealSecret S path secret).run s = (.ok dealt, s')) :
    m.Represents (.secretLeaf secret) (.secretLeaf dealt) := by
  cases secret with
  | scalar v =>
    rw [dealSecret, run_bind_eq_ok] at h
    obtain ⟨coefficients, s₁, drawn, last⟩ := h
    obtain ⟨rfl, -⟩ := run_pure_eq_ok.mp last
    obtain ⟨secret, rest, encoded, rfl, length⟩ := dealElement_eq_ok drawn
    exact ⟨.secretLeaf _, rfl, fun points onRoster => coherent_scalar onRoster encoded length⟩
  | blob bytes =>
    rw [dealSecret, run_bind_eq_ok] at h
    obtain ⟨polynomials, s₁, drawn, last⟩ := h
    obtain ⟨rfl, -⟩ := run_pure_eq_ok.mp last
    refine ⟨.secretLeaf _, rfl, fun points onRoster => coherent_blob onRoster ?_⟩
    -- that a chunk is short enough to be encoded is known only of the blob's chunks
    have among : List.Forall₂ (fun chunk coefficients => chunk ∈ bytes.chunks m.chunkSize ∧ _)
        (bytes.chunks m.chunkSize) polynomials :=
      (List.forall₂_and_left _ _).mpr ⟨fun _ member => member, run_mapM drawn⟩
    apply among.imp
    intro chunk coefficients ⟨member, s₁, s₂, ran⟩
    obtain ⟨secret, rest, encoded, rfl, length⟩ := dealElement_eq_ok ran
    rw [m.field.encodeChunk_eq_ok m.prime_field.out.ne_zero
      (Bytes.length_le_of_mem_chunks member)] at encoded
    rw [Except.ok.inj encoded]
    exact ⟨rest, rfl, length⟩

/-- An element of the declared type is dealt before the ones after it. -/
theorem dealElements_cons {inner : ValueType} {v : Value} (type : v.type = inner) (start : Nat)
    (rest : List Value) :
    m.dealElements S path inner start (v :: rest) = (do
      let d ← m.dealValue S (path.index start) v
      let ds ← m.dealElements S path inner (start + 1) rest
      return d :: ds) := by
  rw [dealElements]
  show (if v.type ≠ inner then _ else _) = _
  rw [if_neg (not_not.mpr type)]

theorem represents_of_dealElements {inner : ValueType} {elements : List Value}
    (each : ∀ v ∈ elements, ∀ {path s s' d}, (m.dealValue S path v).run s = (.ok d, s') →
      m.Represents v d)
    {start : Nat} {ds : List Dealing}
    (h : (m.dealElements S path inner start elements).run s = (.ok ds, s')) :
    List.Forall₂ (fun v d => v.type = inner ∧ m.Represents v d) elements ds := by
  induction elements generalizing start ds s s' with
  | nil =>
    unfold dealElements at h
    rw [← (run_pure_eq_ok.mp h).1]
    exact .nil
  | cons v rest ih =>
    rw [List.forall_mem_cons] at each
    unfold dealElements at h
    dsimp only at h
    rw [run_throw_ite_eq_ok, not_not, run_bind_eq_ok] at h
    obtain ⟨type, d, s₁, first, others⟩ := h
    obtain ⟨ds', s₂, others, last⟩ := run_bind_eq_ok.mp others
    rw [← (run_pure_eq_ok.mp last).1]
    exact .cons ⟨type, each.1 first⟩ (ih each.2 others)

theorem coherentElements_of_represents {elements : List Value} {ds : List Dealing}
    (dealt : List.Forall₂ m.Represents elements ds) {points : List (PartyId × Nat)}
    (onRoster : points ⊆ m.roster.points) :
    m.CoherentElements elements (formed (fun x => ds.map (m.maskedAt x)) points) := by
  induction dealt with
  | nil => exact trivial
  | cons first _ ih =>
    rw [CoherentElements, partsOf_formed fun x => by rw [List.map_cons, List.head?_cons],
      formed_comp]
    exact ⟨first.coherent points onRoster, ih⟩

theorem represents_array {inner : ValueType} {elements : List Value} {ds : List Dealing}
    (dealt : List.Forall₂ (fun v d => v.type = inner ∧ m.Represents v d) elements ds) :
    m.Represents (.array inner elements) (.array inner ds) := by
  have elementTypes : (∀ v ∈ elements, v.type = inner ∧ v.WellTyped) ∧
      ∀ d ∈ ds, d.type = inner := by
    induction dealt with
    | nil => simp
    | cons first _ ih =>
      rw [List.forall_mem_cons, List.forall_mem_cons]
      exact ⟨⟨⟨first.1, first.2.wellTyped⟩, ih.1⟩, first.2.type_eq.trans first.1, ih.2⟩
  obtain ⟨onValues, onDealings⟩ := elementTypes
  refine ⟨.array _ _ (fun v member => (onValues v member).1) fun v member => (onValues v member).2,
    by rw [ValueTree.type, ValueTree.type, dealt.length_eq], fun points onRoster => ?_⟩
  unfold Coherent
  refine ⟨formed (fun x => ds.map (m.maskedAt x)) points, ?_, ?_,
    coherentElements_of_represents (dealt.imp fun _ _ h => h.2) onRoster⟩
  · rw [formed_comp]
    apply formed_congr
    intro e _
    rw [maskedAt, ValueTree.map, ValueTree.mapList_eq]
    rfl
  · intro c member
    obtain ⟨x, -, same⟩ := mem_formed.mp member
    rw [same, List.length_map, dealt.length_eq]
    refine ⟨rfl, ?_⟩
    intro e inside
    obtain ⟨d, here, rfl⟩ := List.mem_map.mp inside
    rw [type_maskedAt, onDealings d here]

/-- Whatever is drawn, a value that is dealt successfully is represented by its dealing. -/
theorem represents_of_dealValue {v : Value} : ∀ {path s s' d},
    (m.dealValue S path v).run s = (.ok d, s') → m.Represents v d := by
  induction v using ValueTree.induction with
  | publicLeaf leaf =>
    intro path s s' d h
    unfold dealValue at h
    obtain ⟨rfl, -⟩ := run_pure_eq_ok.mp h
    refine ⟨.publicLeaf leaf, rfl, ?_⟩
    intro points _
    unfold Coherent
    intro c member
    obtain ⟨x, -, same⟩ := mem_formed.mp member
    exact same
  | secretLeaf secret =>
    intro path s s' d h
    rw [dealValue, run_bind_eq_ok] at h
    obtain ⟨dealt, s₁, drawn, last⟩ := h
    obtain ⟨rfl, -⟩ := run_pure_eq_ok.mp last
    exact represents_of_dealSecret drawn
  | array inner elements each =>
    intro path s s' d h
    rw [dealValue, run_bind_eq_ok] at h
    obtain ⟨ds, s₁, drawn, last⟩ := h
    obtain ⟨rfl, -⟩ := run_pure_eq_ok.mp last
    exact represents_array (represents_of_dealElements each drawn)
  | tuple left right onLeft onRight =>
    intro path s s' d h
    rw [dealValue, run_bind_eq_ok] at h
    obtain ⟨l, s₁, drawnL, others⟩ := h
    obtain ⟨r, s₂, drawnR, last⟩ := run_bind_eq_ok.mp others
    obtain ⟨rfl, -⟩ := run_pure_eq_ok.mp last
    have hl := onLeft drawnL
    have hr := onRight drawnR
    refine ⟨.tuple _ _ hl.wellTyped hr.wellTyped,
      by rw [ValueTree.type, ValueTree.type, hl.type_eq, hr.type_eq], fun points onRoster => ?_⟩
    unfold Coherent
    refine ⟨formed (fun x => (m.maskedAt x l, m.maskedAt x r)) points, ?_, ?_, ?_⟩
    · rw [formed_comp]
      rfl
    · rw [formed_comp]
      exact hl.coherent points onRoster
    · rw [formed_comp]
      exact hr.coherent points onRoster

/-! ## Bundles -/

/-- The bundles of a successful run are those of dealings of the collection's values, in roster
order. -/
theorem mask_eq_ok {values : NamedValues Value} {bundles : List (PartyId × Bundle)}
    (h : (m.mask S values).run s = (.ok bundles, s')) :
    ∃ dealings : List (String × Dealing), bundles = formed (m.bundleAt · dealings) m.roster.points ∧
      values.names = dealings.map (·.1) ∧ ∀ name v d, (name, v) ∈ values.toList →
        (name, d) ∈ dealings → m.Represents v d := by
  rw [mask, run_bind_eq_ok] at h
  obtain ⟨dealings, s₁, dealt, last⟩ := h
  obtain ⟨rfl, -⟩ := run_pure_eq_ok.mp last
  refine ⟨dealings, rfl, ?_⟩
  unfold deal at dealt
  have each : List.Forall₂ (fun e e' => e.1 = e'.1 ∧ m.Represents e.2 e'.2) values.toList
      dealings := by
    refine (run_mapM dealt).imp ?_
    intro e e' ⟨s₁, s₂, ran⟩
    obtain ⟨d, s₃, drawn, last⟩ := run_bind_eq_ok.mp ran
    obtain ⟨rfl, -⟩ := run_pure_eq_ok.mp last
    exact ⟨rfl, represents_of_dealValue drawn⟩
  exact (forall₂_entries_iff values.nodup_names fun _ _ _ => Iff.rfl).mp each

theorem mask_of_deal {values : NamedValues Value} {dealings : List (String × Dealing)}
    (h : (m.deal S values).run s = (.ok dealings, s')) :
    (m.mask S values).run s = (.ok (formed (m.bundleAt · dealings) m.roster.points), s') := by
  rw [mask, run_bind_eq_ok]
  exact ⟨dealings, s', h, run_pure_eq_ok.mpr ⟨rfl, rfl⟩⟩

theorem map_fst_of_mask {values : NamedValues Value} {bundles : List (PartyId × Bundle)}
    (h : (m.mask S values).run s = (.ok bundles, s')) : bundles.map (·.1) = m.roster.parties := by
  obtain ⟨dealings, rfl, -⟩ := mask_eq_ok h
  rw [map_fst_formed, Roster.map_fst_points]

theorem toList_bundleAt {dealings : List (String × Dealing)}
    (nodup : (dealings.map (·.1)).Nodup) (x : Nat) :
    (m.bundleAt x dealings).toList = dealings.map fun e => (e.1, m.maskedAt x e.2) :=
  NamedValues.toList_ofList (by rwa [List.map_map])

/-- **Honest bundles.** Any bundles of a successful run carry the names of the collection in its
order, and are coherent with its values. -/
theorem coherent_of_mask {values : NamedValues Value} {bundles : List (PartyId × Bundle)}
    (h : (m.mask S values).run s = (.ok bundles, s')) {contributions : List (PartyId × Bundle)}
    (part : contributions ⊆ bundles) :
    (∀ e ∈ contributions, e.2.names = values.names) ∧
      ∀ name v, values.get? name = some v →
        m.Coherent v (partsOf (·.get? name) contributions) := by
  obtain ⟨dealings, rfl, names, represented⟩ := mask_eq_ok h
  obtain ⟨points, onRoster, rfl⟩ := exists_formed_of_subset part
  have nodup : (dealings.map (·.1)).Nodup := names ▸ values.nodup_names
  constructor
  · intro e member
    obtain ⟨x, -, same⟩ := mem_formed.mp member
    rw [same, NamedValues.names, toList_bundleAt nodup, List.map_map, names]
    rfl
  · intro name v found
    have named : name ∈ dealings.map (·.1) := names ▸ NamedValues.exists_get?.mp ⟨v, found⟩
    obtain ⟨e, dealt, rfl⟩ := List.mem_map.mp named
    have held (x : Nat) : (m.bundleAt x dealings).get? e.1 = some (m.maskedAt x e.2) := by
      rw [← NamedValues.mem_toList_iff, toList_bundleAt nodup]
      exact List.mem_map_of_mem (f := fun e => (e.1, m.maskedAt x e.2)) dealt
    rw [partsOf_formed held]
    exact (represented e.1 v e.2 (NamedValues.mem_toList_iff.mpr found) dealt).coherent points
      onRoster

end Masker
end ThresholdMask
