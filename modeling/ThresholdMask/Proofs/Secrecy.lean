import Mathlib
import ThresholdMask.Proofs.Coupling
import ThresholdMask.Proofs.Drawing
import ThresholdMask.Proofs.RoundTrip

/-!
# A few bundles show nothing of the secrets

At no more abscissas than the degree, the shares of one secret are the shares of any other one for
other coefficients: the coefficients only have to be moved by those of a polynomial that vanishes at
the abscissas and makes up for the difference of the secrets (`PrimeField.exists_offsets`). Leaf by
leaf this couples the masking of two collections that are the same in public, and so the parties at
these abscissas see the same bundles (`Masker.mask_hides_secrets`). Both runs draw below the bounds
that `Masker.namedBounds` tells, since these depend on what is public only.
-/

namespace ThresholdMask

/-! ## Moving the coefficients of a polynomial -/

namespace PrimeField

open Polynomial

variable (F : PrimeField)

theorem ofCoefficients_zipWith_add {as bs : List Nat} (length : as.length = bs.length) :
    F.ofCoefficients (List.zipWith F.add as bs) = F.ofCoefficients as + F.ofCoefficients bs := by
  induction as generalizing bs with
  | nil =>
    rw [List.length_nil] at length
    rw [List.eq_nil_of_length_eq_zero length.symm, List.zipWith_nil_left, ofCoefficients, add_zero]
  | cons a rest ih =>
    cases bs with
    | nil => cases length
    | cons b rest' =>
      rw [List.zipWith_cons_cons, ofCoefficients, ih (Nat.succ.inj length), natCast_add, C_add,
        ofCoefficients, ofCoefficients]
      ring

/-- In a field with more elements than there are abscissas, zero and the abscissas stay apart. -/
theorem nodup_beside_zero {n : Nat} {abscissas : List Nat} (fits : n < F.modulus)
    (nodup : abscissas.Nodup) (bounds : ∀ x ∈ abscissas, 0 < x ∧ x ≤ n) :
    ((0 :: abscissas).map (Nat.cast : Nat → F.Residue)).Nodup := by
  have positive : 0 ∉ abscissas := fun member => absurd (bounds 0 member).1 (Nat.lt_irrefl 0)
  refine (List.nodup_cons.mpr ⟨positive, nodup⟩).map_on ?_
  intro x hx y hy same
  have small : ∀ z ∈ 0 :: abscissas, z < F.modulus := by
    rw [List.forall_mem_cons]
    exact ⟨Nat.zero_lt_of_lt fits, fun z member => lt_of_le_of_lt (bounds z member).2 fits⟩
  exact (F.natCast_inj (small x hx) (small y hy)).mp same

variable [prime : Fact F.modulus.Prime]

/-- Every polynomial is written by coefficients of which the first is its value at zero. -/
theorem exists_coefficients {g : F.Residue[X]} {n : Nat} (low : g.natDegree ≤ n) :
    ∃ coefficients : List Nat, coefficients.length = n ∧
      C (g.eval 0) + X * F.ofCoefficients coefficients = g := by
  refine ⟨(List.range n).map fun i => (g.coeff (i + 1)).val, ?_, ?_⟩
  · rw [List.length_map, List.length_range]
  · ext k
    cases k with
    | zero => simp [coeff_zero_eq_eval_zero]
    | succ k =>
      rw [coeff_add, coeff_C_succ, zero_add, coeff_X_mul, coeff_ofCoefficients]
      by_cases inside : k < n
      · rw [List.getD_eq_getElem _ _ (by simpa using inside)]
        simp
      · rw [List.getD_eq_default _ _ (by simpa using inside), Nat.cast_zero,
          coeff_eq_zero_of_natDegree_lt (by omega)]

/-- Adding suitable offsets to the coefficients, whatever they are, changes the secret and none of
the values at a few abscissas. -/
theorem exists_offsets {abscissas : List Nat} {n : Nat} (few : abscissas.length ≤ n)
    (distinct : ((0 :: abscissas).map (Nat.cast : Nat → F.Residue)).Nodup) (a b : Nat) :
    ∃ offsets : List Nat, offsets.length = n ∧ ∀ draws : List Nat, draws.length = n →
      ∀ x ∈ abscissas, F.evaluate (F.reduce a :: draws) x =
        F.evaluate (F.reduce b :: List.zipWith F.add draws offsets) x := by
  -- the offsets are the coefficients of a polynomial that vanishes at the abscissas and is the
  -- difference of the secrets at zero
  let points : List (F.Residue × F.Residue) :=
    (0, (b : F.Residue) - a) :: abscissas.map fun x : Nat => ((x : F.Residue), 0)
  have nodes : points.map (·.1) = (0 :: abscissas).map (Nat.cast : Nat → F.Residue) := by
    simp [points, Function.comp_def]
  obtain ⟨g, ⟨low, through⟩, -⟩ := existsUnique_polynomial_through (·.2) (nodes ▸ distinct)
  have atZero : g.eval 0 = (b : F.Residue) - a := through _ List.mem_cons_self
  have vanishes : ∀ x ∈ abscissas, g.eval (x : F.Residue) = 0 := fun x member =>
    through _ (List.mem_cons_of_mem _ (List.mem_map_of_mem member))
  have degree : g.natDegree ≤ n := by
    rw [natDegree_le_iff_coeff_eq_zero]
    intro k beyond
    have short : points.length ≤ k := by
      rw [List.length_cons, List.length_map]
      omega
    exact coeff_eq_zero_of_degree_lt (lt_of_lt_of_le low (by exact_mod_cast short))
  obtain ⟨offsets, length, written⟩ := F.exists_coefficients degree
  refine ⟨offsets, length, ?_⟩
  intro draws sameLength x member
  have moved : F.ofCoefficients (F.reduce b :: List.zipWith F.add draws offsets) =
      F.ofCoefficients (F.reduce a :: draws) + g := by
    rw [ofCoefficients, ofCoefficients, F.ofCoefficients_zipWith_add (sameLength.trans length.symm),
      natCast_reduce, natCast_reduce]
    rw [atZero, C_sub] at written
    rw [← written]
    ring
  rw [evaluate_eq, evaluate_eq, moved, eval_add, vanishes x member, add_zero]

end PrimeField

/-! ## Dealing from a tape -/

/-- Random elements from a tape are the numbers on it, as long as they are residues. -/
theorem PrimeField.randoms_tape (F : PrimeField) {n : Nat} {draws : List Nat}
    (fits : Fits draws (List.replicate n F.modulus)) (rest log : List Nat) :
    F.randoms Sampler.tape.recording n (draws ++ rest, log) =
      (draws, (rest, log ++ List.replicate n F.modulus)) := by
  induction n generalizing draws log with
  | zero =>
    cases fits
    rw [List.replicate_zero, List.append_nil]
    rfl
  | succ n ih =>
    cases fits with
    | cons below others =>
      rename_i d ds
      have first : F.random Sampler.tape.recording (d :: ds ++ rest, log) =
          (d, (ds ++ rest, log ++ [F.modulus])) := by
        show (d % F.modulus, (ds ++ rest, log ++ [F.modulus])) = _
        rw [Nat.mod_eq_of_lt below]
      rw [randoms_succ, first, ih others, List.append_assoc, List.singleton_append,
        List.replicate_succ]

namespace Masker

variable {m : Masker} {path : Path} {abscissas : List Nat}

theorem yields_element {F : PrimeField} {secret : Nat} {draws : List Nat}
    (fits : Fits draws (List.replicate m.degree F.modulus)) :
    Yields (m.dealElement Sampler.tape.recording path F (.ok secret)) draws
      (List.replicate m.degree F.modulus) (F.reduce secret :: draws) := by
  intro rest log
  show (Except.ok (F.reduce secret :: (F.randoms _ m.degree _).1), (F.randoms _ m.degree _).2) = _
  rw [F.randoms_tape fits]

/-- Abscissas of parties of the roster, no more than the degree. -/
structure Few (m : Masker) (abscissas : List Nat) : Prop where
  few : abscissas.length ≤ m.degree
  nodup : abscissas.Nodup
  bounds : ∀ x ∈ abscissas, 0 < x ∧ x ≤ m.roster.size

/-- Two elements of a field are hidden by polynomials that agree at the abscissas. -/
theorem alike_element {F : PrimeField} [Fact F.modulus.Prime] (fits : m.roster.size < F.modulus)
    (h : m.Few abscissas) (a b : Nat) :
    Alike abscissas (fun x p => F.evaluate p x) (List.replicate m.degree F.modulus)
      (m.dealElement Sampler.tape.recording path F (.ok a))
      (m.dealElement Sampler.tape.recording path F (.ok b)) := by
  have distinct := F.nodup_beside_zero fits h.nodup h.bounds
  obtain ⟨moves, length, agree⟩ := F.exists_offsets h.few distinct a b
  let offsets : Offsets := moves.map fun move => (F.modulus, move)
  have bounds : offsets.bounds = List.replicate m.degree F.modulus := by
    rw [Offsets.bounds, List.map_map, ← length]
    exact List.map_const'
  have shifted (draws : List Nat) : offsets.shift draws = List.zipWith F.add draws moves := by
    rw [Offsets.shift, List.zipWith_map_left, List.zipWith_comm]
    rfl
  refine ⟨offsets, bounds, ?_⟩
  intro draws inside
  have moved := Offsets.fits_shift inside
  rw [bounds] at inside moved ⊢
  have count : draws.length = m.degree := by
    rw [inside.length_eq, List.length_replicate]
  refine ⟨_, _, yields_element inside, yields_element moved, ?_⟩
  rw [shifted]
  exact agree draws count

/-! ## Values that are the same in public -/

variable {σ τ : Type} {S : Sampler σ} {S' : Sampler τ}

theorem alike_scalar (fits : m.RosterFits) (h : m.Few abscissas) {v w : SecretScalar}
    (kinds : v.kind = w.kind) (succeeds : Succeeds (m.dealSecret S path (.scalar v)))
    (succeeds' : Succeeds (m.dealSecret S' path (.scalar w))) :
    Alike abscissas m.shareAt (m.secretBounds (.scalar v))
      (m.dealSecret Sampler.tape.recording path (.scalar v))
      (m.dealSecret Sampler.tape.recording path (.scalar w)) := by
  -- whether a secret can be encoded does not depend on what is drawn
  obtain ⟨⟨s, p, s₁, ran⟩, -⟩ := Succeeds.of_bind succeeds
  obtain ⟨⟨t, q, t₁, ran'⟩, -⟩ := Succeeds.of_bind succeeds'
  obtain ⟨a, -, encoded, -⟩ := dealElement_eq_ok ran
  obtain ⟨b, -, encoded', -⟩ := dealElement_eq_ok ran'
  rw [← kinds] at encoded'
  rw [dealSecret, dealSecret, ← kinds, encoded, encoded']
  apply (alike_element (fits v.kind) h a b).map
  intro x p q same
  rw [shareAt, shareAt, same]

theorem alike_blob (fits : m.RosterFits) (h : m.Few abscissas) {bytes bytes' : Bytes}
    (length : bytes.length = bytes'.length) :
    Alike abscissas m.shareAt (m.secretBounds (.blob bytes))
      (m.dealSecret Sampler.tape.recording path (.blob bytes))
      (m.dealSecret Sampler.tape.recording path (.blob bytes')) := by
  have encoded {bytes chunk : Bytes} (member : chunk ∈ bytes.chunks m.chunkSize) :
      m.field.encodeChunk chunk = .ok chunk.toNatLE :=
    m.field.encodeChunk_eq_ok m.prime_field.out.ne_zero (Bytes.length_le_of_mem_chunks member)
  -- as many chunks on both sides, each hidden by draws of its own
  have counts : (bytes.chunks m.chunkSize).length = (bytes'.chunks m.chunkSize).length := by
    rw [Bytes.length_chunks, Bytes.length_chunks, length]
  have chunkwise : List.Forall₂ (fun chunk chunk' : Bytes =>
      Alike abscissas (fun x p => m.field.evaluate p x)
        (List.replicate m.degree m.field.modulus)
        (m.dealElement Sampler.tape.recording path m.field (m.field.encodeChunk chunk))
        (m.dealElement Sampler.tape.recording path m.field (m.field.encodeChunk chunk')))
      (bytes.chunks m.chunkSize) (bytes'.chunks m.chunkSize) := by
    refine List.forall₂_iff_get.mpr ⟨counts, ?_⟩
    intro i inside inside'
    rw [encoded (List.get_mem _ _), encoded (List.get_mem _ _)]
    exact alike_element (fits .integer) h _ _
  rw [dealSecret, dealSecret]
  apply (Alike.mapM chunkwise).map
  intro x ps qs same
  rw [shareAt, shareAt, length, same]

/-- Secrets of the same outline are dealt alike. -/
theorem alike_secret (fits : m.RosterFits) (h : m.Few abscissas) {secret secret' : Secret}
    (same : secret.outline = secret'.outline) (succeeds : Succeeds (m.dealSecret S path secret))
    (succeeds' : Succeeds (m.dealSecret S' path secret')) :
    Alike abscissas m.shareAt (m.secretBounds secret)
      (m.dealSecret Sampler.tape.recording path secret)
      (m.dealSecret Sampler.tape.recording path secret') := by
  cases secret with
  | scalar v =>
    cases secret' with
    | scalar w =>
      have kinds : v.kind = w.kind := SecretKind.scalar.inj (Prod.mk.inj same).1
      exact alike_scalar fits h kinds succeeds succeeds'
    | blob bytes' => cases same
  | blob bytes =>
    cases secret' with
    | scalar w => cases same
    | blob bytes' => exact alike_blob fits h (Prod.mk.inj same).2

theorem Succeeds.of_dealElements {inner : ValueType} {v : Value} {start : Nat} {rest : List Value}
    (h : Succeeds (m.dealElements S path inner start (v :: rest))) :
    v.type = inner ∧ Succeeds (m.dealValue S (path.index start) v) ∧
      Succeeds (m.dealElements S path inner (start + 1) rest) := by
  have type : v.type = inner := by
    obtain ⟨s, ds, s', ran⟩ := h
    unfold dealElements at ran
    exact not_not.mp (run_throw_ite_eq_ok.mp ran).1
  rw [dealElements_cons type] at h
  obtain ⟨first, d, others⟩ := h.of_bind
  exact ⟨type, first, others.of_bind.1⟩

theorem alike_elements {inner : ValueType} {elements elements' : List Value}
    (each : ∀ v ∈ elements, ∀ {path : Path} {w : Value}, v.outline = w.outline →
      Succeeds (m.dealValue S path v) → Succeeds (m.dealValue S' path w) →
        Alike abscissas m.maskedAt (m.bounds v) (m.dealValue Sampler.tape.recording path v)
          (m.dealValue Sampler.tape.recording path w))
    (same : elements.map Value.outline = elements'.map Value.outline) {start : Nat}
    (succeeds : Succeeds (m.dealElements S path inner start elements))
    (succeeds' : Succeeds (m.dealElements S' path inner start elements')) :
    Alike abscissas (fun x ds => ds.map (m.maskedAt x)) (elements.flatMap m.bounds)
      (m.dealElements Sampler.tape.recording path inner start elements)
      (m.dealElements Sampler.tape.recording path inner start elements') := by
  induction elements generalizing elements' start with
  | nil =>
    cases elements' with
    | nil =>
      unfold dealElements
      exact Alike.pure []
    | cons w rest' => cases same
  | cons v rest ih =>
    cases elements' with
    | nil => cases same
    | cons w rest' =>
      rw [List.forall_mem_cons] at each
      obtain ⟨sameFirst, sameRest⟩ := List.cons.inj same
      obtain ⟨type, first, others⟩ := succeeds.of_dealElements
      obtain ⟨type', first', others'⟩ := succeeds'.of_dealElements
      rw [dealElements_cons type, dealElements_cons type', List.flatMap_cons]
      apply (each.1 sameFirst first first').map₂ (ih each.2 sameRest others others')
      intro x d d' ds ds' here there
      rw [List.map_cons, List.map_cons, here, there]

/-- Values of the same outline are dealt alike. -/
theorem alike_value (fits : m.RosterFits) (h : m.Few abscissas) {v : Value} :
    ∀ {path : Path} {w : Value}, v.outline = w.outline →
      Succeeds (m.dealValue S path v) → Succeeds (m.dealValue S' path w) →
        Alike abscissas m.maskedAt (m.bounds v) (m.dealValue Sampler.tape.recording path v)
          (m.dealValue Sampler.tape.recording path w) := by
  induction v using ValueTree.induction with
  | publicLeaf leaf =>
    intro path w same succeeds succeeds'
    cases w with
    | publicLeaf leaf' =>
      obtain rfl : leaf = leaf' := ValueTree.publicLeaf.inj same
      unfold dealValue
      exact Alike.pure _
    | _ => cases same
  | secretLeaf secret =>
    intro path w same succeeds succeeds'
    cases w with
    | secretLeaf secret' =>
      have outlines : secret.outline = secret'.outline := ValueTree.secretLeaf.inj same
      unfold dealValue at succeeds succeeds' ⊢
      apply (alike_secret fits h outlines succeeds.of_bind.1 succeeds'.of_bind.1).map
      intro x d d' agree
      rw [maskedAt, maskedAt, ValueTree.map, ValueTree.map, agree]
    | _ => cases same
  | array inner elements each =>
    intro path w same succeeds succeeds'
    cases w with
    | array inner' elements' =>
      rw [Value.outline, Value.outline, ValueTree.map, ValueTree.map, ValueTree.mapList_eq,
        ValueTree.mapList_eq] at same
      obtain ⟨rfl, outlines⟩ := ValueTree.array.inj same
      rw [bounds, ValueTree.leaves, ValueTree.leavesList_eq]
      unfold dealValue at succeeds succeeds' ⊢
      apply (alike_elements each outlines succeeds.of_bind.1 succeeds'.of_bind.1).map
      intro x ds ds' agree
      rw [maskedAt, maskedAt, ValueTree.map, ValueTree.map, ValueTree.mapList_eq,
        ValueTree.mapList_eq]
      exact congrArg _ agree
    | _ => cases same
  | tuple left right onLeft onRight =>
    intro path w same succeeds succeeds'
    cases w with
    | tuple left' right' =>
      obtain ⟨sameL, sameR⟩ := ValueTree.tuple.inj same
      unfold dealValue at succeeds succeeds' ⊢
      obtain ⟨succeedsL, l, others⟩ := succeeds.of_bind
      obtain ⟨succeedsL', l', others'⟩ := succeeds'.of_bind
      have alikeL := onLeft sameL succeedsL succeedsL'
      have alikeR := onRight sameR others.of_bind.1 others'.of_bind.1
      apply alikeL.map₂ alikeR
      intro x d d' e e' agree agree'
      rw [maskedAt, maskedAt, ValueTree.map, ValueTree.map]
      exact congrArg₂ _ agree agree'
    | _ => cases same

/-! ## Collections that are the same in public -/

theorem outline_eq_of_succeeds {v w : Value} (same : v.SameInPublic w) {path path' : Path}
    (succeeds : Succeeds (m.dealValue S path v)) (succeeds' : Succeeds (m.dealValue S' path' w)) :
    v.outline = w.outline := by
  obtain ⟨s, d, s₁, ran⟩ := succeeds
  obtain ⟨t, d', t₁, ran'⟩ := succeeds'
  exact Value.outline_eq (represents_of_dealValue ran).wellTyped
    (represents_of_dealValue ran').wellTyped same

section Collections

variable {values values' : NamedValues Value} (names : values.names = values'.names)
  (same : ∀ name v w, values.get? name = some v → values'.get? name = some w → v.SameInPublic w)
  (succeeds : Succeeds (m.deal S values)) (succeeds' : Succeeds (m.deal S' values'))
include same succeeds succeeds'

/-- Under one name values of one outline are dealt. -/
theorem outline_eq_of_deal {name : String} {v w : Value} (here : (name, v) ∈ values.toList)
    (there : (name, w) ∈ values'.toList) :
    v.outline = w.outline ∧ Succeeds (m.dealValue S (Path.ofName name) v) ∧
      Succeeds (m.dealValue S' (Path.ofName name) w) := by
  unfold deal at succeeds succeeds'
  have first := (succeeds.of_mapM _ here).of_bind.1
  have second := (succeeds'.of_mapM _ there).of_bind.1
  -- both values were dealt, so they are well-typed and their leaves show their outlines
  have agree := same name v w (NamedValues.mem_toList_iff.mp here)
    (NamedValues.mem_toList_iff.mp there)
  exact ⟨outline_eq_of_succeeds agree first second, first, second⟩

include names

/-- For collections that are the same in public as many numbers are drawn, below the same bounds. -/
theorem namedBounds_eq : m.namedBounds values = m.namedBounds values' := by
  have each : List.Forall₂ (fun e e' => e.1 = e'.1 ∧ m.bounds e.2 = m.bounds e'.2) values.toList
      values'.toList := by
    refine (forall₂_entries_iff (R := fun _ v w => m.bounds v = m.bounds w) values.nodup_names
      fun _ _ _ => Iff.rfl).mpr ⟨names, ?_⟩
    intro name v w here there
    exact bounds_eq_of_outline (outline_eq_of_deal same succeeds succeeds' here there).1
  have lists : values.toList.map (fun e => m.bounds e.2) =
      values'.toList.map fun e => m.bounds e.2 := by
    rw [← List.forall₂_eq_eq_eq, List.forall₂_map_left_iff, List.forall₂_map_right_iff]
    exact each.imp fun _ _ entries => entries.2
  rw [namedBounds, namedBounds, List.flatMap_def, List.flatMap_def, lists]

/-- Collections that are the same in public are dealt alike. -/
theorem alike_deal (fits : m.RosterFits) (h : m.Few abscissas) :
    Alike abscissas (fun x ds => ds.map fun e => (e.1, m.maskedAt x e.2)) (m.namedBounds values)
      (m.deal Sampler.tape.recording values) (m.deal Sampler.tape.recording values') := by
  let AlikeAt (name : String) (v w : Value) : Prop :=
    Alike abscissas m.maskedAt (m.bounds v)
      (m.dealValue Sampler.tape.recording (Path.ofName name) v)
      (m.dealValue Sampler.tape.recording (Path.ofName name) w)
  have each : List.Forall₂ (fun e e' => e.1 = e'.1 ∧ AlikeAt e.1 e.2 e'.2) values.toList
      values'.toList := by
    refine (forall₂_entries_iff values.nodup_names fun _ _ _ => Iff.rfl).mpr ⟨names, ?_⟩
    intro name v w here there
    obtain ⟨outlines, first, second⟩ := outline_eq_of_deal same succeeds succeeds' here there
    exact alike_value fits h outlines first second
  unfold deal namedBounds
  apply Alike.mapM
  apply each.imp
  rintro ⟨name, v⟩ ⟨name', w⟩ ⟨sameName, alike⟩
  obtain rfl : name = name' := sameName
  apply alike.map
  intro x d d' agree
  rw [agree]

end Collections

/-- The abscissas of parties of the roster among some parties. -/
def abscissasOf (m : Masker) (parties : Finset PartyId) : List Nat :=
  (m.roster.points.filter fun e => decide (e.1 ∈ parties)).map (·.2)

theorem few_abscissasOf {parties : Finset PartyId} (few : parties.card ≤ m.degree) :
    m.Few (m.abscissasOf parties) := by
  have sublist := List.filter_sublist (p := fun e => decide (e.1 ∈ parties))
    (l := m.roster.points)
  have distinct := (sublist.map (·.1)).nodup (m.roster.map_fst_points ▸ m.roster.nodup)
  have apart : (m.abscissasOf parties).Nodup := by
    unfold abscissasOf
    exact (sublist.map _).nodup m.roster.nodup_abscissas
  refine ⟨?_, apart, ?_⟩
  · refine le_trans ?_ few
    rw [abscissasOf, List.length_map, ← List.length_map (f := (·.1)),
      ← List.toFinset_card_of_nodup distinct]
    apply Finset.card_le_card
    intro p member
    obtain ⟨e, kept, rfl⟩ := List.mem_map.mp (List.mem_toFinset.mp member)
    simpa using (List.mem_filter.mp kept).2
  · intro x member
    obtain ⟨e, kept, rfl⟩ := List.mem_map.mp member
    exact Roster.abscissa?_bounds (Roster.abscissa?_eq_some_iff.mpr (List.mem_filter.mp kept).1)

theorem lookup_formed {β : Type} {form : Nat → β} {points : List (PartyId × Nat)} (p : PartyId) :
    (formed form points).lookup p = (points.lookup p).map form := by
  induction points with
  | nil => rfl
  | cons e rest ih =>
    rw [formed_cons, List.lookup_cons, List.lookup_cons]
    cases p == e.1 with
    | true => rfl
    | false => exact ih

theorem mem_abscissasOf {parties : Finset PartyId} {p : PartyId} (member : p ∈ parties) {x : Nat}
    (found : m.roster.points.lookup p = some x) : x ∈ m.abscissasOf parties := by
  have point : (p, x) ∈ m.roster.points :=
    (lookup_eq_some_iff_mem (m.roster.map_fst_points ▸ m.roster.nodup)).mp found
  exact List.mem_map.mpr ⟨(p, x), List.mem_filter.mpr ⟨point, by simpa using member⟩, rfl⟩

/-- The masking runs of collections that are the same in public are coupled, with draws below the
bounds of the first collection and results in which a few parties have the same bundles. -/
theorem exists_coupled_mask (fits : m.RosterFits) {values values' : NamedValues Value}
    (names : values.names = values'.names)
    (same : ∀ name v w, values.get? name = some v → values'.get? name = some w →
      v.SameInPublic w)
    (succeeds : Succeeds (m.mask S values)) (succeeds' : Succeeds (m.mask S' values'))
    {parties : Finset PartyId} (few : parties.card ≤ m.degree) :
    ∃ offsets : Offsets, offsets.bounds = m.namedBounds values ∧
      Coupled offsets (m.mask Sampler.tape.recording values)
        (m.mask Sampler.tape.recording values')
        fun bundles bundles' => ∀ p ∈ parties, bundles.lookup p = bundles'.lookup p := by
  obtain ⟨offsets, bounds, coupled⟩ := alike_deal names same succeeds.of_bind.1
    succeeds'.of_bind.1 fits (few_abscissasOf few)
  unfold mask
  refine ⟨offsets, bounds, coupled.bind_pure ?_⟩
  intro ds ds' agree p member
  show (formed (m.bundleAt · ds) m.roster.points).lookup p =
    (formed (m.bundleAt · ds') m.roster.points).lookup p
  rw [lookup_formed, lookup_formed]
  cases found : m.roster.points.lookup p with
  | none => rfl
  | some x =>
    have bundles : m.bundleAt x ds = m.bundleAt x ds' :=
      congrArg NamedValues.ofList (agree x (mem_abscissasOf member found))
    exact congrArg some bundles

/-- **Secrecy.** Take two collections that can be masked, have the same names in the same order, and
are the same in public. Both runs draw below the same bounds in the same order, all of them moduli
of the fields in use, and these are the bounds that are noted whatever the numbers come from.
Whatever is drawn for the first collection, at most as many parties as the degree receive the same
bundles for the second one from draws that correspond to it under a bijection. -/
theorem mask_hides_secrets (fits : m.RosterFits) {values values' : NamedValues Value}
    (names : values.names = values'.names)
    (same : ∀ name v w, values.get? name = some v → values'.get? name = some w →
      v.SameInPublic w)
    (succeeds : Succeeds (m.mask S values)) (succeeds' : Succeeds (m.mask S' values'))
    {parties : Finset PartyId} (few : parties.card ≤ m.degree) :
    m.namedBounds values = m.namedBounds values' ∧
      (∀ bound ∈ m.namedBounds values, ∃ kind, bound = (m.fieldOf kind).modulus ∧ 0 < bound) ∧
      Logs (m.mask S values) (m.mask S.recording values) (m.namedBounds values) ∧
      Logs (m.mask S' values') (m.mask S'.recording values') (m.namedBounds values') ∧
      Nonempty (Draws (m.namedBounds values)) ∧
      ∃ corresponding : Draws (m.namedBounds values) ≃ Draws (m.namedBounds values'),
        ∀ draws : Draws (m.namedBounds values), ∃ bundles bundles',
          Yields (m.mask Sampler.tape.recording values) draws.1 (m.namedBounds values) bundles ∧
          Yields (m.mask Sampler.tape.recording values') (corresponding draws).1
            (m.namedBounds values') bundles' ∧
          ∀ p ∈ parties, bundles.lookup p = bundles'.lookup p := by
  have together := namedBounds_eq names same succeeds.of_bind.1 succeeds'.of_bind.1
  obtain ⟨offsets, bounds, coupled⟩ := exists_coupled_mask fits names same succeeds succeeds' few
  refine ⟨together, fun bound => exists_kind_of_mem_namedBounds, logs_mask values,
    logs_mask values', nonempty_draws fun bound member => ?_, ?_⟩
  · obtain ⟨kind, -, positive⟩ := exists_kind_of_mem_namedBounds member
    exact positive
  · rw [← together, ← bounds]
    exact ⟨offsets.shiftEquiv, fun draws => coupled draws.1 draws.2⟩

/-- A collection that is the same in public as `trioValues`, with other secrets. -/
def trioDecoys : NamedValues Value := .ofList
  [("flag", .publicLeaf (.boolean true)),
    ("pair", .tuple (.secretLeaf (.scalar (.integer 7))) (.secretLeaf (.blob [9, 9, 9, 9]))),
    ("bits", .array (.secretLeaf (.scalar .boolean))
      [.secretLeaf (.scalar (.boolean false)), .secretLeaf (.scalar (.boolean false))])]

theorem succeeds_trioDecoys : Succeeds (trio.mask Sampler.tape trioDecoys) := by
  have dealt : @Eq (Except MaskError (List (String × Dealing)) × List Nat)
      ((trio.deal Sampler.tape trioDecoys).run [0, 0, 0, 0])
      (.ok [("flag", .publicLeaf (.boolean true)),
        ("pair", .tuple (.secretLeaf (.scalar .integer [7, 0]))
          (.secretLeaf (.blob [[0x9090909, 0]] 4))),
        ("bits", .array (.secretLeaf (.scalar .boolean))
          [.secretLeaf (.scalar .boolean [0, 0]), .secretLeaf (.scalar .boolean [0, 0])])], []) := by
    decide +kernel
  exact ⟨_, _, _, mask_of_deal dealt⟩

theorem trioDecoys_same :
    trioValues.names = trioDecoys.names ∧ ∀ name v w, trioValues.get? name = some v →
      trioDecoys.get? name = some w → v.SameInPublic w := by
  have each : List.Forall₂ (fun e e' => e.1 = e'.1 ∧ Value.SameInPublic e.2 e'.2)
      trioValues.toList trioDecoys.toList := by
    rw [trioValues, trioDecoys, NamedValues.toList_ofList (by decide),
      NamedValues.toList_ofList (by decide)]
    refine .cons ⟨rfl, ?_⟩ (.cons ⟨rfl, ?_⟩ (.cons ⟨rfl, ?_⟩ .nil))
    · exact ⟨by decide, by decide, by decide⟩
    · exact ⟨by decide, by decide, by decide⟩
    · exact ⟨by decide, by decide, by decide⟩
  obtain ⟨names, same⟩ := (forall₂_entries_iff trioValues.nodup_names
    (R := fun _ v w => Value.SameInPublic v w) fun _ _ _ => Iff.rfl).mp each
  exact ⟨names, fun name v w here there => same name v w (NamedValues.mem_toList_iff.mpr here)
    (NamedValues.mem_toList_iff.mpr there)⟩

theorem trio_hides_secrets :
    trio.namedBounds trioValues = List.replicate 4 trio.field.modulus ∧
      trio.namedBounds trioValues = trio.namedBounds trioDecoys ∧
      (∀ bound ∈ trio.namedBounds trioValues,
        ∃ kind, bound = (trio.fieldOf kind).modulus ∧ 0 < bound) ∧
      Logs (trio.mask Sampler.tape trioValues) (trio.mask Sampler.tape.recording trioValues)
        (trio.namedBounds trioValues) ∧
      Logs (trio.mask Sampler.tape trioDecoys) (trio.mask Sampler.tape.recording trioDecoys)
        (trio.namedBounds trioDecoys) ∧
      Nonempty (Draws (trio.namedBounds trioValues)) ∧
      ∃ corresponding : Draws (trio.namedBounds trioValues) ≃ Draws (trio.namedBounds trioDecoys),
        ∀ draws : Draws (trio.namedBounds trioValues), ∃ bundles bundles',
          Yields (trio.mask Sampler.tape.recording trioValues) draws.1
            (trio.namedBounds trioValues) bundles ∧
          Yields (trio.mask Sampler.tape.recording trioDecoys) (corresponding draws).1
            (trio.namedBounds trioDecoys) bundles' ∧
          ∀ p ∈ ({⟨[2]⟩} : Finset PartyId), bundles.lookup p = bundles'.lookup p := by
  refine ⟨by decide +kernel, ?_⟩
  exact mask_hides_secrets rosterFits_trio trioDecoys_same.1 trioDecoys_same.2
    ⟨_, _, _, mask_trioValues⟩ succeeds_trioDecoys (by decide)

end Masker
end ThresholdMask
