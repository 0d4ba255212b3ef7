import Mathlib
import ThresholdMask.Data.Records
import ThresholdMask.Data.Values
import ThresholdMask.Proofs.InsertionOrder

/-!
# What is written is read back

Reading undoes writing for every type that has a form in the data model, and therefore nothing is
written in the same way as something else (`ReadsBack`). The only condition is that sizes, counts
and degrees fit the width in which they are kept; values need not be well-typed.

Of written settings any fields may be left out whose contents are those of the default settings: the
whole record of the masker, any of its fields, the list of the parties (`Settings.Omits`). What is
left is still read as the settings that were written (`Settings.decode?_abridged`).
-/

namespace ThresholdMask

/-- What can be written is read back, and is written in a way of its own. -/
structure ReadsBack {α : Type} (write : α → Data) (read : Data → Option α) (writable : α → Prop) :
    Prop where
  read_write : ∀ x, writable x → read (write x) = some x
  injective : ∀ x y, writable x → writable y → write x = write y → x = y

/-- What is read back cannot have been written for anything else. -/
theorem ReadsBack.of_read {α : Type} {write : α → Data} {read : Data → Option α}
    {writable : α → Prop} (h : ∀ x, writable x → read (write x) = some x) :
    ReadsBack write read writable := by
  refine ⟨h, fun x y hx hy same => Option.some.inj ?_⟩
  calc some x = read (write x) := (h x hx).symm
    _ = read (write y) := by rw [same]
    _ = some y := h y hy

/-! ## Collections -/

namespace NamedValues

variable {σ : Type} [SecretForm σ]

/-- Every size in every value can be written. -/
def Writable (m : NamedValues (ValueTree σ)) : Prop := ∀ e ∈ m.toList, e.2.Writable

theorem Writable.decode?_encode {m : NamedValues (ValueTree σ)} (h : m.Writable) :
    NamedValues.decode? m.encode = some m :=
  NamedValues.decode?_encode fun e member => ValueTree.decode?_encode (h e member)

end NamedValues

/-! ## Leaving out fields -/

namespace Data

/-- The contents of a field of a record. -/
def field? (name : String) : Data → Option Data
  | record fields => fields.lookup name
  | _ => none

/-- The record without the fields of these names. -/
def without (names : List String) : Data → Data
  | record fields => record (fields.filter fun field => !names.contains field.1)
  | d => d

/-- The record with the contents of the fields of a name changed. -/
def within (name : String) (change : Data → Data) : Data → Data
  | record fields => record (fields.map fun field =>
      if field.1 = name then (field.1, change field.2) else field)
  | d => d

theorem lookup_filter_not_contains (names : List String) (fields : List (String × Data))
    (name : String) :
    (fields.filter fun field => !names.contains field.1).lookup name =
      if name ∈ names then none else fields.lookup name := by
  induction fields with
  | nil => simp
  | cons field rest ih =>
    obtain ⟨key, contents⟩ := field
    by_cases dropped : key ∈ names
    · rw [List.filter_cons_of_neg (by simpa using dropped), ih, lookup_cons_eq_ite]
      by_cases same : name = key
      · rw [if_pos (same ▸ dropped), if_pos (same ▸ dropped)]
      · rw [if_neg same]
    · rw [List.filter_cons_of_pos (by simpa using dropped), lookup_cons_eq_ite,
        lookup_cons_eq_ite, ih]
      by_cases same : name = key
      · subst same
        rw [if_pos rfl, if_neg dropped, if_pos rfl]
      · rw [if_neg same, if_neg same]

/-- Of the fields that are left out none are given. -/
theorem givenFields?_without (names left : List String) (fields : List (String × Data)) :
    ((record fields).without left).givenFields? names =
      some (names.map fun name => if name ∈ left then none else fields.lookup name) := by
  simp only [without, givenFields?, lookup_filter_not_contains]

end Data

namespace Settings

/-- A part that is left out only where it has the default is read as what was written. -/
theorem orDefault_ite {α : Type} {default v : α} {read : Data → Option α} {d e : Data} {p : Prop}
    [Decidable p] (reads : read d = some v) (readsDefault : read e = some default)
    (same : p → some d = some e) :
    orDefault default read (if p then none else some d) = some v := by
  by_cases omitted : p
  · rw [if_pos omitted, orDefault, ← readsDefault, ← Option.some.inj (same omitted), reads]
  · rw [if_neg omitted, orDefault, reads]

/-- Written settings without some of the fields, and without some fields of the masker's record. -/
def abridged (s : Settings) (outer inner : List String) : Data :=
  ((DataForm.encode s).within "masker" (·.without inner)).without outer

/-- The contents of the fields are those of the default settings. -/
structure Omits (s : Settings) (outer inner : List String) : Prop where
  outer_eq : ∀ name ∈ outer,
    (DataForm.encode s).field? name = (DataForm.encode (default : Settings)).field? name
  inner_eq : ∀ name ∈ inner,
    s.encodeSection.field? name = (default : Settings).encodeSection.field? name

theorem writable_default : (default : Settings).Writable := ⟨by decide, by decide⟩

theorem decodeSection?_without {s : Settings} (h : s.Writable) {left : List String}
    (same : ∀ name ∈ left,
      s.encodeSection.field? name = (default : Settings).encodeSection.field? name) :
    decodeSection? (s.encodeSection.without left) = some { s with parties := [] } := by
  have given : (s.encodeSection.without left).givenFields? sectionNames =
      some [if "prime" ∈ left then none else some (DataForm.encode s.prime),
        if "degree" ∈ left then none else some (.natural s.degree),
        if "kappa" ∈ left then none else some (.natural s.options.kappa),
        if "require_full_roster" ∈ left then none else
          some (.boolean s.options.requireFullRoster),
        if "ecdsa_key_field" ∈ left then none else some (DataForm.encode s.options.ecdsaKeyField),
        if "eddsa_key_field" ∈ left then none else
          some (DataForm.encode s.options.eddsaKeyField)] :=
    Data.givenFields?_without sectionNames left _
  have defaults := writable_default
  unfold decodeSection?
  rw [given, leftOut_eq_default]
  -- field by field, in the order of reading
  refine Option.bind_eq_some_iff.mpr ⟨_, orDefault_ite s.prime.decode?_encode
    (default : Settings).prime.decode?_encode (same _), ?_⟩
  refine Option.bind_eq_some_iff.mpr ⟨_, orDefault_ite (Data.natural?_natural h.degree_lt)
    (Data.natural?_natural defaults.degree_lt) (same _), ?_⟩
  refine Option.bind_eq_some_iff.mpr ⟨_, orDefault_ite (Data.natural?_natural h.kappa_lt)
    (Data.natural?_natural defaults.kappa_lt) (same _), ?_⟩
  refine Option.bind_eq_some_iff.mpr ⟨_, orDefault_ite
    (rfl : Data.boolean? (.boolean s.options.requireFullRoster) = _)
    (rfl : Data.boolean? (.boolean (default : Settings).options.requireFullRoster) = _)
    (same _), ?_⟩
  refine Option.bind_eq_some_iff.mpr ⟨_, orDefault_ite s.options.ecdsaKeyField.decode?_encode
    (default : Settings).options.ecdsaKeyField.decode?_encode (same _), ?_⟩
  refine Option.bind_eq_some_iff.mpr ⟨_, orDefault_ite s.options.eddsaKeyField.decode?_encode
    (default : Settings).options.eddsaKeyField.decode?_encode (same _), ?_⟩
  rfl

theorem decodeParties?_map_encodeParty (ids : List String) :
    decodeParties? (.list (ids.map encodeParty)) = some ids :=
  Data.mapM_map_eq_some fun _ _ => rfl

/-- Settings are read back from what is left of them. -/
theorem decode?_abridged {s : Settings} (h : s.Writable) {outer inner : List String}
    (omits : s.Omits outer inner) : DataForm.decode? (s.abridged outer inner) = some s := by
  have given : (s.abridged outer inner).givenFields? ["masker", "parties"] =
      some [if "masker" ∈ outer then none else some (s.encodeSection.without inner),
        if "parties" ∈ outer then none else some (.list (s.parties.map encodeParty))] :=
    Data.givenFields?_without ["masker", "parties"] outer _
  simp only [DataForm.decode?, given]
  -- the masker's record is left out, if at all, where it is that of the default settings
  have section_eq : "masker" ∈ outer → some (s.encodeSection.without inner) =
      some ((default : Settings).encodeSection.without inner) := fun omitted =>
    congrArg (Option.map (Data.without inner)) (omits.outer_eq _ omitted)
  refine Option.bind_eq_some_iff.mpr ⟨_, orDefault_ite (decodeSection?_without h omits.inner_eq)
    (decodeSection?_without writable_default fun _ _ => rfl) section_eq, ?_⟩
  refine Option.bind_eq_some_iff.mpr ⟨_, orDefault_ite (decodeParties?_map_encodeParty s.parties)
    (decodeParties?_map_encodeParty []) (omits.outer_eq _), ?_⟩
  rfl

end Settings

/-- **Reading back.** Values and shares however they are put together, types, collections of both,
identifiers, numbers, counts, primes and settings are read back as what was written, and no two of
one type are written in the same way. Collections keep the order of their entries and an index that
finds every name. Settings may be written without any fields whose contents are the default ones. -/
theorem written_reads_back :
    ReadsBack (DataForm.encode : Value → Data) DataForm.decode? ValueTree.Writable ∧
    ReadsBack (DataForm.encode : MaskedValue → Data) DataForm.decode? ValueTree.Writable ∧
    ReadsBack (DataForm.encode : ValueType → Data) DataForm.decode? ValueType.Writable ∧
    ReadsBack (DataForm.encode : NamedValues Value → Data) DataForm.decode? NamedValues.Writable ∧
    (∀ values : NamedValues Value, values.Writable → ∃ read : NamedValues Value,
      DataForm.decode? (DataForm.encode values) = some read ∧ read.toList = values.toList ∧
        read.Aligned) ∧
    ReadsBack (DataForm.encode : NamedValues MaskedValue → Data) DataForm.decode?
      NamedValues.Writable ∧
    (∀ bundle : NamedValues MaskedValue, bundle.Writable → ∃ read : NamedValues MaskedValue,
      DataForm.decode? (DataForm.encode bundle) = some read ∧ read.toList = bundle.toList ∧
        read.Aligned) ∧
    ReadsBack (DataForm.encode : PartyId → Data) DataForm.decode? (fun _ => True) ∧
    ReadsBack Data.encodeNatural Data.decodeNatural? (fun _ => True) ∧
    ReadsBack (DataForm.encode : Classification → Data) DataForm.decode? Classification.Writable ∧
    ReadsBack (DataForm.encode : SafePrime → Data) DataForm.decode? (fun _ => True) ∧
    ReadsBack (DataForm.encode : Settings → Data) DataForm.decode? Settings.Writable ∧
    (∀ (s : Settings) (outer inner : List String), s.Writable → s.Omits outer inner →
      DataForm.decode? (s.abridged outer inner) = some s) ∧
    ∀ (s s' : Settings) (outer inner outer' inner' : List String), s.Writable → s'.Writable →
      s.Omits outer inner → s'.Omits outer' inner' →
        s.abridged outer inner = s'.abridged outer' inner' → s = s' := by
  refine ⟨.of_read fun _ => ValueTree.decode?_encode, .of_read fun _ => ValueTree.decode?_encode,
    .of_read ValueType.decode?_encode, .of_read fun _ h => h.decode?_encode,
    fun values h => ⟨values, h.decode?_encode, rfl, values.aligned⟩,
    .of_read fun _ h => h.decode?_encode,
    fun bundle h => ⟨bundle, h.decode?_encode, rfl, bundle.aligned⟩,
    .of_read fun p _ => p.decode?_encode, .of_read fun n _ => Data.decodeNatural?_encodeNatural n,
    .of_read fun _ => Classification.decode?_encode, .of_read fun p _ => p.decode?_encode,
    .of_read fun _ => Settings.decode?_encode,
    fun s _ _ h omits => Settings.decode?_abridged h omits, ?_⟩
  intro s s' outer inner outer' inner' h h' omits omits' same
  apply Option.some.inj
  calc some s = DataForm.decode? (s.abridged outer inner) :=
        (Settings.decode?_abridged h omits).symm
    _ = DataForm.decode? (s'.abridged outer' inner') := by rw [same]
    _ = some s' := Settings.decode?_abridged h' omits'

/-- An array that is declared to hold booleans and holds a tuple. -/
def oddValue : Value :=
  .array (.publicLeaf .boolean)
    [.tuple (.publicLeaf (.integer (-5))) (.secretLeaf (.blob [1, 2]))]

/-- Settings that differ from the default ones in two options. -/
def strictSettings : Settings :=
  { (default : Settings) with options := { kappa := 41, requireFullRoster := true } }

theorem odd_and_strict_read_back : oddValue.Writable ∧
    DataForm.decode? (DataForm.encode oddValue) = some oddValue ∧
    strictSettings.Writable ∧ strictSettings.Omits ["parties"]
      ["prime", "degree", "ecdsa_key_field", "eddsa_key_field"] ∧
    DataForm.decode? (.record [("masker",
      .record [("kappa", .natural 41), ("require_full_roster", .boolean true)])]) =
        some strictSettings := by
  obtain ⟨values, -, -, -, -, -, -, -, -, -, -, -, abridged, -⟩ := written_reads_back
  have odd : oddValue.Writable := by
    refine .array _ _ trivial fun e member => ?_
    rw [List.mem_singleton.mp member]
    exact .tuple _ _ (.publicLeaf _) (.secretLeaf _ trivial)
  have strict : strictSettings.Writable := ⟨by decide, by decide⟩
  have omits : strictSettings.Omits ["parties"]
      ["prime", "degree", "ecdsa_key_field", "eddsa_key_field"] := by
    refine ⟨fun name member => ?_, fun name member => ?_⟩
    · rw [List.mem_singleton.mp member]
      rfl
    · simp only [List.mem_cons, List.not_mem_nil, or_false] at member
      rcases member with rfl | rfl | rfl | rfl <;> rfl
  exact ⟨odd, values.read_write oddValue odd, strict, omits, abridged _ _ _ strict omits⟩

end ThresholdMask
