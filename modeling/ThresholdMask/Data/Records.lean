import ThresholdMask.Classification
import ThresholdMask.Data.Numbers
import ThresholdMask.Party
import ThresholdMask.Settings.Overrides

/-!
# Identifiers, counts and settings as data

A party identifier is its bytes, a choice of a prime or a key field its name, a classification the
record of its counts. Settings are a record of the masker's own settings and the parties; everything
that is left out, down to the whole record, has its default.

Reading gives back what was written, as long as numbers fit their width: `PartyId.decode?_encode`,
`Classification.decode?_encode`, `Settings.decode?_encode`.
-/

namespace ThresholdMask

/-! ## Identifiers and choices -/

instance : DataForm PartyId where
  encode p := Data.encodeBytes p.bytes
  decode? d := (Data.decodeBytes? d).map PartyId.mk

theorem PartyId.decode?_encode (p : PartyId) : DataForm.decode? (DataForm.encode p) = some p := by
  simp [DataForm.encode, DataForm.decode?, Data.decodeBytes?_encodeBytes]

namespace SafePrime

instance : DataForm SafePrime where
  encode p := .text p.name
  decode? d := d.choiceName?.bind ofName?

theorem decode?_encode (p : SafePrime) : DataForm.decode? (DataForm.encode p) = some p := by
  cases p <;> rfl

end SafePrime

namespace KeyField

instance : DataForm KeyField where
  encode k := .text k.name
  decode? d := d.choiceName?.bind ofName?

theorem decode?_encode (k : KeyField) : DataForm.decode? (DataForm.encode k) = some k := by
  cases k <;> rfl

end KeyField

/-! ## Counts -/

namespace Classification

/-- One more than the largest count that can be written. -/
def countBound : Nat := UInt64.size

/-- The names of the counts, in the order in which they are written. -/
def countNames : List String :=
  ["shares", "public", "ecdsa_private_key_shares", "eddsa_private_key_shares"]

instance : DataForm Classification where
  encode c :=
    .record [("shares", .natural c.shares), ("public", .natural c.publicLeaves),
      ("ecdsa_private_key_shares", .natural c.ecdsaKeyShares),
      ("eddsa_private_key_shares", .natural c.eddsaKeyShares)]
  decode? d :=
    match d.fields? countNames with
    | some [shares, leaves, ecdsa, eddsa] => do
      let shares ← shares.natural? countBound
      let leaves ← leaves.natural? countBound
      let ecdsa ← ecdsa.natural? countBound
      let eddsa ← eddsa.natural? countBound
      return ⟨shares, leaves, ecdsa, eddsa⟩
    | _ => none

/-- Every count can be written. -/
structure Writable (c : Classification) : Prop where
  shares_lt : c.shares < countBound
  publicLeaves_lt : c.publicLeaves < countBound
  ecdsaKeyShares_lt : c.ecdsaKeyShares < countBound
  eddsaKeyShares_lt : c.eddsaKeyShares < countBound

theorem decode?_encode {c : Classification} (h : c.Writable) :
    DataForm.decode? (DataForm.encode c) = some c := by
  have fields : (DataForm.encode c).fields? countNames =
      some [.natural c.shares, .natural c.publicLeaves, .natural c.ecdsaKeyShares,
        .natural c.eddsaKeyShares] := rfl
  simp only [DataForm.decode?, fields]
  simp [Data.natural?_natural h.shares_lt, Data.natural?_natural h.publicLeaves_lt,
    Data.natural?_natural h.ecdsaKeyShares_lt, Data.natural?_natural h.eddsaKeyShares_lt]

end Classification

/-! ## Settings -/

namespace Settings

/-- Write the masker's settings. -/
def encodeSection (s : Settings) : Data :=
  .record [("prime", DataForm.encode s.prime), ("degree", .natural s.degree),
    ("kappa", .natural s.options.kappa),
    ("require_full_roster", .boolean s.options.requireFullRoster),
    ("ecdsa_key_field", DataForm.encode s.options.ecdsaKeyField),
    ("eddsa_key_field", DataForm.encode s.options.eddsaKeyField)]

/-- Read the masker's settings; there are no parties yet. -/
def decodeSection? (d : Data) : Option Settings :=
  match d.givenFields? sectionNames with
  | some [prime, degree, kappa, full, ecdsa, eddsa] => do
    let prime ← orDefault leftOut.prime DataForm.decode? prime
    let degree ← orDefault leftOut.degree (Data.natural? degreeBound) degree
    let kappa ← orDefault leftOut.options.kappa (Data.natural? kappaBound) kappa
    let full ← orDefault leftOut.options.requireFullRoster Data.boolean? full
    let ecdsa ← orDefault leftOut.options.ecdsaKeyField DataForm.decode? ecdsa
    let eddsa ← orDefault leftOut.options.eddsaKeyField DataForm.decode? eddsa
    return { prime, degree, options := ⟨kappa, full, ecdsa, eddsa⟩, parties := [] }
  | _ => none

/-- Write a party. -/
def encodeParty (id : String) : Data := .record [("id", .text id)]

/-- Read a party. -/
def decodeParty? (d : Data) : Option String :=
  match d.fields? ["id"] with
  | some [.text id] => some id
  | _ => none

/-- Read the list of parties. -/
def decodeParties? : Data → Option (List String)
  | .list items => items.mapM decodeParty?
  | _ => none

instance : DataForm Settings where
  encode s :=
    .record [("masker", s.encodeSection), ("parties", .list (s.parties.map encodeParty))]
  decode? d :=
    match d.givenFields? ["masker", "parties"] with
    | some [masker, parties] => do
      let settings ← orDefault default decodeSection? masker
      let parties ← orDefault leftOut.parties decodeParties? parties
      return { settings with parties }
    | _ => none

/-- Of an empty record each field is left out, and so it is read as if there were no record. -/
theorem decodeSection?_empty : decodeSection? (.record []) = some default :=
  congrArg some leftOut_eq_default

/-- Every number can be written. -/
structure Writable (s : Settings) : Prop where
  degree_lt : s.degree < degreeBound
  kappa_lt : s.options.kappa < kappaBound

theorem decodeSection?_encodeSection {s : Settings} (h : s.Writable) :
    decodeSection? s.encodeSection = some { s with parties := [] } := by
  have fields : s.encodeSection.givenFields? sectionNames =
      some [some (DataForm.encode s.prime), some (.natural s.degree),
        some (.natural s.options.kappa), some (.boolean s.options.requireFullRoster),
        some (DataForm.encode s.options.ecdsaKeyField),
        some (DataForm.encode s.options.eddsaKeyField)] := rfl
  simp [decodeSection?, fields, orDefault, SafePrime.decode?_encode, KeyField.decode?_encode,
    Data.natural?_natural h.degree_lt, Data.natural?_natural h.kappa_lt, Data.boolean?]

theorem decode?_encode {s : Settings} (h : s.Writable) :
    DataForm.decode? (DataForm.encode s) = some s := by
  have parties : (s.parties.map encodeParty).mapM decodeParty? = some s.parties :=
    Data.mapM_map_eq_some fun id _ => rfl
  have fields : (DataForm.encode s).givenFields? ["masker", "parties"] =
      some [some s.encodeSection, some (.list (s.parties.map encodeParty))] := rfl
  simp only [DataForm.decode?, fields]
  simp [orDefault, decodeSection?_encodeSection h, decodeParties?, parties]

end Settings
end ThresholdMask
