import ThresholdMask.Settings.Overrides
import ThresholdMask.Toml.Document

/-!
# Settings as documents

Settings are written as a document with a table `masker` and an array of tables `parties`, one
table with an `id` for each party. Whatever is left out has its default, down to a whole table, and
keys that are not known are ignored.

As elsewhere in such documents, a table may also be given as the array of its values in order, of
which further ones are ignored, and a choice as a table with its name as only key.
-/

namespace ThresholdMask

namespace Toml.Value

/-! ## Reading values -/

/-- The values of named fields, where they are given. A date has none of them. -/
def fields? (names : List String) : Value → Option (List (Option Value))
  | table _ entries => some (names.map fun name => entries.lookup name)
  | array items => some (names.mapIdx fun i _ => items[i]?)
  | tables members => some (names.mapIdx fun i _ => members[i]?)
  | dateTime => some (names.map fun _ => none)
  | text _ | integer _ | float | boolean _ => none

/-- The items of an array. -/
def items? : Value → Option (List Value)
  | array items => some items
  | tables members => some members
  | _ => none

/-- The text. -/
def text? : Value → Option String
  | text s => some s
  | _ => none

/-- The boolean. -/
def boolean? : Value → Option Bool
  | boolean b => some b
  | _ => none

/-- A natural number below a bound. -/
def natural? (bound : Nat) : Value → Option Nat
  | integer n => if 0 ≤ n ∧ n.toNat < bound then some n.toNat else none
  | _ => none

/-- A table or an array without contents. -/
def isEmptyValue : Value → Bool
  | table _ entries => entries.isEmpty
  | array items => items.isEmpty
  | tables members => members.isEmpty
  | _ => false

/-- The name of a choice: a text, or the only key of a table, whose contents are empty. -/
def choiceName? : Value → Option String
  | text s => some s
  | table _ [(name, contents)] => if contents.isEmptyValue then some name else none
  | _ => none

end Toml.Value

namespace Settings

/-! ## Reading settings -/

/-- Read the choice of a prime. -/
def readPrime (v : Toml.Value) : Option SafePrime :=
  v.choiceName?.bind SafePrime.ofName?

/-- Read the choice of a key field. -/
def readKeyField (v : Toml.Value) : Option KeyField :=
  v.choiceName?.bind KeyField.ofName?

/-- Read the table `masker`; there are no parties yet. -/
def readMasker (v : Toml.Value) : Option Settings :=
  match v.fields? sectionNames with
  | some [prime, degree, kappa, full, ecdsa, eddsa] => do
    let prime ← orDefault leftOut.prime readPrime prime
    let degree ← orDefault leftOut.degree (Toml.Value.natural? degreeBound) degree
    let kappa ← orDefault leftOut.options.kappa (Toml.Value.natural? kappaBound) kappa
    let full ← orDefault leftOut.options.requireFullRoster Toml.Value.boolean? full
    let ecdsa ← orDefault leftOut.options.ecdsaKeyField readKeyField ecdsa
    let eddsa ← orDefault leftOut.options.eddsaKeyField readKeyField eddsa
    return { prime, degree, options := ⟨kappa, full, ecdsa, eddsa⟩, parties := [] }
  | _ => none

/-- In an empty table each setting is left out, and so it is read as if there were no table. -/
theorem readMasker_empty (form : Toml.TableForm) : readMasker (.table form []) = some default :=
  congrArg some leftOut_eq_default

/-- Read a party. -/
def readParty (v : Toml.Value) : Option String :=
  match v.fields? ["id"] with
  | some [some id] => id.text?
  | _ => none

/-- Read the parties. -/
def readParties (v : Toml.Value) : Option (List String) := do
  let items ← v.items?
  items.mapM readParty

/-- Read settings from a document that has been parsed. -/
def read (v : Toml.Value) : Option Settings :=
  match v.fields? ["masker", "parties"] with
  | some [masker, parties] => do
    let settings ← orDefault default readMasker masker
    let parties ← orDefault leftOut.parties readParties parties
    return { settings with parties }
  | _ => none

/-- Read settings from the text of a document. -/
def parse? (text : String) : Option Settings := (Toml.parse? text).bind read

/-- What is said of a text that gives no settings. -/
def parseFailure : String := "Failed to parse masker config"

/-! ## Writing settings -/

/-- A text between double quotes. Quotes and backslashes are escaped; control characters do not
occur in what is written. -/
def quoted (s : String) : String :=
  let body := s.toList.flatMap fun c => if c == '"' || c == '\\' then ['\\', c] else [c]
  "\"" ++ String.ofList body ++ "\""

/-- A line of a document. -/
def line (key value : String) : String := key ++ " = " ++ value ++ "\n"

/-- The lines of the table `masker`. -/
def renderMasker (s : Settings) : String :=
  "[masker]\n" ++ line "prime" (quoted s.prime.name) ++ line "degree" (toString s.degree) ++
    line "kappa" (toString s.options.kappa) ++
    line "require_full_roster" (toString s.options.requireFullRoster) ++
    line "ecdsa_key_field" (quoted s.options.ecdsaKeyField.name) ++
    line "eddsa_key_field" (quoted s.options.eddsaKeyField.name)

/-- The table of a party. -/
def renderParty (id : String) : String := "\n[[parties]]\n" ++ line "id" (quoted id)

/-- Write settings as a document, for people to read. Without parties, an empty array stands first.
A degree beyond the signed 64-bit range cannot be written. -/
def render? (s : Settings) : Option String :=
  if (s.degree : Int) ≤ Int64.maxValue.toInt then
    if s.parties.isEmpty then some (line "parties" "[]" ++ "\n" ++ s.renderMasker)
    else some (s.renderMasker ++ String.join (s.parties.map renderParty))
  else none

/-- A document with settings to start from. -/
def sampleDocument : String := sample.render?.getD ""

end Settings
end ThresholdMask
