import ThresholdMask.Classification
import ThresholdMask.Field.SafePrime
import ThresholdMask.Masker.Options
import ThresholdMask.MaskedValue
import ThresholdMask.PartyJar
import ThresholdMask.Roster.Fingerprint
import ThresholdMask.Settings
import ThresholdMask.Shamir.Sharer

/-!
# Maskers

A masker is everything that masking and unmasking must agree on: a safe prime, the degree of the
polynomials, a roster with more parties than the degree, and options. Scalars and blobs are shared
in the field of the safe prime, private keys in the field that the options choose.

The *fingerprint* binds prime, degree, key fields and roster; a jar carries it, and only a masker
with the same fingerprint and roster opens the jar.
-/

namespace ThresholdMask

/-- What one party holds of a collection. -/
abbrev Bundle := NamedValues MaskedValue

/-- A jar of bundles. -/
abbrev BundleJar := PartyJar Bundle

/-- A prime, a degree, a roster with more parties than the degree, and options. -/
structure Masker where
  prime : SafePrime
  degree : Nat
  options : MaskerOptions
  roster : Roster
  degree_lt : degree < roster.size
  deriving DecidableEq, Repr

/-- Why there is no such masker. -/
inductive MaskerError where
  /-- The settings name no parties, or one that cannot be decoded. -/
  | settings (source : SettingsError)
  | roster (source : RosterError)
  | degree (source : InvalidDegree)
  deriving DecidableEq, Repr

/-- The text of the cause. -/
def MaskerError.cause : MaskerError → String
  | settings e => e.message
  | roster e => e.message
  | degree e => e.message

/-- The text of the error. -/
def MaskerError.message (e : MaskerError) : String :=
  s!"invalid masker configuration: {e.cause}"

namespace Masker

/-- Build a masker from a list of parties. -/
def ofParties (prime : SafePrime) (degree : Nat) (parties : List PartyId)
    (options : MaskerOptions) : Except MaskerError Masker :=
  match Roster.ofList parties with
  | .error e => .error (.roster e)
  | .ok roster =>
    if h : degree < roster.size then .ok ⟨prime, degree, options, roster, h⟩
    else .error (.degree ⟨degree, roster.size⟩)

/-- Build a masker from settings. -/
def ofSettings (s : Settings) : Except MaskerError Masker :=
  match s.partyIds with
  | .error e => .error (.settings e)
  | .ok parties => ofParties s.prime s.degree parties s.options

/-! ## Fields -/

/-- The field of the safe prime. -/
def field (m : Masker) : PrimeField := m.prime.field

/-- The field of a choice, given the field of the curve. -/
def keyField (m : Masker) (choice : KeyField) (curve : PrimeField) : PrimeField :=
  match choice with
  | .curve => curve
  | .masker => m.field

/-- The field in which ECDSA keys are shared. -/
def ecdsaKeyField (m : Masker) : PrimeField :=
  m.keyField m.options.ecdsaKeyField PrimeField.secp256k1Order

/-- The field in which EdDSA keys are shared. -/
def eddsaKeyField (m : Masker) : PrimeField :=
  m.keyField m.options.eddsaKeyField PrimeField.ed25519Order

/-- The field in which scalars of a kind are shared. -/
def fieldOf (m : Masker) : ScalarKind → PrimeField
  | .integer | .unsignedInteger | .boolean => m.field
  | .ecdsaPrivateKey => m.ecdsaKeyField
  | .eddsaPrivateKey => m.eddsaKeyField

/-- The sharer over a field. -/
def sharer (m : Masker) (F : PrimeField) : Sharer := ⟨F, m.degree, m.roster, m.degree_lt⟩

/-- The number of bundles that unmask. -/
def threshold (m : Masker) : Nat := m.degree + 1

/-- Bytes of a blob per field element. -/
def chunkSize (m : Masker) : Nat := m.field.chunkSize

/-! ## Jars -/

/-- The byte string that stands for prime, degree and key fields. -/
def bindingContext (m : Masker) : Bytes :=
  Bytes.ofText m.prime.name ++ Bytes.ofNatLE 8 m.degree ++
    [m.options.ecdsaKeyField.tag, m.options.eddsaKeyField.tag]

/-- The digest that binds prime, degree, key fields and roster. -/
def fingerprint (m : Masker) : FixedBytes 32 := m.roster.fingerprint m.bindingContext

/-- An empty jar for this masker's bundles. -/
def buildJar (m : Masker) : BundleJar := PartyJar.empty m.roster m.fingerprint

/-- Count what each party stores for a collection. -/
def classify (m : Masker) (values : NamedValues Value) : Classification :=
  Classification.ofNamed m.chunkSize values

end Masker
end ThresholdMask
