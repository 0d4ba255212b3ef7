import ThresholdMask.Masker.Basic
import ThresholdMask.Masker.Path

/-!
# Masking

Masking a collection has two parts. First every secret leaf is *dealt*: it is encoded in its field
and a random polynomial with the encoding as constant term is drawn for it, a blob chunk by chunk.
The result, a `Dealing`, is the value with polynomials at its secret leaves. Then the bundle of a
party is the dealing evaluated at the party's abscissa.

Leaves are dealt in depth-first order. An array element's type is checked before the element is
dealt, and numbers drawn before the first failure stay drawn.
-/

namespace ThresholdMask

/-! ## Errors -/

/-- Why a collection cannot be masked. -/
inductive MaskError where
  /-- The value at the path is not well-formed. -/
  | invalidValue (path : Path) (source : ValueError)
  /-- The secret at the path has no place in its field. -/
  | encoding (path : Path) (source : FieldError)
  deriving DecidableEq, Repr

/-- The text of the error. -/
def MaskError.message : MaskError → String
  | invalidValue path e => s!"'{path.render}' is not a well-formed value: {e.message}"
  | encoding path e => s!"cannot encode '{path.render}': {e.message}"

/-! ## Dealings -/

/-- A secret leaf for which polynomials are drawn. -/
inductive Dealt where
  | scalar (kind : ScalarKind) (polynomial : List Nat)
  /-- One polynomial per chunk, and the length of the blob. -/
  | blob (polynomials : List (List Nat)) (byteLength : Nat)
  deriving DecidableEq, Repr

instance : SecretLeaf Dealt where
  kind
    | .scalar kind _ => .scalar kind
    | .blob .. => .blob

/-- A value with polynomials at its secret leaves. -/
abbrev Dealing := ValueTree Dealt

/-- Encode a scalar in a field. -/
def SecretScalar.encode (F : PrimeField) : SecretScalar → Except FieldError Nat
  | integer v => F.encodeSigned v
  | unsignedInteger v => F.encodeUnsigned v
  | boolean v => .ok (PrimeField.encodeBool v)
  | ecdsaPrivateKey key => F.encodeKey key
  | eddsaPrivateKey key => F.encodeKey key

namespace Masker

/-- The share of a dealt leaf at an abscissa. -/
def shareAt (m : Masker) (x : Nat) : Dealt → Share
  | .scalar kind polynomial => .scalar kind ((m.fieldOf kind).evaluate polynomial x)
  | .blob polynomials size => .blob ⟨polynomials.map (m.field.evaluate · x), size⟩

/-- What the party at an abscissa holds of a value. -/
def maskedAt (m : Masker) (x : Nat) (dealing : Dealing) : MaskedValue := dealing.map (m.shareAt x)

/-- The bundle of the party at an abscissa. -/
def bundleAt (m : Masker) (x : Nat) (dealings : List (String × Dealing)) : Bundle :=
  NamedValues.ofList (dealings.map fun e => (e.1, m.maskedAt x e.2))

/-! ## Dealing -/

/-- Work that draws random numbers and may fail; what was drawn before a failure stays drawn. -/
abbrev Masking (σ : Type) := ExceptT MaskError (StateM σ)

variable {σ : Type}

/-- Draw the polynomial of an encoded secret; an encoding error is reported at the path. -/
def dealElement (m : Masker) (S : Sampler σ) (path : Path) (F : PrimeField)
    (encoded : Except FieldError Nat) : Masking σ (List Nat) :=
  match encoded with
  | .error e => throw (.encoding path e)
  | .ok secret => (m.sharer F).polynomial S secret

/-- Deal a secret leaf. -/
def dealSecret (m : Masker) (S : Sampler σ) (path : Path) : Secret → Masking σ Dealt
  | .scalar v => do
    let F := m.fieldOf v.kind
    return .scalar v.kind (← m.dealElement S path F (v.encode F))
  | .blob bytes => do
    let polynomials ← (bytes.chunks m.chunkSize).mapM fun chunk =>
      m.dealElement S path m.field (m.field.encodeChunk chunk)
    return .blob polynomials bytes.length

mutual

/-- Deal a value. -/
def dealValue (m : Masker) (S : Sampler σ) (path : Path) : Value → Masking σ Dealing
  | .publicLeaf leaf => return .publicLeaf leaf
  | .secretLeaf secret => return .secretLeaf (← m.dealSecret S path secret)
  | .array inner elements => return .array inner (← dealElements m S path inner 0 elements)
  | .tuple left right => do
    let left ← dealValue m S path.left left
    let right ← dealValue m S path.right right
    return .tuple left right

/-- Deal the elements of an array, at indices from `start`. -/
def dealElements (m : Masker) (S : Sampler σ) (path : Path) (inner : ValueType) (start : Nat) :
    List Value → Masking σ (List Dealing)
  | [] => return []
  | v :: rest => do
    if v.type ≠ inner then
      throw (.invalidValue (path.index start) (.arrayTypeMismatch start inner v.type))
    let dealing ← dealValue m S (path.index start) v
    let dealings ← dealElements m S path inner (start + 1) rest
    return dealing :: dealings

end

/-- Deal the values of a collection in order. -/
def deal (m : Masker) (S : Sampler σ) (values : NamedValues Value) :
    Masking σ (List (String × Dealing)) :=
  values.toList.mapM fun (name, v) => return (name, ← m.dealValue S (Path.ofName name) v)

/-- Mask a collection: one bundle per party, in roster order. -/
def mask (m : Masker) (S : Sampler σ) (values : NamedValues Value) :
    Masking σ (List (PartyId × Bundle)) := do
  let dealings ← m.deal S values
  return m.roster.points.map fun (p, x) => (p, m.bundleAt x dealings)

end Masker
end ThresholdMask
