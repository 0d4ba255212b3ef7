import ThresholdMask.Bytes.Hex
import ThresholdMask.Field.Encoding
import ThresholdMask.ValueTree

/-!
# Clear values

A `Value` is what is masked and what unmasking gives back. The functions of the section on checked
construction build values that a masker accepts as far as their form goes: arrays of one element
type, private keys and signature components that are not zero, byte strings of the right length.

As text, key material is never shown.
-/

namespace ThresholdMask

/-! ## Values -/

/-- A secret leaf that is shared as one field element. -/
inductive SecretScalar where
  | integer (v : Int)
  | unsignedInteger (v : Nat)
  | boolean (v : Bool)
  | ecdsaPrivateKey (key : FixedBytes keySize)
  | eddsaPrivateKey (key : FixedBytes keySize)
  deriving DecidableEq, Repr

/-- The kind of a scalar. -/
def SecretScalar.kind : SecretScalar → ScalarKind
  | integer _ => .integer
  | unsignedInteger _ => .unsignedInteger
  | boolean _ => .boolean
  | ecdsaPrivateKey _ => .ecdsaPrivateKey
  | eddsaPrivateKey _ => .eddsaPrivateKey

/-- A secret leaf in clear. -/
inductive Secret where
  | scalar (v : SecretScalar)
  | blob (bytes : Bytes)
  deriving DecidableEq, Repr

instance : SecretLeaf Secret where
  kind
    | .scalar v => .scalar v.kind
    | .blob _ => .blob

/-- A clear value. -/
abbrev Value := ValueTree Secret

/-! ## Text -/

/-- The contents of a leaf as text. -/
def PublicLeaf.contents : PublicLeaf → String
  | integer v => toString v
  | unsignedInteger v => toString v
  | boolean v => toString v
  | ecdsaDigestMessage digest => Hex.encode digest.val
  | ecdsaSignature s => s!"r={Hex.encode s.r}, s={Hex.encode s.s}"
  | ecdsaPublicKey key => Hex.encode key.val
  | eddsaMessage message => Hex.encode message
  | eddsaSignature s => s!"r={Hex.encode s.r}, s={Hex.encode s.s}"
  | eddsaPublicKey key => Hex.encode key.val
  | storeId id => Hex.encode id.val

/-- The contents of a secret as text; keys are not shown. -/
def Secret.contents : Secret → String
  | scalar (.integer v) => toString v
  | scalar (.unsignedInteger v) => toString v
  | scalar (.boolean v) => toString v
  | scalar (.ecdsaPrivateKey _) => ".."
  | scalar (.eddsaPrivateKey _) => ".."
  | blob bytes => Hex.encode bytes

namespace Value

mutual

/-- The value as text. -/
def render : Value → String
  | .publicLeaf leaf => s!"{leaf.kind.name}({leaf.contents})"
  | .secretLeaf secret => s!"{(SecretLeaf.kind secret).name}({secret.contents})"
  | .array _ elements => "Array(" ++ String.intercalate ", " (renderList elements) ++ ")"
  | .tuple left right => s!"Tuple({render left}, {render right})"

/-- The values of a list as texts. -/
def renderList : List Value → List String
  | [] => []
  | v :: rest => render v :: renderList rest

end
end Value

/-! ## Checked construction -/

/-- The kinds of byte strings of a fixed length. -/
inductive FixedKind where
  | ecdsaPrivateKey
  | eddsaPrivateKey
  | ecdsaDigestMessage
  | ecdsaPublicKey
  | eddsaPublicKey
  | storeId
  deriving DecidableEq, Repr

/-- The name of a kind in messages. -/
def FixedKind.name : FixedKind → String
  | ecdsaPrivateKey => "ecdsa private key"
  | eddsaPrivateKey => "eddsa private key"
  | ecdsaDigestMessage => "ecdsa digest message"
  | ecdsaPublicKey => "ecdsa public key"
  | eddsaPublicKey => "eddsa public key"
  | storeId => "store id"

/-- The two components of a signature. -/
inductive SignatureComponent where
  | r
  | s
  deriving DecidableEq, Repr

/-- The name of a component in messages. -/
def SignatureComponent.name : SignatureComponent → String
  | r => "r"
  | s => "s"

/-- Why a value cannot be built. -/
inductive ValueError where
  | arrayTypeMismatch (index : Nat) (expected found : ValueType)
  | zeroPrivateKey
  | invalidLength (kind : FixedKind) (expected got : Nat)
  | zeroSignatureComponent (component : SignatureComponent)
  deriving DecidableEq, Repr

/-- The text of the error. -/
def ValueError.message : ValueError → String
  | arrayTypeMismatch i expected found =>
    s!"array element {i} has type {found.render}, expected {expected.render}"
  | zeroPrivateKey => "private key is zero"
  | invalidLength kind expected got =>
    s!"{kind.name} must be exactly {expected} bytes long, got {got}"
  | zeroSignatureComponent c => s!"signature component {c.name} is zero"

/-- Take bytes as a string of fixed length. -/
def FixedKind.fixed (kind : FixedKind) (n : Nat) (b : Bytes) : Except ValueError (FixedBytes n) :=
  if h : b.length = n then .ok ⟨b, h⟩ else .error (.invalidLength kind n b.length)

/-- A signature of components that are not zero; the empty string is zero. -/
def Signature.ofComponents (r s : Bytes) : Except ValueError Signature :=
  if r.isZero then .error (.zeroSignatureComponent .r)
  else if s.isZero then .error (.zeroSignatureComponent .s)
  else .ok ⟨r, s⟩

namespace Value

/-- The first element of a list, at positions from `start`, whose type is another one. -/
def firstOther? (inner : ValueType) (start : Nat) : List Value → Option (Nat × ValueType)
  | [] => none
  | v :: rest =>
    if v.type = inner then firstOther? inner (start + 1) rest else some (start, v.type)

/-- An array of elements of one type. -/
def ofElements (inner : ValueType) (elements : List Value) : Except ValueError Value :=
  match firstOther? inner 0 elements with
  | some (i, found) => .error (.arrayTypeMismatch i inner found)
  | none => .ok (.array inner elements)

/-- An ECDSA private key other than zero. -/
def ofEcdsaPrivateKey (key : FixedBytes keySize) : Except ValueError Value :=
  if Bytes.isZero key.val then .error .zeroPrivateKey
  else .ok (.secretLeaf (.scalar (.ecdsaPrivateKey key)))

/-- An EdDSA private key other than zero. -/
def ofEddsaPrivateKey (key : FixedBytes keySize) : Except ValueError Value :=
  if Bytes.isZero key.val then .error .zeroPrivateKey
  else .ok (.secretLeaf (.scalar (.eddsaPrivateKey key)))

/-- An ECDSA private key from bytes of any length. -/
def ofEcdsaPrivateKeyBytes (b : Bytes) : Except ValueError Value :=
  FixedKind.ecdsaPrivateKey.fixed keySize b >>= ofEcdsaPrivateKey

/-- An EdDSA private key from bytes of any length. -/
def ofEddsaPrivateKeyBytes (b : Bytes) : Except ValueError Value :=
  FixedKind.eddsaPrivateKey.fixed keySize b >>= ofEddsaPrivateKey

/-- A digest to be signed from bytes of any length. -/
def ofEcdsaDigestBytes (b : Bytes) : Except ValueError Value :=
  (FixedKind.ecdsaDigestMessage.fixed digestSize b).map (.publicLeaf <| .ecdsaDigestMessage ·)

/-- A compressed secp256k1 point from bytes of any length. -/
def ofEcdsaPublicKeyBytes (b : Bytes) : Except ValueError Value :=
  (FixedKind.ecdsaPublicKey.fixed ecdsaPublicKeySize b).map (.publicLeaf <| .ecdsaPublicKey ·)

/-- An ed25519 point from bytes of any length. -/
def ofEddsaPublicKeyBytes (b : Bytes) : Except ValueError Value :=
  (FixedKind.eddsaPublicKey.fixed eddsaPublicKeySize b).map (.publicLeaf <| .eddsaPublicKey ·)

/-- A store identifier from bytes of any length. -/
def ofStoreIdBytes (b : Bytes) : Except ValueError Value :=
  (FixedKind.storeId.fixed storeIdSize b).map (.publicLeaf <| .storeId ·)

/-- An ECDSA signature from its components. -/
def ofEcdsaSignature (r s : Bytes) : Except ValueError Value :=
  (Signature.ofComponents r s).map (.publicLeaf <| .ecdsaSignature ·)

/-- An EdDSA signature from its components. -/
def ofEddsaSignature (r s : Bytes) : Except ValueError Value :=
  (Signature.ofComponents r s).map (.publicLeaf <| .eddsaSignature ·)

end Value
end ThresholdMask
