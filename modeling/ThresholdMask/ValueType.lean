/-!
# Types of values

A value is a tree whose leaves are either *public*, held in clear by every party, or *secret*,
split into shares. The type of a value tells which: every kind of leaf is one or the other. An array
declares the type of its elements, and whether it is secret is decided by that declaration alone.
-/

namespace ThresholdMask

/-! ## Kinds of leaves -/

/-- Kinds of leaves that every party holds in clear. -/
inductive PublicKind where
  | integer
  | unsignedInteger
  | boolean
  | ecdsaDigestMessage
  | ecdsaSignature
  | ecdsaPublicKey
  | eddsaMessage
  | eddsaSignature
  | eddsaPublicKey
  | storeId
  deriving DecidableEq, Repr

/-- Kinds of secret leaves that are one field element. -/
inductive ScalarKind where
  | integer
  | unsignedInteger
  | boolean
  | ecdsaPrivateKey
  | eddsaPrivateKey
  deriving DecidableEq, Repr

/-- Kinds of secret leaves: one field element, or a byte string in chunks. -/
inductive SecretKind where
  | scalar (kind : ScalarKind)
  | blob
  deriving DecidableEq, Repr

/-- The name of a kind. -/
def PublicKind.name : PublicKind → String
  | integer => "Integer"
  | unsignedInteger => "UnsignedInteger"
  | boolean => "Boolean"
  | ecdsaDigestMessage => "EcdsaDigestMessage"
  | ecdsaSignature => "EcdsaSignature"
  | ecdsaPublicKey => "EcdsaPublicKey"
  | eddsaMessage => "EddsaMessage"
  | eddsaSignature => "EddsaSignature"
  | eddsaPublicKey => "EddsaPublicKey"
  | storeId => "StoreId"

/-- Every kind of public leaf. -/
def PublicKind.all : List PublicKind :=
  [integer, unsignedInteger, boolean, ecdsaDigestMessage, ecdsaSignature, ecdsaPublicKey,
    eddsaMessage, eddsaSignature, eddsaPublicKey, storeId]

/-- The name of a kind. -/
def SecretKind.name : SecretKind → String
  | scalar .integer => "SecretInteger"
  | scalar .unsignedInteger => "SecretUnsignedInteger"
  | scalar .boolean => "SecretBoolean"
  | scalar .ecdsaPrivateKey => "EcdsaPrivateKey"
  | scalar .eddsaPrivateKey => "EddsaPrivateKey"
  | blob => "SecretBlob"

/-- Every kind of secret leaf. -/
def SecretKind.all : List SecretKind :=
  [scalar .integer, scalar .unsignedInteger, scalar .boolean, blob, scalar .ecdsaPrivateKey,
    scalar .eddsaPrivateKey]

/-- The kind is a private key, shared in a field of its own. -/
def ScalarKind.isKey : ScalarKind → Bool
  | ecdsaPrivateKey | eddsaPrivateKey => true
  | integer | unsignedInteger | boolean => false

/-! ## Types -/

/-- The type of a value. -/
inductive ValueType where
  | publicLeaf (kind : PublicKind)
  | secretLeaf (kind : SecretKind)
  | array (inner : ValueType) (size : Nat)
  | tuple (left right : ValueType)
  deriving DecidableEq, Repr

namespace ValueType

/-- Some leaf of this type is split into shares; of an array, some leaf of its declared type. -/
def isSecret : ValueType → Bool
  | publicLeaf _ => false
  | secretLeaf _ => true
  | array inner _ => inner.isSecret
  | tuple left right => left.isSecret || right.isSecret

/-- Every leaf of this type is held in clear. -/
def isPublic (t : ValueType) : Bool := !t.isSecret

/-- The type is that of a private key. -/
def isPrivateKey : ValueType → Bool
  | secretLeaf (.scalar kind) => kind.isKey
  | publicLeaf _ | secretLeaf .blob | array .. | tuple .. => false

/-- Same form: the same kind of leaf, both arrays, or both tuples. -/
def sameKind : ValueType → ValueType → Bool
  | publicLeaf k, publicLeaf l => k == l
  | secretLeaf k, secretLeaf l => k == l
  | array .., array .. => true
  | tuple .., tuple .. => true
  | publicLeaf _, _ | secretLeaf _, _ | array .., _ | tuple .., _ => false

/-- The type as text. -/
def render : ValueType → String
  | publicLeaf kind => kind.name
  | secretLeaf kind => kind.name
  | array inner size => s!"Array<{inner.render}; {size}>"
  | tuple left right => s!"Tuple<{left.render}, {right.render}>"

theorem sameKind_refl (t : ValueType) : t.sameKind t = true := by
  cases t <;> simp [sameKind]

end ValueType
end ThresholdMask
