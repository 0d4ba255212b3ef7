import ThresholdMask.Bytes
import ThresholdMask.ValueType

/-!
# Trees of values

`ValueTree σ` is the common form of all values: public leaves, secret leaves of some type `σ`,
arrays that declare the type of their elements, and tuples. With clear secrets at the leaves it is a
value, with shares a masked value.

Nothing forces the elements of an array to have its declared type; `WellTyped` says that they do, at
every depth.
-/

namespace ThresholdMask

/-! ## Public leaves -/

/-- Bytes of a digest that is to be signed. -/
abbrev digestSize : Nat := 32

/-- Bytes of a compressed secp256k1 point. -/
abbrev ecdsaPublicKeySize : Nat := 33

/-- Bytes of an ed25519 point. -/
abbrev eddsaPublicKeySize : Nat := 32

/-- Bytes of a store identifier. -/
abbrev storeIdSize : Nat := 16

/-- A signature: two numbers, most significant byte first. -/
structure Signature where
  r : Bytes
  s : Bytes
  deriving DecidableEq, Repr

/-- A leaf that every party holds in clear. -/
inductive PublicLeaf where
  | integer (v : Int)
  | unsignedInteger (v : Nat)
  | boolean (v : Bool)
  | ecdsaDigestMessage (digest : FixedBytes digestSize)
  | ecdsaSignature (signature : Signature)
  | ecdsaPublicKey (key : FixedBytes ecdsaPublicKeySize)
  | eddsaMessage (message : Bytes)
  | eddsaSignature (signature : Signature)
  | eddsaPublicKey (key : FixedBytes eddsaPublicKeySize)
  | storeId (id : FixedBytes storeIdSize)
  deriving DecidableEq, Repr

/-- The kind of a leaf. -/
def PublicLeaf.kind : PublicLeaf → PublicKind
  | integer _ => .integer
  | unsignedInteger _ => .unsignedInteger
  | boolean _ => .boolean
  | ecdsaDigestMessage _ => .ecdsaDigestMessage
  | ecdsaSignature _ => .ecdsaSignature
  | ecdsaPublicKey _ => .ecdsaPublicKey
  | eddsaMessage _ => .eddsaMessage
  | eddsaSignature _ => .eddsaSignature
  | eddsaPublicKey _ => .eddsaPublicKey
  | storeId _ => .storeId

/-! ## Trees -/

/-- A value whose secret leaves are of type `σ`. -/
inductive ValueTree (σ : Type) where
  | publicLeaf (leaf : PublicLeaf)
  | secretLeaf (secret : σ)
  | array (inner : ValueType) (elements : List (ValueTree σ))
  | tuple (left right : ValueTree σ)

/-- Secret leaves know their kind. -/
class SecretLeaf (σ : Type) where
  kind : σ → SecretKind

namespace ValueTree

variable {σ τ : Type}

/-- A property of every tree follows from its closure under the four forms. -/
@[elab_as_elim]
theorem induction {motive : ValueTree σ → Prop}
    (publicLeaf : ∀ leaf, motive (.publicLeaf leaf))
    (secretLeaf : ∀ secret, motive (.secretLeaf secret))
    (array : ∀ inner elements, (∀ e ∈ elements, motive e) → motive (.array inner elements))
    (tuple : ∀ left right, motive left → motive right → motive (.tuple left right))
    (v : ValueTree σ) : motive v :=
  @ValueTree.rec σ motive (fun elements => ∀ e ∈ elements, motive e)
    publicLeaf secretLeaf array tuple
    (fun _ h => absurd h List.not_mem_nil)
    (fun _ _ head tail e h => (List.mem_cons.mp h).elim (fun same => same ▸ head) (tail e)) v

/-! ## Equality -/

section Equality

variable [DecidableEq σ]

mutual

/-- The trees are the same. -/
def same : ValueTree σ → ValueTree σ → Bool
  | .publicLeaf a, .publicLeaf b => a == b
  | .secretLeaf a, .secretLeaf b => a == b
  | .array s as, .array t bs => s == t && sameList as bs
  | .tuple a b, .tuple c d => same a c && same b d
  | _, _ => false

/-- The lists of trees are the same. -/
def sameList : List (ValueTree σ) → List (ValueTree σ) → Bool
  | [], [] => true
  | a :: as, b :: bs => same a b && sameList as bs
  | _, _ => false

end

mutual

theorem same_iff : ∀ a b : ValueTree σ, same a b = true ↔ a = b
  | .publicLeaf a, b => by cases b <;> simp [same]
  | .secretLeaf a, b => by cases b <;> simp [same]
  | .array s as, b => by cases b <;> simp [same, sameList_iff as]
  | .tuple l r, b => by cases b <;> simp [same, same_iff l, same_iff r]

theorem sameList_iff : ∀ as bs : List (ValueTree σ), sameList as bs = true ↔ as = bs
  | [], bs => by cases bs <;> simp [sameList]
  | a :: as, bs => by cases bs <;> simp [sameList, same_iff a, sameList_iff as]

end

instance : DecidableEq (ValueTree σ) := fun a b => decidable_of_iff _ (same_iff a b)

end Equality

/-! ## Types -/

/-- The type of a tree. An array shows its declared element type, whatever its elements are. -/
def type [SecretLeaf σ] : ValueTree σ → ValueType
  | .publicLeaf leaf => .publicLeaf leaf.kind
  | .secretLeaf secret => .secretLeaf (SecretLeaf.kind secret)
  | .array inner elements => .array inner elements.length
  | .tuple left right => .tuple left.type right.type

/-- Every array, at every depth, holds elements of its declared type. -/
inductive WellTyped [SecretLeaf σ] : ValueTree σ → Prop
  | publicLeaf (leaf : PublicLeaf) : WellTyped (.publicLeaf leaf)
  | secretLeaf (secret : σ) : WellTyped (.secretLeaf secret)
  | array (inner : ValueType) (elements : List (ValueTree σ))
      (types : ∀ e ∈ elements, e.type = inner) (each : ∀ e ∈ elements, WellTyped e) :
      WellTyped (.array inner elements)
  | tuple (left right : ValueTree σ) (hl : WellTyped left) (hr : WellTyped right) :
      WellTyped (.tuple left right)

/-- The value has a secret leaf, judged by its type. -/
def isSecret [SecretLeaf σ] (v : ValueTree σ) : Bool := v.type.isSecret

/-- The value is held in clear, judged by its type. -/
def isPublic [SecretLeaf σ] (v : ValueTree σ) : Bool := !v.isSecret

/-- The public leaf that the tree consists of. -/
def publicLeaf? : ValueTree σ → Option PublicLeaf
  | .publicLeaf leaf => some leaf
  | .secretLeaf _ | .array .. | .tuple .. => none

/-! ## Replacing the secret leaves -/

mutual

/-- Apply a function to every secret leaf. -/
def map (f : σ → τ) : ValueTree σ → ValueTree τ
  | .publicLeaf leaf => .publicLeaf leaf
  | .secretLeaf secret => .secretLeaf (f secret)
  | .array inner elements => .array inner (mapList f elements)
  | .tuple left right => .tuple (map f left) (map f right)

/-- Apply a function to every secret leaf of every tree of a list. -/
def mapList (f : σ → τ) : List (ValueTree σ) → List (ValueTree τ)
  | [] => []
  | v :: rest => map f v :: mapList f rest

end

@[simp] theorem mapList_eq (f : σ → τ) (vs : List (ValueTree σ)) : mapList f vs = vs.map (map f) := by
  induction vs with
  | nil => rfl
  | cons v rest ih => rw [mapList, ih, List.map_cons]

/-- Replacing leaves by leaves of the same kinds keeps the type. -/
theorem type_map [SecretLeaf σ] [SecretLeaf τ] (f : σ → τ)
    (kinds : ∀ s, SecretLeaf.kind (f s) = SecretLeaf.kind s) (v : ValueTree σ) :
    (v.map f).type = v.type := by
  induction v using ValueTree.induction with
  | publicLeaf leaf => rfl
  | secretLeaf secret => simp [map, type, kinds]
  | array inner elements _ => simp [map, type]
  | tuple left right hl hr => simp [map, type, hl, hr]

end ValueTree
end ThresholdMask
