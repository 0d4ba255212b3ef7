import ThresholdMask.NamedValues
import ThresholdMask.Value

/-!
# What a party stores

A `Classification` counts the leaves of a collection by what each party stores for them: field
elements for secret scalars and for the chunks of blobs, clear copies of public leaves, and shares
of ECDSA and EdDSA keys.
-/

namespace ThresholdMask

/-- Counts of what one party stores. -/
structure Classification where
  /-- Field elements: one per secret scalar that is no key, one per chunk of a blob. -/
  shares : Nat := 0
  /-- Public leaves. -/
  publicLeaves : Nat := 0
  ecdsaKeyShares : Nat := 0
  eddsaKeyShares : Nat := 0
  deriving DecidableEq, Repr

namespace Classification

instance : Add Classification where
  add a b :=
    { shares := a.shares + b.shares
      publicLeaves := a.publicLeaves + b.publicLeaves
      ecdsaKeyShares := a.ecdsaKeyShares + b.ecdsaKeyShares
      eddsaKeyShares := a.eddsaKeyShares + b.eddsaKeyShares }

/-- Everything that a party stores. -/
def total (c : Classification) : Nat :=
  c.shares + c.publicLeaves + c.ecdsaKeyShares + c.eddsaKeyShares

/-- What a secret leaf counts for, with blobs in chunks of `chunkSize` bytes; a chunk has at least
one byte. -/
def ofSecret (chunkSize : Nat) : Secret → Classification
  | .scalar (.integer _) | .scalar (.unsignedInteger _) | .scalar (.boolean _) => { shares := 1 }
  | .scalar (.ecdsaPrivateKey _) => { ecdsaKeyShares := 1 }
  | .scalar (.eddsaPrivateKey _) => { eddsaKeyShares := 1 }
  | .blob bytes => { shares := Bytes.chunkCount bytes.length (max chunkSize 1) }

mutual

/-- The counts of one value. -/
def ofValue (chunkSize : Nat) : Value → Classification
  | .publicLeaf _ => { publicLeaves := 1 }
  | .secretLeaf secret => ofSecret chunkSize secret
  | .array _ elements => ofList chunkSize elements
  | .tuple left right => ofValue chunkSize left + ofValue chunkSize right

/-- The counts of the values of a list. -/
def ofList (chunkSize : Nat) : List Value → Classification
  | [] => {}
  | v :: rest => ofValue chunkSize v + ofList chunkSize rest

end

/-- The counts of a collection. -/
def ofNamed (chunkSize : Nat) (values : NamedValues Value) : Classification :=
  ofList chunkSize (values.toList.map (·.2))

/-- The sum of several counts. -/
def sum (cs : List Classification) : Classification := cs.foldl (· + ·) {}

theorem total_add (a b : Classification) : (a + b).total = a.total + b.total := by
  show a.shares + b.shares + (a.publicLeaves + b.publicLeaves) + (a.ecdsaKeyShares + b.ecdsaKeyShares) +
    (a.eddsaKeyShares + b.eddsaKeyShares) = _
  simp only [total]
  omega

end Classification
end ThresholdMask
