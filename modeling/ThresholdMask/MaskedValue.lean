import ThresholdMask.Value

/-!
# Masked values

A `MaskedValue` is what one party holds of a value: public leaves in clear, and at every secret leaf
the party's share. It has the type of the clear value it stands for. A blob is shared chunk by
chunk; its length travels beside the chunks, since the last chunk may be short.
-/

namespace ThresholdMask

/-- One party's shares of a blob. -/
structure BlobShares where
  /-- One share per chunk, in order. -/
  chunks : List Nat
  /-- The length of the blob in bytes. -/
  byteLength : Nat
  deriving DecidableEq, Repr

/-- One party's share of a secret leaf. -/
inductive Share where
  | scalar (kind : ScalarKind) (element : Nat)
  | blob (shares : BlobShares)
  deriving DecidableEq, Repr

instance : SecretLeaf Share where
  kind
    | .scalar kind _ => .scalar kind
    | .blob _ => .blob

/-- A value as one party holds it. -/
abbrev MaskedValue := ValueTree Share

/-- The copy of a public leaf that every party holds; secret leaves, arrays and tuples have none. -/
def Value.publicCopy? (v : Value) : Option MaskedValue := v.publicLeaf?.map .publicLeaf

/-- The clear value of a copy of a public leaf. -/
def MaskedValue.publicValue? (v : MaskedValue) : Option Value := v.publicLeaf?.map .publicLeaf

theorem publicValue?_of_publicCopy? {v : Value} {copy : MaskedValue}
    (h : v.publicCopy? = some copy) : MaskedValue.publicValue? copy = some v := by
  cases v <;> simp_all [Value.publicCopy?, MaskedValue.publicValue?, ValueTree.publicLeaf?]
  subst h
  rfl

end ThresholdMask
