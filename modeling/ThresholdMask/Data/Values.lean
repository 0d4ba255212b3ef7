import ThresholdMask.Data.Numbers
import ThresholdMask.Data.Types
import ThresholdMask.MaskedValue
import ThresholdMask.NamedValues

/-!
# Values as data

A leaf is a record of one field, named for the kind of the leaf, with its contents. An array is a
record `Array` of its declared element type and its values, a tuple a record `Tuple` of its sides.
A collection is a record of the list of its entries, each a list of a name and a value.

What is written for a secret leaf depends on the kind of tree (`SecretForm`): a clear secret or a
share.

The main statements are that reading gives back what was written, `ValueTree.decode?_encode` and
`NamedValues.decode?_encode`. They need sizes that fit 64 bits (`Writable`).
-/

namespace ThresholdMask

/-! ## Public leaves -/

namespace Signature

/-- Write a signature. -/
def encode (s : Signature) : Data :=
  .record [("r", Data.encodeBytes s.r), ("s", Data.encodeBytes s.s)]

/-- Read a signature. -/
def decode? (d : Data) : Option Signature :=
  match d.fields? ["r", "s"] with
  | some [r, s] => do
    let r ← Data.decodeBytes? r
    let s ← Data.decodeBytes? s
    return ⟨r, s⟩
  | _ => none

theorem decode?_encode (s : Signature) : decode? s.encode = some s := by
  have fields : s.encode.fields? ["r", "s"] =
      some [Data.encodeBytes s.r, Data.encodeBytes s.s] := rfl
  simp [decode?, fields, Data.decodeBytes?_encodeBytes]

end Signature

namespace PublicLeaf

/-- Write the contents of a leaf. -/
def encodeContents : PublicLeaf → Data
  | integer v => Data.encodeInteger v
  | unsignedInteger v => Data.encodeNatural v
  | boolean b => .boolean b
  | ecdsaDigestMessage digest => Data.encodeBytes digest.val
  | ecdsaSignature s => s.encode
  | ecdsaPublicKey key => Data.encodeBytes key.val
  | eddsaMessage message => Data.encodeBytes message
  | eddsaSignature s => s.encode
  | eddsaPublicKey key => Data.encodeBytes key.val
  | storeId id => Data.encodeBytes id.val

/-- Read the contents of a leaf of a kind. -/
def decodeContents? (d : Data) : PublicKind → Option PublicLeaf
  | .integer => (Data.decodeInteger? d).map integer
  | .unsignedInteger => (Data.decodeNatural? d).map unsignedInteger
  | .boolean => d.boolean?.map boolean
  | .ecdsaDigestMessage => (Data.decodeFixed? _ d).map ecdsaDigestMessage
  | .ecdsaSignature => (Signature.decode? d).map ecdsaSignature
  | .ecdsaPublicKey => (Data.decodeFixed? _ d).map ecdsaPublicKey
  | .eddsaMessage => (Data.decodeBytes? d).map eddsaMessage
  | .eddsaSignature => (Signature.decode? d).map eddsaSignature
  | .eddsaPublicKey => (Data.decodeFixed? _ d).map eddsaPublicKey
  | .storeId => (Data.decodeFixed? _ d).map storeId

theorem decodeContents?_encodeContents (leaf : PublicLeaf) :
    decodeContents? leaf.encodeContents leaf.kind = some leaf := by
  cases leaf <;>
    simp [encodeContents, decodeContents?, kind, Data.decodeInteger?_encodeInteger,
      Data.decodeNatural?_encodeNatural, Data.boolean?, Data.decodeFixed?_encodeBytes,
      Data.decodeBytes?_encodeBytes, Signature.decode?_encode]

end PublicLeaf

/-! ## Secret leaves -/

/-- Secret leaves whose contents have a form in the data model. -/
class SecretForm (σ : Type) extends SecretLeaf σ where
  encodeContents : σ → Data
  decodeContents? : Data → SecretKind → Option σ
  /-- All sizes in the leaf can be written. -/
  Writable : σ → Prop
  decode_encode : ∀ s, Writable s → decodeContents? (encodeContents s) (kind s) = some s

instance : SecretForm Secret where
  encodeContents
    | .scalar (.integer v) => Data.encodeInteger v
    | .scalar (.unsignedInteger v) => Data.encodeNatural v
    | .scalar (.boolean b) => .boolean b
    | .scalar (.ecdsaPrivateKey key) => Data.encodeBytes key.val
    | .scalar (.eddsaPrivateKey key) => Data.encodeBytes key.val
    | .blob bytes => Data.encodeBytes bytes
  decodeContents? d
    | .scalar .integer => (Data.decodeInteger? d).map (.scalar <| .integer ·)
    | .scalar .unsignedInteger => (Data.decodeNatural? d).map (.scalar <| .unsignedInteger ·)
    | .scalar .boolean => d.boolean?.map (.scalar <| .boolean ·)
    | .scalar .ecdsaPrivateKey => (Data.decodeFixed? _ d).map (.scalar <| .ecdsaPrivateKey ·)
    | .scalar .eddsaPrivateKey => (Data.decodeFixed? _ d).map (.scalar <| .eddsaPrivateKey ·)
    | .blob => (Data.decodeBytes? d).map .blob
  Writable _ := True
  decode_encode s _ := by
    rcases s with (v | v | v | v | v) | v <;>
      simp [SecretLeaf.kind, SecretScalar.kind, Data.decodeInteger?_encodeInteger,
        Data.decodeNatural?_encodeNatural, Data.boolean?, Data.decodeFixed?_encodeBytes,
        Data.decodeBytes?_encodeBytes]

namespace BlobShares

/-- One more than the largest length that can be written. -/
def sizeBound : Nat := UInt64.size

/-- Write the shares of a blob. -/
def encode (b : BlobShares) : Data :=
  .record [("chunks", .list (b.chunks.map Data.encodeNatural)),
    ("original_size", .natural b.byteLength)]

/-- Read the shares of a blob. -/
def decode? (d : Data) : Option BlobShares :=
  match d.fields? ["chunks", "original_size"] with
  | some [chunks, size] => do
    let items ← chunks.items?
    let chunks ← items.mapM Data.decodeNatural?
    let size ← size.natural? sizeBound
    return ⟨chunks, size⟩
  | _ => none

theorem decode?_encode (b : BlobShares) (h : b.byteLength < sizeBound) :
    decode? b.encode = some b := by
  have chunks : (b.chunks.map Data.encodeNatural).mapM Data.decodeNatural? = some b.chunks :=
    Data.mapM_map_eq_some fun n _ => Data.decodeNatural?_encodeNatural n
  have fields : b.encode.fields? ["chunks", "original_size"] =
      some [.list (b.chunks.map Data.encodeNatural), .natural b.byteLength] := rfl
  simp [decode?, fields, Data.items?, chunks, Data.natural?_natural h]

end BlobShares

instance : SecretForm Share where
  encodeContents
    | .scalar _ element => Data.encodeNatural element
    | .blob shares => shares.encode
  decodeContents? d
    | .scalar kind => (Data.decodeNatural? d).map (.scalar kind)
    | .blob => (BlobShares.decode? d).map .blob
  Writable
    | .scalar .. => True
    | .blob shares => shares.byteLength < BlobShares.sizeBound
  decode_encode s h := by
    cases s with
    | scalar kind element => simp [SecretLeaf.kind, Data.decodeNatural?_encodeNatural]
    | blob shares => simp [SecretLeaf.kind, BlobShares.decode?_encode shares h]

/-! ## Trees -/

namespace ValueTree

variable {σ : Type} [SecretForm σ]

mutual

/-- Write a tree. -/
def encode : ValueTree σ → Data
  | .publicLeaf leaf => .record [(leaf.kind.name, leaf.encodeContents)]
  | .secretLeaf secret =>
    .record [((SecretLeaf.kind secret).name, SecretForm.encodeContents secret)]
  | .array inner elements =>
    .record [("Array",
      .record [("inner_type", inner.encode), ("values", .list (encodeList elements))])]
  | .tuple left right =>
    .record [("Tuple", .record [("left", encode left), ("right", encode right)])]

/-- Write the trees of a list. -/
def encodeList : List (ValueTree σ) → List Data
  | [] => []
  | v :: rest => encode v :: encodeList rest

end

/-- Read a leaf by its name and contents. -/
def decodeLeaf? (name : String) (contents : Data) : Option (ValueTree σ) :=
  match PublicKind.ofName? name, SecretKind.ofName? name with
  | some k, _ => (PublicLeaf.decodeContents? contents k).map .publicLeaf
  | none, some k => (SecretForm.decodeContents? contents k).map .secretLeaf
  | none, none => none

mutual

/-- Read a tree. -/
def decode? : Data → Option (ValueTree σ)
  | .record [("Array", contents)] =>
    match _parts : contents.recordFields? ["inner_type", "values"] with
    | some [inner, .list items] => do
      let inner ← ValueType.decode? inner
      let elements ← decodeList? items
      return .array inner elements
    | _ => none
  | .record [("Tuple", contents)] =>
    match _parts : contents.recordFields? ["left", "right"] with
    | some [l, r] => do
      let l ← decode? l
      let r ← decode? r
      return .tuple l r
    | _ => none
  | .record [(name, contents)] => decodeLeaf? name contents
  | _ => none
termination_by d => sizeOf d
decreasing_by
  · have smaller : sizeOf (Data.list items) < sizeOf (Data.record [("Array", contents)]) :=
      Data.sizeOf_lt_of_mem_recordFields? _parts (by simp)
    simp only [Data.list.sizeOf_spec] at smaller
    omega
  all_goals exact Data.sizeOf_lt_of_mem_recordFields? _parts (by simp)

/-- Read the trees of a list. -/
def decodeList? : List Data → Option (List (ValueTree σ))
  | [] => some []
  | d :: rest => do
    let v ← decode? d
    let vs ← decodeList? rest
    return v :: vs
termination_by items => sizeOf items

end

instance : DataForm (ValueTree σ) := ⟨encode, decode?⟩

/-- Every size in the tree can be written. -/
inductive Writable : ValueTree σ → Prop
  | publicLeaf (leaf : PublicLeaf) : Writable (.publicLeaf leaf)
  | secretLeaf (secret : σ) (h : SecretForm.Writable secret) : Writable (.secretLeaf secret)
  | array (inner : ValueType) (elements : List (ValueTree σ)) (h : inner.Writable)
      (each : ∀ e ∈ elements, Writable e) : Writable (.array inner elements)
  | tuple (left right : ValueTree σ) (hl : Writable left) (hr : Writable right) :
      Writable (.tuple left right)

@[simp] theorem encodeList_eq (vs : List (ValueTree σ)) : encodeList vs = vs.map encode := by
  induction vs with
  | nil => rfl
  | cons v rest ih => rw [encodeList, ih, List.map_cons]

@[simp] theorem decodeList?_eq (ds : List Data) :
    decodeList? ds = ds.mapM (decode? : Data → Option (ValueTree σ)) := by
  induction ds with
  | nil => simp [decodeList?]
  | cons d rest ih => simp [decodeList?, ih]

theorem decode?_leaf {name : String} {contents : Data} (notArray : name ≠ "Array")
    (notTuple : name ≠ "Tuple") :
    (decode? (.record [(name, contents)]) : Option (ValueTree σ)) = decodeLeaf? name contents := by
  rw [decode?]
  · exact notArray
  · exact notTuple

theorem decode?_array {contents inner : Data} {items : List Data}
    (h : contents.recordFields? ["inner_type", "values"] = some [inner, .list items]) :
    (decode? (.record [("Array", contents)]) : Option (ValueTree σ)) = do
      return .array (← ValueType.decode? inner) (← items.mapM decode?) := by
  rw [decode?]
  split
  · rename_i first second parts
    obtain ⟨rfl, rfl⟩ : first = inner ∧ second = items := by simpa using parts.symm.trans h
    rw [decodeList?_eq]
  · rename_i other
    exact absurd h (other inner items)

theorem decode?_tuple {contents l r : Data} (h : contents.recordFields? ["left", "right"] = some [l, r]) :
    (decode? (.record [("Tuple", contents)]) : Option (ValueTree σ)) = do
      return .tuple (← decode? l) (← decode? r) := by
  rw [decode?]
  split
  · rename_i first second parts
    obtain ⟨rfl, rfl⟩ : first = l ∧ second = r := by simpa using parts.symm.trans h
    rfl
  · rename_i other
    exact absurd h (other l r)

theorem decode?_encode {v : ValueTree σ} (h : v.Writable) : decode? v.encode = some v := by
  induction v using ValueTree.induction with
  | publicLeaf leaf =>
    obtain ⟨notArray, notTuple⟩ := leaf.kind.name_ne
    rw [encode, decode?_leaf notArray notTuple, decodeLeaf?, PublicKind.ofName?_name]
    simp [PublicLeaf.decodeContents?_encodeContents]
  | secretLeaf secret =>
    cases h with
    | secretLeaf _ writable =>
      obtain ⟨notArray, notTuple⟩ := (SecretLeaf.kind secret).name_ne
      rw [encode, decode?_leaf notArray notTuple, decodeLeaf?, PublicKind.ofName?_name_secret,
        SecretKind.ofName?_name]
      simp [SecretForm.decode_encode secret writable]
  | array inner elements ih =>
    cases h with
    | array _ _ writable each =>
      have read : (elements.map encode).mapM decode? = some elements :=
        Data.mapM_map_eq_some fun e he => ih e he (each e he)
      rw [encode, decode?_array rfl, encodeList_eq, read, ValueType.decode?_encode inner writable]
      rfl
  | tuple left right ihl ihr =>
    cases h with
    | tuple _ _ hl hr =>
      rw [encode, decode?_tuple rfl, ihl hl, ihr hr]
      rfl

end ValueTree

/-! ## Collections -/

namespace NamedValues

variable {α : Type} [DataForm α]

/-- Write an entry. -/
def encodeEntry (e : String × α) : Data := .list [.text e.1, DataForm.encode e.2]

/-- Read an entry. -/
def decodeEntry? : Data → Option (String × α)
  | .list [.text name, d] => (DataForm.decode? d).map (name, ·)
  | _ => none

/-- Write a collection. -/
def encode (m : NamedValues α) : Data := .record [("entries", .list (m.toList.map encodeEntry))]

/-- Read a collection; a repeated name replaces the earlier value in place. -/
def decode? (d : Data) : Option (NamedValues α) :=
  match d.fields? ["entries"] with
  | some [.list items] => (items.mapM decodeEntry?).map ofList
  | _ => none

instance : DataForm (NamedValues α) := ⟨encode, decode?⟩

theorem decode?_encode {m : NamedValues α}
    (h : ∀ e ∈ m.toList, DataForm.decode? (DataForm.encode e.2) = some e.2) :
    decode? m.encode = some m := by
  have read : (m.toList.map encodeEntry).mapM decodeEntry? = some m.toList :=
    Data.mapM_map_eq_some fun e he => by simp [encodeEntry, decodeEntry?, h e he]
  have fields : m.encode.fields? ["entries"] = some [.list (m.toList.map encodeEntry)] := rfl
  simp [decode?, fields, read, ofList_toList]

end NamedValues
end ThresholdMask
