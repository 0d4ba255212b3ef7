import ThresholdMask.Masker.Basic
import ThresholdMask.Masker.Path

/-!
# Unmasking

Unmasking opens a jar of bundles. The jar must be this masker's, hold enough bundles, and all its
bundles must carry the same names. Then each value is rebuilt from the contributions of all parties
by recursion on the first one's: at a public leaf all must agree; at a secret leaf the shares must
lie on one polynomial whose constant term decodes; arrays must agree in declared type and length and
hold elements of that type; tuples are rebuilt side by side.

The first contribution in roster order serves as the reference at every step, and of several
failures the one met first is reported. Only the shares of a secret are visited in an order of their
own (`VisitOrder`).
-/

namespace ThresholdMask

/-! ## Errors -/

/-- The form of a masked value, as far as a mismatch tells. -/
inductive MaskedForm where
  | type (t : ValueType)
  /-- A blob, by the number of its chunks and its length in bytes. -/
  | blob (chunks size : Nat)
  deriving DecidableEq, Repr

/-- The form as text. -/
def MaskedForm.render : MaskedForm → String
  | type t => t.render
  | blob chunks size => s!"SecretBlob({chunks} chunks, {size} bytes)"

/-- Why a jar cannot be unmasked. Without a path or a name, the whole jar is meant. -/
inductive UnmaskError where
  /-- The jar was built by a masker with another configuration. -/
  | foreignJar
  | insufficientShares (path : Option Path) (got need : Nat)
  | missingParty (name : Option String) (party : PartyId)
  | typeMismatch (path : Path) (party : PartyId) (expected found : MaskedForm)
  /-- A public leaf differs from that of the first party. -/
  | inconsistency (path : Path) (party : PartyId)
  /-- Shares are inconsistent, or decode to nothing; the party is named where one share is off. -/
  | corruption (path : Path) (party : Option PartyId)
  | encoding (path : Path) (source : FieldError)
  | sharing (source : ReconstructError)
  deriving DecidableEq, Repr

/-- The text of the error. -/
def UnmaskError.message : UnmaskError → String
  | foreignJar => "jar was built by a masker with a different configuration"
  | insufficientShares path got need =>
    let name := (path.map Path.render).getD ""
    s!"insufficient shares for '{name}': got {got}, need {need}"
  | missingParty name p =>
    let name := name.getD ""
    s!"'{name}' is missing from party {p.toHex}"
  | typeMismatch path p expected found =>
    let forms := s!"expected {expected.render}, found {found.render}"
    s!"type mismatch for '{path.render}' from party {p.toHex}: {forms}"
  | inconsistency path p =>
    s!"public value '{path.render}' from party {p.toHex} disagrees with the other parties"
  | corruption path none => s!"shares of '{path.render}' are corrupted"
  | corruption path (some p) => s!"shares of '{path.render}' are corrupted (party {p.toHex})"
  | encoding path e => s!"cannot encode '{path.render}': {e.message}"
  | sharing e => e.message

/-- A failed reconstruction of the shares at a path. -/
def UnmaskError.ofReconstruct (path : Path) : ReconstructError → UnmaskError
  | .insufficientShares got need => .insufficientShares (some path) got need
  | .corruption p => .corruption path (some p)
  | .invalidShare p => .corruption path (some p)
  | .zeroSecret => .corruption path none
  | .unknownParty p => .sharing (.unknownParty p)
  | .collidingAbscissas => .sharing .collidingAbscissas

/-! ## Contributions -/

/-- What a party contributes to a value. -/
abbrev Contribution := PartyId × MaskedValue

/-- Run a check on every contribution, in order. -/
def eachContribution {α : Type} (check : PartyId → α → Except UnmaskError Unit) :
    List (PartyId × α) → Except UnmaskError Unit
  | [] => .ok ()
  | (p, a) :: rest => do
    check p a
    eachContribution check rest

/-- Restrict contributions to a part that not every one of them need have. -/
def partsOf {α β : Type} (part : α → Option β) (contributions : List (PartyId × α)) :
    List (PartyId × β) :=
  contributions.filterMap fun (p, a) => (part a).map (p, ·)

/-- Two types do not fit. -/
def mismatch (path : Path) (p : PartyId) (expected found : ValueType) : UnmaskError :=
  .typeMismatch path p (.type expected) (.type found)

/-- Every contribution has the form of the expected type. -/
def checkKinds (path : Path) (expected : ValueType) (others : List Contribution) :
    Except UnmaskError Unit :=
  eachContribution (fun p v =>
    if v.type.sameKind expected then .ok () else .error (mismatch path p expected v.type)) others

namespace MaskedValue

/-- The share of a scalar of a kind. -/
def scalarShare? (kind : ScalarKind) : MaskedValue → Option Nat
  | .secretLeaf (.scalar k element) => if k = kind then some element else none
  | _ => none

/-- The shares of a blob. -/
def blobShares? : MaskedValue → Option BlobShares
  | .secretLeaf (.blob shares) => some shares
  | _ => none

/-- The left side of a tuple. -/
def left? : MaskedValue → Option MaskedValue
  | .tuple left _ => some left
  | _ => none

/-- The right side of a tuple. -/
def right? : MaskedValue → Option MaskedValue
  | .tuple _ right => some right
  | _ => none

end MaskedValue

/-! ## Orders of visiting -/

/-- How the shares gathered for a secret are laid out before they are visited: those of the scalar
at a path, or of the chunk at a position of the blob there. Every secret may have an order of its
own, of which nothing is known but that it has the same entries. -/
structure VisitOrder where
  arrange : Path → Nat → PartyShares → PartyShares
  perm_arrange : ∀ path position shares,
    (arrange path position shares).entries.Perm shares.entries

/-- Shares are visited as they were gathered. -/
def VisitOrder.gathered : VisitOrder := ⟨fun _ _ shares => shares, fun _ _ _ => .refl _⟩

namespace Masker

/-! ## Secret leaves -/

/-- Reconstruct the shares at a path, for a blob those of the chunk at a position. -/
def reconstructAt (m : Masker) (visit : VisitOrder) (path : Path) (position : Nat) (F : PrimeField)
    (shares : List (PartyId × Nat)) : Except UnmaskError Nat :=
  let visited := visit.arrange path position (PartyShares.ofList shares)
  ((m.sharer F).reconstruct visited).mapError (UnmaskError.ofReconstruct path)

/-- Decode a reconstructed key, which must not be zero. -/
def decodeKeyAt (path : Path) (F : PrimeField) (secret : Nat) :
    Except UnmaskError (FixedBytes keySize) :=
  if secret = 0 then .error (.corruption path none)
  else (F.decodeKey secret).mapError (.encoding path)

/-- Decode a reconstructed scalar. -/
def decodeScalarAt (path : Path) (F : PrimeField) (kind : ScalarKind) (secret : Nat) :
    Except UnmaskError SecretScalar :=
  match kind with
  | .integer => .ok (.integer (F.decodeSigned secret))
  | .unsignedInteger => .ok (.unsignedInteger (F.decodeUnsigned secret))
  | .boolean =>
    match F.decodeBool secret with
    | .ok b => .ok (.boolean b)
    | .error _ => .error (.corruption path none)
  | .ecdsaPrivateKey => (decodeKeyAt path F secret).map .ecdsaPrivateKey
  | .eddsaPrivateKey => (decodeKeyAt path F secret).map .eddsaPrivateKey

/-- Rebuild a scalar. -/
def unmaskScalar (m : Masker) (visit : VisitOrder) (path : Path) (kind : ScalarKind)
    (shares : List (PartyId × Nat)) : Except UnmaskError SecretScalar := do
  let F := m.fieldOf kind
  let secret ← m.reconstructAt visit path 0 F shares
  decodeScalarAt path F kind secret

/-- The form of a blob. -/
def formOf (b : BlobShares) : MaskedForm := .blob b.chunks.length b.byteLength

/-- Rebuild the chunk of a blob at a position. -/
def unmaskChunk (m : Masker) (visit : VisitOrder) (path : Path) (size : Nat)
    (blobs : List (PartyId × BlobShares)) (position : Nat) : Except UnmaskError Bytes := do
  let secret ← m.reconstructAt visit path position m.field (partsOf (·.chunks[position]?) blobs)
  let length := min m.chunkSize (size - m.chunkSize * position)
  (m.field.decodeChunk secret length).mapError (.encoding path)

/-- Rebuild a blob. The first party's number of chunks must fit its length, and the other parties
must agree with the first. -/
def unmaskBlob (m : Masker) (visit : VisitOrder) (path : Path) (firstParty : PartyId)
    (first : BlobShares) (others : List (PartyId × BlobShares)) : Except UnmaskError Bytes := do
  let count := Bytes.chunkCount first.byteLength m.chunkSize
  if first.chunks.length ≠ count then
    throw (.typeMismatch path firstParty (.blob count first.byteLength) (formOf first))
  eachContribution (fun p b =>
    if b.chunks.length = first.chunks.length ∧ b.byteLength = first.byteLength then .ok ()
    else .error (.typeMismatch path p (formOf first) (formOf b))) others
  let chunks ← (List.range count).mapM
    (m.unmaskChunk visit path first.byteLength ((firstParty, first) :: others))
  return chunks.flatten

/-! ## Public leaves -/

/-- Every contribution is the same public leaf. -/
def checkPublic (path : Path) (leaf : PublicLeaf) (others : List Contribution) :
    Except UnmaskError Unit :=
  eachContribution (fun p v =>
    if v = .publicLeaf leaf then .ok () else .error (.inconsistency path p)) others

/-! ## Arrays -/

/-- The elements of an array all have its declared type. -/
def checkElements (path : Path) (p : PartyId) (inner : ValueType) (elements : List MaskedValue) :
    Except UnmaskError Unit :=
  match elements.find? (·.type ≠ inner) with
  | some e => .error (mismatch path p inner e.type)
  | none => .ok ()

/-- A contribution is an array of the declared type and the length, of elements of that type. -/
def checkColumn (path : Path) (inner : ValueType) (length : Nat) (p : PartyId) (v : MaskedValue) :
    Except UnmaskError Unit :=
  match v with
  | .array declared elements =>
    if declared = inner ∧ elements.length = length then checkElements path p inner elements
    else .error (mismatch path p (.array inner length) v.type)
  | _ => .error (mismatch path p (.array inner length) v.type)

/-- The elements of an array. -/
def elements? : MaskedValue → Option (List MaskedValue)
  | .array _ elements => some elements
  | _ => none

/-! ## Values -/

mutual

/-- Rebuild a value from the first contribution and the other ones. -/
def unmaskValue (m : Masker) (visit : VisitOrder) (path : Path) (firstParty : PartyId) :
    MaskedValue → List Contribution → Except UnmaskError Value
  | .publicLeaf leaf, others => do
    checkKinds path (.publicLeaf leaf.kind) others
    checkPublic path leaf others
    return .publicLeaf leaf
  | .secretLeaf (.scalar kind element), others => do
    checkKinds path (.secretLeaf (.scalar kind)) others
    let shares := (firstParty, element) :: partsOf (MaskedValue.scalarShare? kind) others
    return .secretLeaf (.scalar (← m.unmaskScalar visit path kind shares))
  | .secretLeaf (.blob blob), others => do
    checkKinds path (.secretLeaf .blob) others
    let blobs := partsOf MaskedValue.blobShares? others
    return .secretLeaf (.blob (← m.unmaskBlob visit path firstParty blob blobs))
  | .array inner elements, others => do
    -- compares the outermost form only; declared types and lengths are left to `checkColumn`
    checkKinds path (.array inner elements.length) others
    checkElements path firstParty inner elements
    eachContribution (checkColumn path inner elements.length) others
    return .array inner
      (← unmaskElements m visit path firstParty 0 elements (partsOf elements? others))
  | .tuple left right, others => do
    checkKinds path (.tuple left.type right.type) others
    let l ← unmaskValue m visit path.left firstParty left (partsOf MaskedValue.left? others)
    let r ← unmaskValue m visit path.right firstParty right (partsOf MaskedValue.right? others)
    return .tuple l r

/-- Rebuild the elements of an array, at indices from `start`, from the first party's elements and
the columns of the other ones. -/
def unmaskElements (m : Masker) (visit : VisitOrder) (path : Path) (firstParty : PartyId)
    (start : Nat) :
    List MaskedValue → List (PartyId × List MaskedValue) → Except UnmaskError (List Value)
  | [], _ => return []
  | v :: rest, columns => do
    let value ← unmaskValue m visit (path.index start) firstParty v (partsOf List.head? columns)
    let values ← unmaskElements m visit path firstParty (start + 1) rest
      (columns.map fun (p, column) => (p, column.tail))
    return value :: values

end

/-! ## Jars -/

/-- Two bundles carry the same names: none of the first one's is missing from the other, and none of
the other's from the first. -/
def checkNames (firstParty : PartyId) (first : Bundle) (p : PartyId) (bundle : Bundle) :
    Except UnmaskError Unit :=
  match first.names.find? (!bundle.contains ·) with
  | some name => .error (.missingParty (some name) p)
  | none =>
    match bundle.names.find? (!first.contains ·) with
    | some name => .error (.missingParty (some name) firstParty)
    | none => .ok ()

/-- Rebuild the value under a name. -/
def unmaskNamed (m : Masker) (visit : VisitOrder) (firstParty : PartyId)
    (others : List (PartyId × Bundle)) (entry : String × MaskedValue) :
    Except UnmaskError (String × Value) := do
  let contributions := partsOf (·.get? entry.1) others
  return (entry.1, ← m.unmaskValue visit (Path.ofName entry.1) firstParty entry.2 contributions)

/-- Rebuild the values of bundles that carry the same names. -/
def unmaskBundles (m : Masker) (visit : VisitOrder) (firstParty : PartyId) (first : Bundle)
    (others : List (PartyId × Bundle)) : Except UnmaskError (NamedValues Value) := do
  eachContribution (checkNames firstParty first) others
  return NamedValues.ofList (← first.toList.mapM (m.unmaskNamed visit firstParty others))

/-- The first party that has to contribute and has not. -/
def absent? (m : Masker) (jar : BundleJar) : Option PartyId :=
  if m.options.requireFullRoster then jar.missing.head? else none

/-- Open a jar; the answer for other orders of visiting differs from this one at most in the party
that a failure names. -/
def unmask (m : Masker) (jar : BundleJar) (visit : VisitOrder := .gathered) :
    Except UnmaskError (NamedValues Value) :=
  if jar.binding ≠ m.fingerprint ∨ jar.roster ≠ m.roster then .error .foreignJar
  else if jar.size < m.threshold then .error (.insufficientShares none jar.size m.threshold)
  else
    match m.absent? jar, jar.elements with
    | some p, _ => .error (.missingParty none p)
    -- not met, as the threshold is positive
    | none, [] => .error (.insufficientShares none 0 m.threshold)
    | none, (firstParty, first) :: others => m.unmaskBundles visit firstParty first others

end Masker
end ThresholdMask
