import Mathlib
import ThresholdMask.Proofs.Coherence

/-!
# Guarded accesses

In the logic an index past the end of a list finds nothing, a split past the end gives what there
is, and a difference below zero is zero. A program that runs would stop there. A `Guarded`
computation has its accesses guarded: an index, a split, a difference or a remainder out of range
ends the run with `Halt.outOfRange`, which is told apart from the failures that the program reports.

Here field arithmetic, reconstruction and the decoders are written once more with guards. In a field
of at least two elements guards make no difference: each guarded function gives the answer of the
plain one.
-/

namespace ThresholdMask

/-- Why a guarded run has no result. -/
inductive Halt (ε : Type) where
  /-- An access was out of range. -/
  | outOfRange
  /-- The program reported a failure. -/
  | failure (e : ε)
  deriving DecidableEq, Repr

/-- A computation with guarded accesses. -/
abbrev Guarded (ε α : Type) : Type := Except (Halt ε) α

namespace Guarded

variable {ε ε' α β : Type}

/-! ## Guards -/

/-- What a computation without accesses answers. -/
def answer (x : Except ε α) : Guarded ε α := x.mapError .failure

/-- Report a failure. -/
def fail (e : ε) : Guarded ε α := .error (.failure e)

/-- Report another failure in place of the one met. -/
def mapFailure (f : ε → ε') (x : Guarded ε α) : Guarded ε' α :=
  x.mapError fun
    | .outOfRange => .outOfRange
    | .failure e => .failure (f e)

/-- Go on with a result, knowing where it comes from. -/
def andThen (x : Guarded ε α) (next : (a : α) → x = .ok a → Guarded ε β) : Guarded ε β :=
  match x, next with
  | .ok a, next => next a rfl
  | .error h, _ => .error h

/-- The element of a list at an index. -/
def readAt (l : List α) (i : Nat) : Guarded ε α :=
  if h : i < l.length then .ok l[i] else .error .outOfRange

/-- The first elements of a list and the other ones. -/
def splitAt (l : List α) (n : Nat) : Guarded ε (List α × List α) :=
  if n ≤ l.length then .ok (l.take n, l.drop n) else .error .outOfRange

/-- The difference of two numbers. -/
def subtract (a b : Nat) : Guarded ε Nat :=
  if b ≤ a then .ok (a - b) else .error .outOfRange

/-- The remainder of a division. -/
def remainder (a b : Nat) : Guarded ε Nat :=
  if b = 0 then .error .outOfRange else .ok (a % b)

/-- The byte string with its end overwritten from an index on. -/
def overwriteFrom {n : Nat} (out : FixedBytes n) (start : Nat) (bytes : Bytes) :
    Guarded ε (FixedBytes n) :=
  if h : start + bytes.length = n then
    .ok ⟨out.val.take start ++ bytes, by simp [out.property]; omega⟩
  else .error .outOfRange

/-- The entries of columns at an index. -/
def rowAt (columns : List (PartyId × List α)) (i : Nat) : Guarded ε (List (PartyId × α)) :=
  columns.mapM fun c => do return (c.1, ← readAt c.2 i)

theorem andThen_of_ok {x : Guarded ε α} {next : (a : α) → x = .ok a → Guarded ε β} {a : α}
    (h : x = .ok a) : x.andThen next = next a h := by
  subst h
  rfl

theorem readAt_of_lt {l : List α} {i : Nat} (h : i < l.length) :
    (readAt l i : Guarded ε α) = .ok l[i] := dif_pos h

@[simp] theorem readAt_zero_cons (a : α) (l : List α) :
    (readAt (a :: l) 0 : Guarded ε α) = .ok a := rfl

theorem splitAt_of_le {l : List α} {n : Nat} (h : n ≤ l.length) :
    (splitAt l n : Guarded ε _) = .ok (l.take n, l.drop n) := if_pos h

theorem subtract_of_le {a b : Nat} (h : b ≤ a) : (subtract a b : Guarded ε Nat) = .ok (a - b) :=
  if_pos h

theorem remainder_of_pos {a b : Nat} (h : 0 < b) : (remainder a b : Guarded ε Nat) = .ok (a % b) :=
  if_neg h.ne'

/-- Columns that are all long enough have a row at the index. -/
theorem rowAt_of_lt {columns : List (PartyId × List α)} {i : Nat}
    (long : ∀ c ∈ columns, i < c.2.length) :
    (rowAt columns i : Guarded ε _) = .ok (partsOf (·[i]?) columns) := by
  induction columns with
  | nil => rfl
  | cons c rest ih =>
    rw [List.forall_mem_cons] at long
    have here : c.2[i]? = some c.2[i] := List.getElem?_eq_getElem long.1
    have first : partsOf (·[i]?) (c :: rest) = (c.1, c.2[i]) :: partsOf (·[i]?) rest :=
      partsOf_cons_some (a := c.2) here rest
    unfold rowAt at ih ⊢
    rw [List.mapM_cons, ih long.2, readAt_of_lt long.1, first]
    rfl

/-! ## Answers -/

@[simp] theorem answer_ok (a : α) : (answer (.ok a) : Guarded ε α) = .ok a := rfl

@[simp] theorem answer_pure (a : α) : (answer (pure a) : Guarded ε α) = pure a := rfl

theorem answer_bind (x : Except ε α) (f : α → Except ε β) :
    answer (x >>= f) = answer x >>= fun a => answer (f a) := by
  cases x <;> rfl

theorem answer_bind_pure (x : Except ε α) (f : α → β) :
    answer (x >>= fun a => pure (f a)) = answer x >>= fun a => pure (f a) :=
  answer_bind x fun a => pure (f a)

theorem answer_mapM (f : α → Except ε β) (l : List α) :
    answer (l.mapM f) = l.mapM fun a => answer (f a) := by
  induction l with
  | nil => rfl
  | cons a rest ih =>
    rw [List.mapM_cons, List.mapM_cons, answer_bind]
    simp only [answer_bind, ih, answer_pure]

theorem answer_forM (f : α → Except ε Unit) (l : List α) :
    answer (l.forM f) = l.forM fun a => answer (f a) := by
  induction l with
  | nil => rfl
  | cons a rest ih =>
    show answer (f a >>= fun _ => rest.forM f) = answer (f a) >>= fun _ => rest.forM _
    rw [answer_bind, ih]

theorem answer_mapError (f : ε → ε') (x : Except ε α) :
    answer (x.mapError f) = mapFailure f (answer x) := by
  cases x <;> rfl

theorem answer_ne_outOfRange (x : Except ε α) : answer x ≠ .error .outOfRange := by
  cases x <;> simp [answer, Except.mapError]

@[simp] theorem ok_bind (a : α) (f : α → Guarded ε β) : Except.ok a >>= f = f a := rfl

/-- What comes after a step may rely on the step's success. -/
theorem answer_bind_congr {x : Except ε α} {f g : α → Guarded ε β}
    (same : ∀ a, x = .ok a → f a = g a) : answer x >>= f = answer x >>= g := by
  cases x with
  | ok a => exact same a rfl
  | error e => rfl

/-! ## Arithmetic -/

section Arithmetic

variable (F : PrimeField)

/-- The sum of two elements. -/
def add (a b : Nat) : Guarded ε Nat := remainder (a + b) F.modulus

/-- The difference of two elements. -/
def sub (a b : Nat) : Guarded ε Nat := do
  let a ← remainder a F.modulus
  let b ← remainder b F.modulus
  let difference ← subtract (a + F.modulus) b
  remainder difference F.modulus

/-- The product of two elements. -/
def mul (a b : Nat) : Guarded ε Nat := remainder (a * b) F.modulus

/-- The product of the differences from `x` to the other abscissas. -/
def differences (x : Nat) (others : List Nat) : Guarded ε Nat :=
  others.foldlM (fun product other => do mul F product (← sub F x other)) 1

/-- The value at `z` of the polynomial that is one at `x` and zero at the others. -/
def basis (z x : Nat) (others : List Nat) : Guarded ReconstructError Nat := do
  let numerator ← differences F z others
  let denominator ← differences F x others
  let a ← remainder denominator F.modulus
  if a = 0 then fail .collidingAbscissas
  else
    let exponent ← subtract F.modulus 2
    mul F numerator (F.pow a exponent)

/-- What a point contributes to the value at `z` of the polynomial through it and the others. -/
def term (z : Nat) (point : Nat × Nat) (others : List (Nat × Nat)) :
    Guarded ReconstructError Nat := do
  let weight ← basis F z point.1 (others.map (·.1))
  mul F point.2 weight

/-- The value at `z` of the polynomial through the points. -/
def interpolate (points : List (Nat × Nat)) (z : Nat) : Guarded ReconstructError Nat := do
  let terms ← (selections points).mapM fun s => term F z s.1 s.2
  terms.foldlM (add F) 0

/-- The answer to a value that is missing where abscissas collide. -/
def orCollision : Option α → Except ReconstructError α
  | none => .error .collidingAbscissas
  | some a => .ok a

theorem mapM_orCollision {f : α → Guarded ReconstructError β} {g : α → Option β}
    (each : ∀ a, f a = answer (orCollision (g a))) (l : List α) :
    l.mapM f = answer (orCollision (l.mapM g)) := by
  induction l with
  | nil => rfl
  | cons a rest ih =>
    rw [List.mapM_cons, List.mapM_cons, ih, each]
    cases g a with
    | none => rfl
    | some b => cases rest.mapM g <;> rfl

variable {F} (big : 2 ≤ F.modulus)
include big

theorem sub_eq (a b : Nat) : (sub F a b : Guarded ε Nat) = .ok (F.sub a b) := by
  have positive : 0 < F.modulus := by omega
  unfold sub
  rw [remainder_of_pos positive, ok_bind, remainder_of_pos positive, ok_bind,
    subtract_of_le (F.sub_no_underflow positive a b), ok_bind]
  exact remainder_of_pos positive

theorem mul_eq (a b : Nat) : (mul F a b : Guarded ε Nat) = .ok (F.mul a b) :=
  remainder_of_pos (by omega)

theorem add_eq (a b : Nat) : (add F a b : Guarded ε Nat) = .ok (F.add a b) :=
  remainder_of_pos (by omega)

omit big in
/-- A loop whose steps all have results has the result of the plain loop. -/
theorem foldlM_of_ok {step : β → α → Guarded ε β} {plain : β → α → β}
    (each : ∀ b a, step b a = .ok (plain b a)) (l : List α) (b : β) :
    l.foldlM step b = .ok (l.foldl plain b) := by
  induction l generalizing b with
  | nil => rfl
  | cons a rest ih =>
    rw [List.foldlM_cons, each, ok_bind, ih, List.foldl_cons]

theorem differences_eq (x : Nat) (others : List Nat) :
    (differences F x others : Guarded ε Nat) = .ok (F.differences x others) := by
  refine foldlM_of_ok (fun product other => ?_) others 1
  rw [sub_eq big, ok_bind]
  exact mul_eq big product (F.sub x other)

theorem basis_eq (z x : Nat) (others : List Nat) :
    basis F z x others = answer (orCollision (F.basis? z x others)) := by
  have reduced : F.reduce (F.differences x others) = F.differences x others % F.modulus := rfl
  unfold basis PrimeField.basis? PrimeField.div PrimeField.inv
  rw [differences_eq big, ok_bind, differences_eq big, ok_bind, remainder_of_pos (by omega),
    ok_bind, reduced]
  by_cases zero : F.differences x others % F.modulus = 0
  · rw [if_pos zero, if_pos zero]
    rfl
  · rw [if_neg zero, if_neg zero, subtract_of_le big, ok_bind]
    exact mul_eq big _ _

theorem term_eq (z : Nat) (point : Nat × Nat) (others : List (Nat × Nat)) :
    term F z point others = answer (orCollision (do
      let weight ← F.basis? z point.1 (others.map (·.1))
      return F.mul point.2 weight)) := by
  unfold term
  rw [basis_eq big]
  cases F.basis? z point.1 (others.map (·.1)) with
  | none => rfl
  | some weight => exact mul_eq big point.2 weight

theorem interpolate_eq (points : List (Nat × Nat)) (z : Nat) :
    interpolate F points z = answer (orCollision (F.interpolate? points z)) := by
  unfold interpolate PrimeField.interpolate?
  rw [mapM_orCollision fun s : (Nat × Nat) × List (Nat × Nat) => term_eq big z s.1 s.2]
  dsimp only
  cases ((selections points).mapM _ : Option (List Nat)) with
  | none => rfl
  | some values => exact foldlM_of_ok (add_eq big) values 0

end Arithmetic

/-! ## Reconstruction -/

section Reconstruction

variable (s : Sharer)

/-- A further point lies on the polynomial through the base. -/
def checkExtra (base : List (Nat × Nat)) (point : PartyId × Nat × Nat) :
    Guarded ReconstructError Unit := do
  let y ← interpolate s.field base point.2.1
  if y = point.2.2 then pure () else fail (.corruption point.1)

/-- Recover the secret from the shares of more parties than the degree. -/
def reconstruct (shares : PartyShares) : Guarded ReconstructError Nat :=
  if shares.size < s.threshold then fail (.insufficientShares shares.size s.threshold)
  else do
    answer (shares.entries.forM s.checkEntry)
    let (base, extra) ← splitAt (s.pointsOf shares) s.threshold
    let secret ← interpolate s.field (base.map (·.2)) 0
    extra.forM (checkExtra s (base.map (·.2)))
    return secret

variable {s} (big : 2 ≤ s.field.modulus)
include big

theorem checkExtra_eq (base : List (Nat × Nat)) (point : PartyId × Nat × Nat) :
    checkExtra s base point = answer (s.checkExtra base point) := by
  unfold checkExtra Sharer.checkExtra
  rw [interpolate_eq big]
  cases s.field.interpolate? base point.2.1 with
  | none => rfl
  | some y =>
    show (if y = point.2.2 then _ else _) = answer (if y = point.2.2 then _ else _)
    split <;> rfl

/-- Entries that pass the checks all have points, as many as there are shares. -/
theorem reconstruct_eq_answer (shares : PartyShares) :
    reconstruct s shares = answer (s.reconstruct shares) := by
  unfold reconstruct Sharer.reconstruct
  split
  · rfl
  · rename_i enough
    rw [answer_bind]
    apply answer_bind_congr
    intro _ checked
    have sound := forM_eq_ok.mp checked
    have length : (s.pointsOf shares).length = shares.size :=
      Sharer.length_pointsOf fun e member => (Sharer.checkEntry_eq_ok.mp (sound e member)).1
    rw [splitAt_of_le (length ▸ not_lt.mp enough)]
    unfold Sharer.recover
    rw [ok_bind]
    dsimp only
    rw [interpolate_eq big]
    cases s.field.interpolate? (((s.pointsOf shares).take s.threshold).map (·.2)) 0 with
    | none => rfl
    | some secret =>
      rw [answer_bind, answer_forM,
        ← forM_congr fun point _ => checkExtra_eq big _ point]
      rfl

end Reconstruction

/-! ## Decoding -/

/-- The number of bytes that the shortest writing of a number takes; zero takes one. -/
def byteWidth (a : Nat) : Nat := max 1 ((bitLength a + 7) / 8)

section Decoding

variable (F : PrimeField)

/-- Bytes per chunk. -/
def chunkSize : Guarded ε Nat := do
  let bits ← subtract F.bits 1
  return bits / 8

/-- The number of chunks that a length fills. -/
def chunkCount (length size : Nat) : Guarded ε Nat :=
  if size = 0 then .error .outOfRange else .ok (Bytes.chunkCount length size)

/-- Decode a residue as a signed integer. -/
def decodeSigned (a : Nat) : Guarded ε Int := do
  let r ← remainder a F.modulus
  if F.half < r then
    let magnitude ← subtract F.modulus r
    return -(magnitude : Int)
  else return (r : Int)

/-- Decode a private key: its shortest writing goes to the end of a window of zeros. -/
def decodeKey (a : Nat) : Guarded FieldError (FixedBytes keySize) :=
  let bytes := Bytes.ofNatBE (byteWidth a) a
  if keySize < bytes.length then fail (F.outOfRange .wideScalar)
  else do
    let start ← subtract keySize bytes.length
    overwriteFrom ⟨List.replicate keySize 0, List.length_replicate⟩ start bytes

/-- Decode a reconstructed key, which must not be zero. -/
def decodeKeyAt (path : Path) (secret : Nat) : Guarded UnmaskError (FixedBytes keySize) :=
  if secret = 0 then fail (.corruption path none)
  else mapFailure (.encoding path) (decodeKey F secret)

/-- Decode a reconstructed scalar. -/
def decodeScalarAt (path : Path) (kind : ScalarKind) (secret : Nat) :
    Guarded UnmaskError SecretScalar :=
  match kind with
  | .integer => do return .integer (← decodeSigned F secret)
  | .unsignedInteger => do return .unsignedInteger (← remainder secret F.modulus)
  | .boolean => do
    let r ← remainder secret F.modulus
    if r = 0 then return .boolean false
    else if r = 1 then return .boolean true
    else fail (.corruption path none)
  | .ecdsaPrivateKey => do return .ecdsaPrivateKey (← decodeKeyAt F path secret)
  | .eddsaPrivateKey => do return .eddsaPrivateKey (← decodeKeyAt F path secret)

end Decoding

theorem lt_of_byteWidth (a : Nat) : a < 1 <<< (8 * byteWidth a) :=
  calc a < 1 <<< bitLength a := lt_one_shiftLeft_bitLength a
    _ ≤ 1 <<< (8 * byteWidth a) := one_shiftLeft_le_one_shiftLeft (by unfold byteWidth; omega)

/-- The shortest writing of a number is no longer than any other. -/
theorem byteWidth_le_iff {a w : Nat} (nonempty : 0 < w) : byteWidth a ≤ w ↔ a < 1 <<< (8 * w) := by
  constructor
  · intro short
    exact lt_of_lt_of_le (lt_of_byteWidth a) (one_shiftLeft_le_one_shiftLeft (by omega))
  · intro small
    by_contra long
    obtain ⟨k, length⟩ : ∃ k, bitLength a = k + 1 :=
      Nat.exists_eq_succ_of_ne_zero (by unfold byteWidth at long; omega)
    have below : 1 <<< (8 * w) ≤ 1 <<< k :=
      one_shiftLeft_le_one_shiftLeft (by unfold byteWidth at long; omega)
    have := one_shiftLeft_le_of_bitLength length
    omega

theorem toNatLE_zeros (k : Nat) : Bytes.toNatLE (List.replicate k 0) = 0 := by
  induction k with
  | zero => rfl
  | succ k ih =>
    show (0 : UInt8).toNat + 256 * Bytes.toNatLE (List.replicate k 0) = 0
    rw [ih]
    rfl

theorem toNatLE_append_zeros (b : Bytes) (k : Nat) :
    Bytes.toNatLE (b ++ List.replicate k 0) = b.toNatLE := by
  induction b with
  | nil => exact toNatLE_zeros k
  | cons x rest ih => rw [List.cons_append, Bytes.toNatLE, Bytes.toNatLE, ih]

theorem decodeKey_eq (F : PrimeField) (a : Nat) : decodeKey F a = answer (F.decodeKey a) := by
  unfold decodeKey PrimeField.decodeKey
  dsimp only
  rw [Bytes.length_ofNatBE]
  by_cases small : a < 1 <<< (8 * keySize)
  · have short : byteWidth a ≤ keySize := (byteWidth_le_iff (by decide)).mpr small
    rw [if_neg (not_lt.mpr short), if_pos small, subtract_of_le short, ok_bind, overwriteFrom,
      dif_pos (by rw [Bytes.length_ofNatBE]; omega)]
    refine congrArg Except.ok (SecretScalar.key_injective ?_)
    -- zeros in front do not count
    have zeros : List.take (keySize - byteWidth a) (List.replicate keySize (0 : UInt8)) =
        List.replicate (keySize - byteWidth a) 0 := by
      rw [List.take_replicate, min_eq_left (Nat.sub_le _ _)]
    show Bytes.toNatBE (List.take _ (List.replicate keySize 0) ++ Bytes.ofNatBE (byteWidth a) a) =
      Bytes.toNatBE (Bytes.ofNatBE keySize a)
    rw [zeros, Bytes.toNatBE, List.reverse_append, List.reverse_replicate, toNatLE_append_zeros,
      ← Bytes.toNatBE, Bytes.toNatBE_ofNatBE, Bytes.toNatBE_ofNatBE, Nat.mod_eq_of_lt small,
      Nat.mod_eq_of_lt (lt_of_byteWidth a)]
  · have long : keySize < byteWidth a := by
      rw [← not_le, byteWidth_le_iff (by decide)]
      exact small
    rw [if_pos long, if_neg small]
    rfl

section Decoders

variable {F : PrimeField} (big : 2 ≤ F.modulus)
include big

theorem chunkSize_eq : (chunkSize F : Guarded ε Nat) = .ok F.chunkSize := by
  have positive : 1 ≤ F.bits := by
    unfold PrimeField.bits bitLength
    rw [if_neg (by omega)]
    exact Nat.succ_pos _
  unfold chunkSize
  rw [subtract_of_le positive]
  rfl

theorem decodeSigned_eq (a : Nat) :
    (decodeSigned F a : Guarded ε Int) = .ok (F.decodeSigned a) := by
  have below : F.reduce a < F.modulus := F.reduce_lt (by omega) a
  have reduced : a % F.modulus = F.reduce a := rfl
  unfold decodeSigned PrimeField.decodeSigned
  rw [remainder_of_pos (by omega), ok_bind, reduced]
  by_cases upper : F.half < F.reduce a
  · rw [if_pos upper, if_pos upper, subtract_of_le below.le]
    rfl
  · rw [if_neg upper, if_neg upper]
    rfl

omit big in
theorem decodeKeyAt_eq (path : Path) (secret : Nat) :
    decodeKeyAt F path secret = answer (Masker.decodeKeyAt path F secret) := by
  unfold decodeKeyAt Masker.decodeKeyAt
  rw [decodeKey_eq, ← answer_mapError]
  split <;> rfl

theorem decodeScalarAt_eq (path : Path) (kind : ScalarKind) (secret : Nat) :
    decodeScalarAt F path kind secret = answer (Masker.decodeScalarAt path F kind secret) := by
  have positive : 0 < F.modulus := by omega
  cases kind with
  | integer =>
    unfold decodeScalarAt
    rw [decodeSigned_eq big]
    rfl
  | unsignedInteger =>
    unfold decodeScalarAt
    rw [remainder_of_pos positive]
    rfl
  | boolean =>
    have reduced : secret % F.modulus = F.reduce secret := rfl
    unfold decodeScalarAt Masker.decodeScalarAt PrimeField.decodeBool
    dsimp only
    rw [remainder_of_pos positive, ok_bind, reduced]
    by_cases zero : F.reduce secret = 0
    · rw [if_pos zero, if_pos zero]
      rfl
    · rw [if_neg zero, if_neg zero]
      by_cases one : F.reduce secret = 1
      · rw [if_pos one, if_pos one]
        rfl
      · rw [if_neg one, if_neg one]
        rfl
  | ecdsaPrivateKey =>
    unfold decodeScalarAt
    rw [decodeKeyAt_eq]
    unfold Masker.decodeScalarAt
    cases Masker.decodeKeyAt path F secret <;> rfl
  | eddsaPrivateKey =>
    unfold decodeScalarAt
    rw [decodeKeyAt_eq]
    unfold Masker.decodeScalarAt
    cases Masker.decodeKeyAt path F secret <;> rfl

end Decoders

end Guarded
end ThresholdMask
