/-!
# Byte strings and the numbers they write

A byte string is a list of bytes. Two codecs tie byte strings to natural numbers: *little-endian*
(`toNatLE`, `ofNatLE`), used for blob chunks and for framing lengths, and *big-endian*
(`toNatBE`, `ofNatBE`), used for private keys.

Both writers take the width as an argument, so a number keeps its leading zeros:
`toNatLE_ofNatLE` says that writing a number in `w` bytes keeps it modulo `1 <<< (8 * w)`, and
`ofNatLE_toNatLE` that reading loses nothing once the length is known.
-/

namespace ThresholdMask

/-- A byte string. -/
abbrev Bytes := List UInt8

/-- A byte string of exactly `n` bytes. -/
abbrev FixedBytes (n : Nat) := { b : Bytes // b.length = n }

namespace Bytes

/-! ## Little-endian numbers -/

/-- The `w` low bytes of a number, least significant first. -/
def ofNatLE : Nat → Nat → Bytes
  | 0, _ => []
  | w + 1, n => UInt8.ofNat n :: ofNatLE w (n / 256)

/-- The number whose bytes, least significant first, are these. -/
def toNatLE : Bytes → Nat
  | [] => 0
  | b :: bs => b.toNat + 256 * toNatLE bs

@[simp] theorem length_ofNatLE (w n : Nat) : (ofNatLE w n).length = w := by
  induction w generalizing n with
  | zero => rfl
  | succ w ih => simp [ofNatLE, ih]

/-- One more byte makes room for 256 times as many numbers. -/
theorem one_shiftLeft_succ (w : Nat) : 1 <<< (8 * (w + 1)) = 256 * (1 <<< (8 * w)) := by
  rw [Nat.one_shiftLeft, Nat.one_shiftLeft, Nat.mul_succ, Nat.pow_add, Nat.mul_comm]

theorem toNatLE_ofNatLE (w n : Nat) : toNatLE (ofNatLE w n) = n % (1 <<< (8 * w)) := by
  induction w generalizing n with
  | zero => simp [ofNatLE, toNatLE, Nat.mod_one]
  | succ w ih =>
    have low : (UInt8.ofNat n).toNat = n % 256 := by simp
    rw [ofNatLE, toNatLE, ih, low, one_shiftLeft_succ, Nat.mod_mul]

/-- Numbers that fit into the width are told apart by their bytes. -/
theorem ofNatLE_inj {w m n : Nat} (hm : m < 1 <<< (8 * w)) (hn : n < 1 <<< (8 * w)) :
    ofNatLE w m = ofNatLE w n ↔ m = n := by
  refine ⟨fun same => ?_, fun same => same ▸ rfl⟩
  have numbers := congrArg toNatLE same
  rwa [toNatLE_ofNatLE, toNatLE_ofNatLE, Nat.mod_eq_of_lt hm, Nat.mod_eq_of_lt hn] at numbers

theorem toNatLE_lt (b : Bytes) : toNatLE b < 1 <<< (8 * b.length) := by
  induction b with
  | nil => simp [toNatLE]
  | cons x xs ih =>
    have hx := x.toNat_lt
    rw [toNatLE, List.length_cons, one_shiftLeft_succ]
    omega

theorem ofNatLE_toNatLE (b : Bytes) : ofNatLE b.length (toNatLE b) = b := by
  induction b with
  | nil => rfl
  | cons x xs ih =>
    have hx := x.toNat_lt
    have low : UInt8.ofNat (x.toNat + 256 * toNatLE xs) = x := by
      apply UInt8.toNat_inj.mp
      simp
    have high : (x.toNat + 256 * toNatLE xs) / 256 = toNatLE xs := by omega
    rw [toNatLE, List.length_cons, ofNatLE, low, high, ih]

/-- Byte strings of one length are told apart by the numbers that they write. -/
theorem toNatLE_inj {b c : Bytes} (lengths : b.length = c.length) :
    toNatLE b = toNatLE c ↔ b = c := by
  constructor
  · intro same
    rw [← ofNatLE_toNatLE b, ← ofNatLE_toNatLE c, lengths, same]
  · rintro rfl
    rfl

/-! ## Big-endian numbers -/

/-- The `w` low bytes of a number, most significant first. -/
def ofNatBE (w n : Nat) : Bytes := (ofNatLE w n).reverse

/-- The number whose bytes, most significant first, are these. -/
def toNatBE (b : Bytes) : Nat := toNatLE b.reverse

@[simp] theorem length_ofNatBE (w n : Nat) : (ofNatBE w n).length = w := by
  simp [ofNatBE]

theorem toNatBE_ofNatBE (w n : Nat) : toNatBE (ofNatBE w n) = n % (1 <<< (8 * w)) := by
  simp [toNatBE, ofNatBE, toNatLE_ofNatLE]

theorem toNatBE_lt (b : Bytes) : toNatBE b < 1 <<< (8 * b.length) := by
  simpa [toNatBE] using toNatLE_lt b.reverse

theorem ofNatBE_toNatBE (b : Bytes) : ofNatBE b.length (toNatBE b) = b := by
  have h := ofNatLE_toNatLE b.reverse
  simp only [List.length_reverse] at h
  simp [ofNatBE, toNatBE, h]

theorem toNatBE_inj {b c : Bytes} (lengths : b.length = c.length) :
    toNatBE b = toNatBE c ↔ b = c := by
  unfold toNatBE
  rw [toNatLE_inj (by simpa using lengths), List.reverse_inj]

/-! ## Chunks -/

/-- The number of chunks of at most `size` bytes that `length` bytes fill. -/
def chunkCount (length size : Nat) : Nat := (length + size - 1) / size

/-- Cut a byte string into chunks of `size` bytes, of which the last may be shorter. -/
def chunks (size : Nat) (b : Bytes) : List Bytes :=
  (List.range (chunkCount b.length size)).map fun i => (b.drop (size * i)).take size

@[simp] theorem length_chunks (size : Nat) (b : Bytes) :
    (chunks size b).length = chunkCount b.length size := by
  simp [chunks]

/-! ## Zero strings and texts -/

/-- Every byte is zero; the empty string counts. -/
def isZero (b : Bytes) : Bool := b.all (· == 0)

/-- The UTF-8 bytes of a text. -/
def ofText (s : String) : Bytes := s.toList.flatMap String.utf8EncodeChar

end Bytes
end ThresholdMask
