import ThresholdMask.Bytes
import ThresholdMask.Data
import ThresholdMask.Field.Basic

/-!
# Numbers and bytes as data

Numbers of any size are lists of 32-bit words, least significant first. Written, they have no high
zero word, so that zero is the empty list; read, they may have. An integer is its sign and its
magnitude. A byte string is the list of its bytes; a text is read as its UTF-8 bytes.

The main statements are that reading gives back what was written: `decodeNatural?_encodeNatural`,
`decodeInteger?_encodeInteger` and `decodeBytes?_encodeBytes`.
-/

namespace ThresholdMask.Data

/-! ## Natural numbers -/

/-- One more than the largest word. -/
def wordBound : Nat := UInt32.size

/-- The number of words of a number. -/
def wordCount (n : Nat) : Nat := (bitLength n + 31) / 32

/-- So many low words of a number, least significant first. -/
def words : Nat → Nat → List Nat
  | 0, _ => []
  | count + 1, n => n % wordBound :: words count (n / wordBound)

/-- The number with these words. -/
def ofWords (ws : List Nat) : Nat := ws.foldr (fun w n => w + wordBound * n) 0

/-- One more word makes room for `wordBound` times as many numbers. -/
theorem one_shiftLeft_succ (count : Nat) :
    1 <<< (32 * (count + 1)) = wordBound * (1 <<< (32 * count)) := by
  rw [Nat.one_shiftLeft, Nat.one_shiftLeft, Nat.mul_succ, Nat.pow_add, Nat.mul_comm]
  rfl

theorem ofWords_words (count n : Nat) : ofWords (words count n) = n % (1 <<< (32 * count)) := by
  induction count generalizing n with
  | zero => simp [words, ofWords, Nat.mod_one]
  | succ count ih =>
    have rest := ih (n / wordBound)
    rw [ofWords] at rest
    rw [words, ofWords, List.foldr_cons, rest, one_shiftLeft_succ, Nat.mod_mul]

theorem lt_wordBound_of_mem_words {count n w : Nat} (h : w ∈ words count n) : w < wordBound := by
  induction count generalizing n with
  | zero => cases h
  | succ count ih =>
    rw [words, List.mem_cons] at h
    rcases h with rfl | h
    · exact Nat.mod_lt _ (by decide)
    · exact ih h

theorem lt_one_shiftLeft_wordCount (n : Nat) : n < 1 <<< (32 * wordCount n) := by
  have enough : bitLength n ≤ 32 * wordCount n := by
    unfold wordCount
    omega
  calc n < 1 <<< bitLength n := lt_one_shiftLeft_bitLength n
    _ ≤ 1 <<< (32 * wordCount n) := one_shiftLeft_le_one_shiftLeft enough

/-- Write a natural number. -/
def encodeNatural (n : Nat) : Data := list ((words (wordCount n) n).map natural)

/-- Read a natural number. -/
def decodeNatural? (d : Data) : Option Nat := do
  let items ← d.items?
  let ws ← items.mapM (natural? wordBound)
  return ofWords ws

theorem decodeNatural?_encodeNatural (n : Nat) : decodeNatural? (encodeNatural n) = some n := by
  have read : ((words (wordCount n) n).map natural).mapM (natural? wordBound) =
      some (words (wordCount n) n) :=
    mapM_map_eq_some fun _ h => natural?_natural (lt_wordBound_of_mem_words h)
  have value : ofWords (words (wordCount n) n) = n := by
    rw [ofWords_words, Nat.mod_eq_of_lt (lt_one_shiftLeft_wordCount n)]
  simp only [decodeNatural?, encodeNatural, items?, Option.bind_eq_bind, Option.bind_some, read,
    Option.pure_def, value]

/-! ## Integers -/

/-- Write an integer: its sign, then its magnitude. -/
def encodeInteger (v : Int) : Data := list [integer v.sign, encodeNatural v.natAbs]

/-- Read an integer. A zero on either side makes it zero. -/
def decodeInteger? : Data → Option Int
  | list [integer sign, magnitude] =>
    if sign = -1 ∨ sign = 0 ∨ sign = 1 then
      (decodeNatural? magnitude).map fun (n : Nat) => sign * (n : Int)
    else none
  | _ => none

theorem decodeInteger?_encodeInteger (v : Int) : decodeInteger? (encodeInteger v) = some v := by
  have sign : v.sign = -1 ∨ v.sign = 0 ∨ v.sign = 1 := by
    rcases Int.lt_trichotomy v 0 with h | rfl | h
    · exact .inl (Int.sign_eq_neg_one_of_neg h)
    · exact .inr (.inl rfl)
    · exact .inr (.inr (Int.sign_eq_one_of_pos h))
  rw [encodeInteger, decodeInteger?, if_pos sign, decodeNatural?_encodeNatural, Option.map_some,
    Int.sign_mul_natAbs]

/-! ## Byte strings -/

/-- Write a byte string. -/
def encodeBytes (b : Bytes) : Data := list (b.map fun x => natural x.toNat)

/-- Read a byte string. -/
def decodeBytes? : Data → Option Bytes
  | list items => (items.mapM (natural? 256)).map fun ns => ns.map UInt8.ofNat
  | text s => some (Bytes.ofText s)
  | _ => none

/-- Read a byte string of fixed length. -/
def decodeFixed? (n : Nat) (d : Data) : Option (FixedBytes n) := do
  let b ← decodeBytes? d
  if h : b.length = n then some ⟨b, h⟩ else none

theorem decodeBytes?_encodeBytes (b : Bytes) : decodeBytes? (encodeBytes b) = some b := by
  have read : ((b.map UInt8.toNat).map natural).mapM (natural? 256) = some (b.map UInt8.toNat) := by
    refine mapM_map_eq_some fun n hn => natural?_natural ?_
    obtain ⟨x, -, rfl⟩ := List.mem_map.mp hn
    exact x.toNat_lt
  rw [List.map_map] at read
  have same : encodeBytes b = list (b.map (natural ∘ UInt8.toNat)) := rfl
  have back : UInt8.ofNat ∘ UInt8.toNat = id := funext fun x => by simp
  rw [same, decodeBytes?, read, Option.map_some, List.map_map, back, List.map_id]

theorem decodeFixed?_encodeBytes {n : Nat} (b : FixedBytes n) :
    decodeFixed? n (encodeBytes b.val) = some b := by
  simp [decodeFixed?, decodeBytes?_encodeBytes, b.property]

end ThresholdMask.Data
