import ThresholdMask.Bytes

/-!
# Hexadecimal text

`Hex.encode` writes two lower-case digits per byte, the high half first. `Hex.decode` reads digits
of either case and refuses, in this order, a text of an odd number of bytes and the first byte that
is no digit. Positions and lengths count the bytes of the UTF-8 form of the text.

The main statement is `decode_encode`: reading gives back what was written.
-/

namespace ThresholdMask

/-- Why a text is not the hexadecimal form of a byte string. -/
inductive HexError where
  /-- The text has an odd number of bytes. -/
  | oddLength
  /-- The byte at this position is no hexadecimal digit. -/
  | invalidByte (byte : UInt8) (position : Nat)
  deriving DecidableEq, Repr

namespace Hex

/-! ## Digits -/

/-- The digit that writes a number below sixteen. -/
def digit (n : Nat) : Char :=
  if n < 10 then Char.ofNat (48 + n) else Char.ofNat (87 + n)

/-- The number that a digit byte writes, in either case. -/
def digitValue? (b : UInt8) : Option Nat :=
  let n := b.toNat
  if 48 ≤ n ∧ n ≤ 57 then some (n - 48)
  else if 97 ≤ n ∧ n ≤ 102 then some (n - 87)
  else if 65 ≤ n ∧ n ≤ 70 then some (n - 55)
  else none

/-! ## Writing and reading -/

/-- The digits of a byte string, two per byte. -/
def digits (b : Bytes) : List Char :=
  b.flatMap fun x => [digit (x.toNat / 16), digit (x.toNat % 16)]

/-- The lower-case hexadecimal form of a byte string. -/
def encode (b : Bytes) : String := String.ofList (digits b)

/-- The value of the digit byte at a position. -/
def readDigit (b : UInt8) (position : Nat) : Except HexError Nat :=
  match digitValue? b with
  | some n => .ok n
  | none => .error (.invalidByte b position)

/-- Read digit bytes two at a time; `position` is that of the first one. -/
def decodePairs (position : Nat) : List UInt8 → Except HexError Bytes
  | [] => .ok []
  | [_] => .error .oddLength
  | high :: low :: rest => do
    let h ← readDigit high position
    let l ← readDigit low (position + 1)
    let bytes ← decodePairs (position + 2) rest
    return UInt8.ofNat (16 * h + l) :: bytes

/-- The byte string that a text writes; the length is checked before any digit. -/
def decode (s : String) : Except HexError Bytes :=
  let text := Bytes.ofText s
  if text.length % 2 = 1 then .error .oddLength else decodePairs 0 text

/-! ## Reading undoes writing -/

theorem utf8EncodeChar_digit {n : Nat} (h : n < 16) :
    ∃ b, String.utf8EncodeChar (digit n) = [b] ∧ digitValue? b = some n := by
  have table : ∀ k : Fin 16, ∃ b, String.utf8EncodeChar (digit k) = [b] ∧
      digitValue? b = some k.val := by
    intro k
    refine ⟨UInt8.ofNat (digit k).toNat, ?_, ?_⟩ <;> revert k <;> decide
  exact table ⟨n, h⟩

theorem decodePairs_digits (b : Bytes) (position : Nat) :
    decodePairs position ((digits b).flatMap String.utf8EncodeChar) = .ok b := by
  induction b generalizing position with
  | nil => rfl
  | cons x xs ih =>
    have hx := x.toNat_lt
    obtain ⟨h, hh, hv⟩ := utf8EncodeChar_digit (n := x.toNat / 16) (by omega)
    obtain ⟨l, hl, lv⟩ := utf8EncodeChar_digit (n := x.toNat % 16) (by omega)
    have split : (digits (x :: xs)).flatMap String.utf8EncodeChar =
        h :: l :: (digits xs).flatMap String.utf8EncodeChar := by
      simp [digits, hh, hl]
    have whole : UInt8.ofNat (16 * (x.toNat / 16) + x.toNat % 16) = x := by
      rw [Nat.div_add_mod]
      simp
    rw [split, decodePairs]
    simp [readDigit, hv, lv, ih, whole, bind, Except.bind, pure, Except.pure]

theorem length_digits (b : Bytes) :
    ((digits b).flatMap String.utf8EncodeChar).length = 2 * b.length := by
  induction b with
  | nil => rfl
  | cons x xs ih =>
    have hx := x.toNat_lt
    obtain ⟨h, hh, -⟩ := utf8EncodeChar_digit (n := x.toNat / 16) (by omega)
    obtain ⟨l, hl, -⟩ := utf8EncodeChar_digit (n := x.toNat % 16) (by omega)
    have split : (digits (x :: xs)).flatMap String.utf8EncodeChar =
        h :: l :: (digits xs).flatMap String.utf8EncodeChar := by
      simp [digits, hh, hl]
    rw [split]
    simp only [List.length_cons, ih]
    omega

theorem decode_encode (b : Bytes) : decode (encode b) = .ok b := by
  have text : Bytes.ofText (encode b) = (digits b).flatMap String.utf8EncodeChar := by
    rw [Bytes.ofText, encode, String.toList_ofList]
  have even : ¬ (2 * b.length) % 2 = 1 := by omega
  rw [decode, text, length_digits, decodePairs_digits]
  exact if_neg even

end Hex

namespace HexError

/-- The hexadecimal digits of a number without leading zeros. -/
def shortHex (n : Nat) : String := String.ofList (Nat.toDigits 16 n)

/-- A byte as a quoted character: control characters, blanks other than the space and the soft
hyphen are shown by their number, quotes and backslashes behind a backslash. -/
def quoted (b : UInt8) : String :=
  let n := b.toNat
  let body :=
    if n = 0 then "\\0"
    else if n = 9 then "\\t"
    else if n = 10 then "\\n"
    else if n = 13 then "\\r"
    else if n = 39 then "\\'"
    else if n = 92 then "\\\\"
    else if n < 32 ∨ (127 ≤ n ∧ n ≤ 160) ∨ n = 173 then
      "\\u\x7b" ++ shortHex n ++ "\x7d"
    else String.singleton (Char.ofNat n)
  "'" ++ body ++ "'"

/-- The text of the error. -/
def message : HexError → String
  | oddLength => "Odd number of digits"
  | invalidByte b i => s!"Invalid character {quoted b} at position {i}"

end HexError
end ThresholdMask
