import ThresholdMask.Bytes.Hex

/-!
# Party identifiers

A party is named by an arbitrary byte string, shown in hexadecimal. Identifiers are ordered byte by
byte, a beginning of another one first.
-/

namespace ThresholdMask

/-- The identifier of a party. -/
structure PartyId where
  bytes : Bytes
  deriving DecidableEq, Repr

namespace PartyId

/-- Read an identifier from its hexadecimal form. -/
def ofHex (s : String) : Except HexError PartyId := (Hex.decode s).map PartyId.mk

/-- The identifier whose bytes are the UTF-8 form of a name. -/
def ofName (s : String) : PartyId := ⟨Bytes.ofText s⟩

/-- The hexadecimal form. -/
def toHex (p : PartyId) : String := Hex.encode p.bytes

/-- Byte-wise order. -/
instance : LE PartyId := ⟨fun a b => a.bytes ≤ b.bytes⟩

instance (a b : PartyId) : Decidable (a ≤ b) := inferInstanceAs (Decidable (a.bytes ≤ b.bytes))

/-- Put identifiers in byte-wise order. -/
def sort (ps : List PartyId) : List PartyId := ps.mergeSort fun a b => decide (a ≤ b)

theorem ofHex_toHex (p : PartyId) : ofHex p.toHex = .ok p := by
  simp [ofHex, toHex, Hex.decode_encode, Except.map]

end PartyId
end ThresholdMask
