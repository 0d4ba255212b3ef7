import ThresholdMask.Field.Basic

/-!
# The fixed moduli

Three safe primes, one of which a masker works over, and the orders of two elliptic-curve groups,
in which private keys may be shared instead. A safe prime is chosen by name (`u64`, `u128`,
`u256`) or by its size alone, in either case.
-/

namespace ThresholdMask

/-- The choice of a safe prime, by its size in bits. -/
inductive SafePrime where
  | u64
  | u128
  | u256
  deriving DecidableEq, Repr

/-- A text that names no safe prime, as it was compared. -/
structure UnknownPrime where
  text : String
  deriving DecidableEq, Repr

/-- The text of the error. -/
def UnknownPrime.message (e : UnknownPrime) : String := s!"unknown safe prime: {e.text}"

namespace SafePrime

/-- The largest of the three serves where none is chosen. -/
instance : Inhabited SafePrime := ⟨u256⟩

/-- All three, smallest first. -/
def all : List SafePrime := [u64, u128, u256]

/-- The prime itself. -/
def modulus : SafePrime → Nat
  | u64 => 0xffffffffc0200003
  | u128 => 0xffffffffffffffffffffffff61400003
  | u256 => 0xffffffffffffffffffffffffffffffffffffffffffffffffffffffff98c00003

/-- The nominal size in bits. -/
def bits : SafePrime → Nat
  | u64 => 64
  | u128 => 128
  | u256 => 256

/-- The name used in settings. -/
def name : SafePrime → String
  | u64 => "u64"
  | u128 => "u128"
  | u256 => "u256"

/-- The prime with a name. -/
def ofName? (name : String) : Option SafePrime := all.find? (·.name == name)

/-- The field of the prime. -/
def field (p : SafePrime) : PrimeField := ⟨p.modulus⟩

/-- The prime that a text in lower case names, by name or by size. -/
def ofText? : String → Option SafePrime
  | "u64" | "64" => some u64
  | "u128" | "128" => some u128
  | "u256" | "256" => some u256
  | _ => none

/-- Read the choice of a prime; ASCII letters count in either case. -/
def parse (s : String) : Except UnknownPrime SafePrime :=
  let text := String.ofList (s.toList.map Char.toLower)
  match ofText? text with
  | some p => .ok p
  | none => .error ⟨text⟩

theorem bitLength_modulus (p : SafePrime) : bitLength p.modulus = p.bits := by
  cases p <;> decide

theorem name_injective {p q : SafePrime} (h : p.name = q.name) : p = q := by
  cases p <;> cases q <;> simp_all [name]

end SafePrime

namespace PrimeField

/-- The field of secp256k1 scalars, for ECDSA keys. -/
def secp256k1Order : PrimeField :=
  ⟨0xfffffffffffffffffffffffffffffffebaaedce6af48a03bbfd25e8cd0364141⟩

/-- The field of ed25519 scalars, for EdDSA keys. -/
def ed25519Order : PrimeField :=
  ⟨0x1000000000000000000000000000000014def9dea2f79cd65812631a5cf5d3ed⟩

end PrimeField
end ThresholdMask
