import ThresholdMask.Settings

/-!
# Overrides

Four variables override settings: the prime, the degree, the security parameter, and whether the
full roster is required. A number or a prime that cannot be read leaves the setting as it was; the
last variable is true for `1` and for `true` in any case, and false for every other text.
-/

namespace ThresholdMask

/-- Variables by name. -/
abbrev Environment := String → Option String

/-- One more than the largest degree that can be written. -/
def degreeBound : Nat := UInt64.size

/-- One more than the largest security parameter. -/
def kappaBound : Nat := UInt32.size

/-- The number that a digit writes. -/
def decimalDigit? (c : Char) : Option Nat :=
  if '0' ≤ c ∧ c ≤ '9' then some (c.toNat - '0'.toNat) else none

/-- The number that decimal digits write, behind the digits already read. -/
def decimalFrom (value : Nat) : List Char → Option Nat
  | [] => some value
  | c :: rest => (decimalDigit? c).bind fun d => decimalFrom (10 * value + d) rest

/-- The number that one digit or more write. -/
def decimalDigits? : List Char → Option Nat
  | [] => none
  | digits => decimalFrom 0 digits

/-- Read a natural number below a bound: digits, perhaps behind a plus sign. -/
def naturalBelow? (bound : Nat) (s : String) : Option Nat :=
  let digits := match s.toList with
    | '+' :: rest => rest
    | cs => cs
  match decimalDigits? digits with
  | some n => if n < bound then some n else none
  | none => none

/-- Read a choice between yes and no. -/
def truthy (s : String) : Bool :=
  s == "1" || s.toList.map Char.toLower == "true".toList

namespace Settings

/-- The variable that overrides the prime. -/
def primeVariable : String := "VEILSHARE_PRIME"

/-- The variable that overrides the degree. -/
def degreeVariable : String := "VEILSHARE_DEGREE"

/-- The variable that overrides the security parameter. -/
def kappaVariable : String := "VEILSHARE_KAPPA"

/-- The variable that overrides whether the full roster is required. -/
def fullRosterVariable : String := "VEILSHARE_REQUIRE_FULL_ROSTER"

/-- Apply the overriding variables. -/
def override (s : Settings) (env : Environment) : Settings :=
  { s with
    prime := ((env primeVariable).bind (SafePrime.parse · |>.toOption)).getD s.prime
    degree := ((env degreeVariable).bind (naturalBelow? degreeBound)).getD s.degree
    options :=
      { s.options with
        kappa := ((env kappaVariable).bind (naturalBelow? kappaBound)).getD s.options.kappa
        requireFullRoster :=
          ((env fullRosterVariable).map truthy).getD s.options.requireFullRoster } }

theorem override_none (s : Settings) : s.override (fun _ => none) = s := rfl

end Settings
end ThresholdMask
