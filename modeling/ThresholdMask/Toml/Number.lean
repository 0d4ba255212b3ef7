import ThresholdMask.Toml.Scan
import ThresholdMask.Toml.Value

/-!
# Numbers and dates

Integers are decimal with a sign, or hexadecimal, octal or binary without one, and lie in the signed
64-bit range; single underscores may stand between digits. Floats have a fraction or an exponent and
must not be too large for a 64-bit float, unless they are negative. Dates and times are checked
against the calendar.
-/

namespace ThresholdMask.Toml.Scan

/-! ## Digits -/

/-- Digits with single underscores between them, which are dropped; at least one digit. -/
def digits (p : Char → Bool) : Scan (List Char) := do
  let first ← satisfying p
  repeatedly (fun text => do
    match ← peek? with
    | some '_' =>
      char '_'
      return (text ++ [← satisfying p], true)
    | some c =>
      if p c then
        let c ← next
        return (text ++ [c], true)
      else return (text, false)
    | none => return (text, false)) [first]

/-- A sign; true for minus. -/
def sign? : Scan (Option Bool) := do
  match ← peek? with
  | some '+' => char '+'; return some false
  | some '-' => char '-'; return some true
  | _ => return none

/-- A decimal integer: whether it is negative, and its digits, of which the first is zero only if it
is the only one. -/
def decimal : Scan (Bool × List Char) := do
  let negative := (← sign?).getD false
  match ← peek? with
  | some '0' =>
    char '0'
    return (negative, ['0'])
  | _ => return (negative, ← digits isDecimal)

/-! ## Integers -/

/-- An integer of the signed 64-bit range. -/
def inRange (n : Int) : Scan Value :=
  if Int64.minValue.toInt ≤ n ∧ n ≤ Int64.maxValue.toInt then return .integer n else failure

/-- An integer in a base, behind the two characters that announce the base. -/
def based (mark : List Char) (base : Nat) (p : Char → Bool) : Scan Value := do
  exactly mark
  inRange (numberOf base (← digits p))

/-- An integer. -/
def integer : Scan Value := fun cs =>
  let scan : Scan Value :=
    if ['0', 'x'].isPrefixOf cs then based ['0', 'x'] 16 isHexadecimal
    else if ['0', 'o'].isPrefixOf cs then based ['0', 'o'] 8 fun c => '0' ≤ c && c ≤ '7'
    else if ['0', 'b'].isPrefixOf cs then based ['0', 'b'] 2 fun c => c == '0' || c == '1'
    else do
      let (negative, ds) ← decimal
      let magnitude : Int := numberOf 10 ds
      inRange (if negative then -magnitude else magnitude)
  scan cs

/-! ## Floats -/

/-- A number with zeros appended to its decimal digits. -/
def appendZeros (n : Nat) : Nat → Nat
  | 0 => n
  | zeros + 1 => 10 * appendZeros n zeros

/-- The number `mantissa · 10 ^ exponent` is rounded to infinity: it is not below the middle between
the largest 64-bit float and the next power of two. -/
def overflows (mantissa : Nat) (exponent : Int) : Bool :=
  let size : Int := (toString mantissa).length + exponent
  if mantissa = 0 ∨ size < 300 then false
  else if 400 < size then true
  else
    let bound := (1 <<< 1024) - (1 <<< 970)
    decide (appendZeros bound (-exponent).toNat ≤ appendZeros mantissa exponent.toNat)

/-- The exponent of a float. -/
def exponentPart : Scan Int := do
  let _ ← satisfying fun c => c == 'e' || c == 'E'
  let negative := (← sign?).getD false
  let magnitude : Int := numberOf 10 (← digits isDecimal)
  return if negative then -magnitude else magnitude

/-- A float in digits. -/
def plainFloat : Scan Value := do
  let (negative, whole) ← decimal
  let fraction ← attempt (do char '.'; digits isDecimal)
  let exponent ← attempt exponentPart
  if fraction.isNone && exponent.isNone then failure
  let fraction := fraction.getD []
  let mantissa := numberOf 10 (whole ++ fraction)
  if !negative && overflows mantissa (exponent.getD 0 - fraction.length) then failure
  return .float

/-- Infinity or no number, with a sign or without. -/
def specialFloat : Scan Value := do
  let _ ← sign?
  orElse (exactly "inf".toList) (exactly "nan".toList)
  return .float

/-! ## Dates and times -/

/-- A number of so many digits, within bounds. -/
def field (size low high : Nat) : Scan Nat := do
  let n := numberOf 10 (← times isDecimal size)
  if low ≤ n ∧ n ≤ high then return n else failure

/-- The number of days of a month. -/
def daysIn (year month : Nat) : Nat :=
  if month = 2 then
    if year % 4 = 0 ∧ (year % 100 ≠ 0 ∨ year % 400 = 0) then 29 else 28
  else if month = 4 ∨ month = 6 ∨ month = 9 ∨ month = 11 then 30
  else 31

/-- A date. -/
def date : Scan Unit := do
  let year ← field 4 0 9999
  char '-'
  let month ← field 2 1 12
  char '-'
  let _ ← field 2 1 (daysIn year month)

/-- A time of day; a leap second counts. -/
def time : Scan Unit := do
  let _ ← field 2 0 23
  char ':'
  let _ ← field 2 0 59
  char ':'
  let _ ← field 2 0 60
  let _ ← attempt (do char '.'; many1 isDecimal)

/-- The distance from universal time. -/
def offset : Scan Unit :=
  orElse (do let _ ← satisfying fun c => c == 'Z' || c == 'z') do
    let _ ← satisfying fun c => c == '+' || c == '-'
    let _ ← field 2 0 23
    char ':'
    let _ ← field 2 0 59

/-- A date, a time, or both, these perhaps with an offset. -/
def dateTime : Scan Value := do
  orElse
    (do
      date
      let _ ← attempt (do
        let _ ← satisfying fun c => c == 'T' || c == 't' || c == ' '
        time
        let _ ← attempt offset)
      return ())
    time
  return .dateTime

/-- A number or a date. -/
def number : Scan Value :=
  orElse dateTime (orElse plainFloat (orElse specialFloat integer))

end ThresholdMask.Toml.Scan
