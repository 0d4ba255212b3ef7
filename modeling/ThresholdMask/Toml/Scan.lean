/-!
# Scanning text

A `Scan` reads a value off the front of a list of characters, or fails. Repetition is bounded by the
number of characters that are left, since every round takes at least one.
-/

namespace ThresholdMask.Toml

/-- Read a value off the front of a text. -/
abbrev Scan := StateT (List Char) Option

/-! ## Characters -/

/-- A blank within a line. -/
def isBlank (c : Char) : Bool := c == ' ' || c == '\t'

/-- A character of a comment: a tab, or anything but a control character. -/
def isCommentChar (c : Char) : Bool := c == '\t' || (32 ≤ c.toNat && c.toNat ≠ 127)

/-- A decimal digit. -/
def isDecimal (c : Char) : Bool := '0' ≤ c && c ≤ '9'

/-- A hexadecimal digit, in either case. -/
def isHexadecimal (c : Char) : Bool :=
  isDecimal c || ('a' ≤ c && c ≤ 'f') || ('A' ≤ c && c ≤ 'F')

/-- A character of a bare key. -/
def isBareKeyChar (c : Char) : Bool :=
  isDecimal c || ('a' ≤ c && c ≤ 'z') || ('A' ≤ c && c ≤ 'Z') || c == '_' || c == '-'

/-- The number that a digit writes in the bases up to sixteen. -/
def digitValue (c : Char) : Nat :=
  if isDecimal c then c.toNat - '0'.toNat
  else if 'a' ≤ c then c.toNat - 'a'.toNat + 10
  else c.toNat - 'A'.toNat + 10

/-- The number that digits write in a base. -/
def numberOf (base : Nat) (digits : List Char) : Nat :=
  digits.foldl (fun n c => base * n + digitValue c) 0

namespace Scan

/-- The next character, without taking it. -/
def peek? : Scan (Option Char) := fun cs => some (cs.head?, cs)

/-- The next character. -/
def next : Scan Char
  | [] => none
  | c :: rest => some (c, rest)

/-- A character that satisfies a condition. -/
def satisfying (p : Char → Bool) : Scan Char
  | [] => none
  | c :: rest => if p c then some (c, rest) else none

/-- One given character. -/
def char (c : Char) : Scan Unit := do
  let _ ← satisfying (· == c)

/-- A given text. -/
def exactly (text : List Char) : Scan Unit := fun cs =>
  if text.isPrefixOf cs then some ((), cs.drop text.length) else none

/-- Characters as long as they satisfy a condition. -/
def many (p : Char → Bool) : Scan (List Char) := fun cs => some (cs.span p)

/-- At least one character, as long as they satisfy a condition. -/
def many1 (p : Char → Bool) : Scan (List Char) := do
  let first ← satisfying p
  let rest ← many p
  return first :: rest

/-- So many characters that satisfy a condition. -/
def times (p : Char → Bool) : Nat → Scan (List Char)
  | 0 => return []
  | n + 1 => do
    let first ← satisfying p
    let rest ← times p n
    return first :: rest

/-- Read if possible; a failure takes nothing. -/
def attempt {α : Type} (scan : Scan α) : Scan (Option α) := fun cs =>
  match scan cs with
  | some (a, rest) => some (some a, rest)
  | none => some (none, cs)

/-- The first of two that succeeds. -/
def orElse {α : Type} (first second : Scan α) : Scan α := fun cs =>
  match first cs with
  | some result => some result
  | none => second cs

/-- Rounds of reading until one ends or fails; `rounds` bounds their number. -/
def loop {σ : Type} (step : σ → Scan (σ × Bool)) : Nat → σ → Scan σ
  | 0, s => return s
  | rounds + 1, s => do
    let (s, again) ← step s
    if again then loop step rounds s else return s

/-- Rounds of reading, each of which takes at least one character. -/
def repeatedly {σ : Type} (step : σ → Scan (σ × Bool)) (start : σ) : Scan σ := fun cs =>
  loop step (cs.length + 1) start cs

/-! ## Lines -/

/-- Blanks within a line. -/
def blanks : Scan Unit := do
  let _ ← many isBlank

/-- The end of a line: a line feed, perhaps behind a carriage return. -/
def newline : Scan Unit
  | '\n' :: rest => some ((), rest)
  | '\r' :: '\n' :: rest => some ((), rest)
  | _ => none

/-- The end of a line or of the text. -/
def lineEnd : Scan Unit
  | [] => some ((), [])
  | cs => newline cs

/-- A comment, without the end of its line. -/
def comment : Scan Unit := do
  char '#'
  let _ ← many isCommentChar

/-- What may follow an entry on its line. -/
def lineTrailing : Scan Unit := do
  blanks
  let _ ← attempt comment
  lineEnd

/-- Blanks, comments and ends of lines, as between the items of an array. -/
def blankLines : Scan Unit :=
  repeatedly (fun _ => do
    blanks
    match ← peek? with
    | some '#' =>
      comment
      newline
      return ((), true)
    | some '\n' | some '\r' =>
      newline
      return ((), true)
    | _ => return ((), false)) ()

end Scan
end ThresholdMask.Toml
