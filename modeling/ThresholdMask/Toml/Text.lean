import ThresholdMask.Toml.Scan

/-!
# Quoted text

Basic strings stand between double quotes and have escapes; literal strings stand between single
quotes and have none. Both also exist over several lines, between three quotes; a line end right
behind the opening quotes is dropped, every other one becomes a line feed, and up to two quotes may
stand right before the closing ones.
-/

namespace ThresholdMask.Toml

namespace Scan

/-! ## Escapes -/

/-- A character by its number in hexadecimal digits. -/
def codePoint (digits : Nat) : Scan Char := do
  let n := numberOf 16 (← times isHexadecimal digits)
  if h : n.isValidChar then return Char.ofNatAux n h else failure

/-- What follows the backslash of an escape. -/
def escape : Scan Char := do
  match ← next with
  | 'b' => return Char.ofNat 8
  | 't' => return '\t'
  | 'n' => return '\n'
  | 'f' => return Char.ofNat 12
  | 'r' => return '\r'
  | '"' => return '"'
  | '\\' => return '\\'
  | 'u' => codePoint 4
  | 'U' => codePoint 8
  | _ => failure

/-! ## One line -/

/-- The rest of a basic string. -/
def basicRest : Scan (List Char) :=
  repeatedly (fun text => do
    match ← next with
    | '"' => return (text, false)
    | '\\' => return (text ++ [← escape], true)
    | c => if isCommentChar c then return (text ++ [c], true) else failure) []

/-- The rest of a literal string. -/
def literalRest : Scan (List Char) := do
  let text ← many fun c => isCommentChar c && c != '\''
  char '\''
  return text

/-! ## Several lines -/

/-- Blanks and line ends, as they are dropped behind a backslash at the end of a line. -/
def lineBreaks : Scan Unit :=
  repeatedly (fun _ => do
    blanks
    match ← attempt newline with
    | some () => return ((), true)
    | none => return ((), false)) ()

/-- A backslash at the end of a line, with everything up to the next character. -/
def continuation : Scan Unit := do
  blanks
  newline
  lineBreaks

/-- A run of quotes within text over several lines: either it is text, or its last three quotes
close the text. The answer tells the quotes that are text and whether the text goes on. -/
def quoteRun (quote : Char) : Scan (List Char × Bool) := fun cs =>
  let run := (cs.takeWhile (· == quote)).length
  if run < 3 then some ((List.replicate run quote, true), cs.drop run)
  else
    let taken := min run 5
    some ((List.replicate (taken - 3) quote, false), cs.drop taken)

/-- The rest of text over several lines; `escapes` tells whether a backslash is special. -/
def multilineRest (quote : Char) (escapes : Bool) : Scan (List Char) := do
  let _ ← attempt newline
  repeatedly (fun text => do
    match ← peek? with
    | none => failure
    | some c =>
      if c == quote then
        let (quotes, again) ← quoteRun quote
        return (text ++ quotes, again)
      else if c == '\\' && escapes then
        char '\\'
        match ← attempt continuation with
        | some () => return (text, true)
        | none => return (text ++ [← escape], true)
      else if c == '\n' || c == '\r' then
        newline
        return (text ++ ['\n'], true)
      else
        let c ← satisfying isCommentChar
        return (text ++ [c], true)) []

/-- A string of any of the four kinds. -/
def string : Scan String := fun cs =>
  let scan : Scan (List Char) :=
    if "\"\"\"".toList.isPrefixOf cs then do
      exactly "\"\"\"".toList
      multilineRest '"' true
    else if "'''".toList.isPrefixOf cs then do
      exactly "'''".toList
      multilineRest '\'' false
    else do
      match ← next with
      | '"' => basicRest
      | '\'' => literalRest
      | _ => failure
  (scan cs).map fun (text, rest) => (String.ofList text, rest)

/-! ## Keys -/

/-- One part of a key: bare, or a string on one line. -/
def simpleKey : Scan String := do
  match ← peek? with
  | some '"' =>
    char '"'
    return String.ofList (← basicRest)
  | some '\'' =>
    char '\''
    return String.ofList (← literalRest)
  | _ => return String.ofList (← many1 isBareKeyChar)

/-- Nesting beyond this depth is refused, in keys and in values. -/
def nestingLimit : Nat := 80

/-- A key: its parts, separated by dots. -/
def key : Scan (List String) := do
  let parts ← repeatedly (fun parts => do
    blanks
    let part ← simpleKey
    blanks
    match ← attempt (char '.') with
    | some () => return (parts ++ [part], true)
    | none => return (parts ++ [part], false)) []
  if parts.length < nestingLimit then return parts else failure

end Scan
end ThresholdMask.Toml
