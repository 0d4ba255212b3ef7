import ThresholdMask.Toml.Number
import ThresholdMask.Toml.Text

/-!
# Reading documents

A document is a sequence of lines: entries `key = value`, headers `[key]` of tables, headers
`[[key]]` of the members of arrays of tables, comments and empty lines. `Statement`s are what the
lines say; `Builder` puts them together and refuses a table or a key that is defined twice.

Values nest at most `nestingLimit - 1` deep, which is also why reading them ends.
-/

namespace ThresholdMask.Toml

namespace Scan

/-! ## Values -/

/-- The items of an array, behind its opening bracket, by a way to read one item. -/
def arrayRest (item : Scan Value) : Scan Value := do
  let items ← repeatedly (fun items => do
    blankLines
    match ← attempt (char ']') with
    | some () => return (items, false)
    | none =>
      let v ← item
      blankLines
      match ← attempt (char ',') with
      | some () => return (items ++ [v], true)
      | none =>
        char ']'
        return (items ++ [v], false)) []
  return .array items

/-- An entry, by a way to read its value: the path to its table, its key and its value. -/
def entry (value : Scan Value) : Scan (List String × String × Value) := do
  let path ← key
  char '='
  blanks
  let v ← value
  match path.getLast? with
  | some last => return (path.dropLast, last, v)
  | none => failure

/-- The entries of an inline table, behind its opening brace, by a way to read one value. -/
def inlineRest (value : Scan Value) : Scan Value := do
  blanks
  match ← attempt (char '\x7d') with
  | some () => return .table .inlined []
  | none =>
    repeatedly (fun root => do
      let (path, last, v) ← entry value
      blanks
      match root.enterAt .inlineKey path last v with
      | none => failure
      | some root =>
        match ← attempt (char ',') with
        | some () => return (root, true)
        | none =>
          char '\x7d'
          return (root, false)) (.table .inlined [])

/-- A value that holds no other ones. -/
def scalar : Scan Value := do
  match ← peek? with
  | some '"' | some '\'' => return .text (← string)
  | some 't' =>
    exactly "true".toList
    return .boolean true
  | some 'f' =>
    exactly "false".toList
    return .boolean false
  | _ => number

/-- A value that nests at most `depth` deep. -/
def value : Nat → Scan Value
  | 0 => scalar
  | depth + 1 => do
    match ← peek? with
    | some '[' =>
      char '['
      arrayRest (value depth)
    | some '\x7b' =>
      char '\x7b'
      inlineRest (value depth)
    | _ => scalar

end Scan

/-! ## Statements -/

/-- What a line of a document says. -/
inductive Statement where
  | entry (path : List String) (key : String) (v : Value)
  /-- The header of a table. -/
  | table (path : List String) (key : String)
  /-- The header of a member of an array of tables. -/
  | member (path : List String) (key : String)

namespace Scan

/-- A header, by what stands before and behind its key. -/
def header (opening closing : List Char) (statement : List String → String → Statement) :
    Scan Statement := do
  exactly opening
  let path ← key
  exactly closing
  lineTrailing
  match path.getLast? with
  | some last => return statement path.dropLast last
  | none => failure

/-- A line that says something. -/
def statement : Scan Statement := fun cs =>
  let scan : Scan Statement :=
    if ['[', '['].isPrefixOf cs then header ['[', '['] [']', ']'] .member
    else if ['['].isPrefixOf cs then header ['['] [']'] .table
    else do
      let (path, last, v) ← entry (value (nestingLimit - 1))
      lineTrailing
      return .entry path last v
  scan cs

/-- All statements of a document. -/
def statements : Scan (List Statement) :=
  repeatedly (fun found => do
    blanks
    match ← peek? with
    | none => return (found, false)
    | some '#' =>
      comment
      lineEnd
      return (found, true)
    | some '\n' | some '\r' =>
      newline
      return (found, true)
    | _ => return (found ++ [← statement], true)) []

end Scan

/-! ## Building -/

/-- A document that is being built: what is finished, and the table that entries go into. -/
structure Builder where
  /-- The document without the current table. -/
  root : Value := .table .opened []
  /-- The current table. -/
  current : Value := .table .opened []
  /-- Where the current table belongs; nowhere for the document itself. -/
  place : Option (List String × String) := none
  /-- The current table is a member of an array of tables. -/
  isMember : Bool := false

namespace Builder

/-- Put the finished current table under its key. -/
def attach (isMember : Bool) (key : String) (finished : Value) : Value → Option Value
  | .table form entries =>
    match entries.lookup key with
    | none =>
      let v := if isMember then .tables [finished] else finished
      some (.table form (setEntry key v entries))
    | some (.tables members) =>
      if isMember then some (.table form (setEntry key (.tables (members ++ [finished])) entries))
      else none
    | some _ => none
  | _ => none

/-- Finish the current table. -/
def finish (b : Builder) : Option Value :=
  match b.place with
  | none => some b.current
  | some (path, key) => b.root.modify .header (attach b.isMember key b.current) path

/-- The entry of a table that a header names: nothing, or a table that is only implied. -/
def reopen (key : String) : Value → Option (List (String × Value))
  | .table _ entries =>
    match entries.lookup key with
    | none => some []
    | some (.table .implied es) => some es
    | some _ => none
  | _ => none

/-- Follow a path without making anything; what is not there is an empty table. -/
def follow : List String → Value → Option Value
  | [], v => some v
  | key :: path, .table _ entries =>
    match entries.lookup key with
    | none => some (.table .implied [])
    | some (.table form es) =>
      if Approach.header.passes form then follow path (.table form es) else none
    | some (.tables members) => do
      let (_, last) ← unsnoc? members
      follow path last
    | some _ => none
  | _ :: _, _ => none

/-- Take the entry under a key out of a table. -/
def detach (key : String) : Value → Option Value
  | .table form entries => some (.table form (entries.filter (·.1 != key)))
  | _ => none

/-- The place of a header takes members. -/
def takesMembers (key : String) : Value → Bool
  | .table _ entries =>
    match entries.lookup key with
    | none => true
    | some (.tables _) => true
    | some _ => false
  | _ => false

/-- Take in a statement. -/
def add (b : Builder) : Statement → Option Builder
  | .entry path key v => do
    let current ← b.current.enterAt .dottedKey path key v
    return { b with current }
  | .table path key => do
    let root ← b.finish
    let parent ← follow path root
    let entries ← reopen key parent
    let root ← root.modify .header (detach key) path
    return { root, current := .table .opened entries, place := some (path, key) }
  | .member path key => do
    let root ← b.finish
    let parent ← follow path root
    if takesMembers key parent then
      return { root, place := some (path, key), isMember := true }
    else none

end Builder

/-- Read a document; a byte order mark at its beginning is dropped. -/
def parse? (s : String) : Option Value := do
  let cs := match s.toList with
    | c :: rest => if c = Char.ofNat 0xfeff then rest else c :: rest
    | [] => []
  let (found, rest) ← Scan.statements cs
  if rest.isEmpty then
    let built ← found.foldlM Builder.add ({} : Builder)
    built.finish
  else none

end ThresholdMask.Toml
