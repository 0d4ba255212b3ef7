/-!
# Documents of tables

The values of a TOML document: scalars, arrays, tables and arrays of tables. Of floats and dates
only the fact is kept, since no setting has such a value.

How a table came about decides how it may still be extended (`TableForm`): by a header, by a header
of a table inside it, by dotted keys, or as an inline table.
-/

namespace ThresholdMask.Toml

/-- How a table came about. -/
inductive TableForm where
  /-- By its own header; also the document itself and the members of arrays of tables. -/
  | opened
  /-- By a header of a table inside it. -/
  | implied
  /-- By dotted keys. -/
  | dotted
  /-- By braces. -/
  | inlined
  /-- By dotted keys between braces. -/
  | inlinedDotted
  deriving DecidableEq, Repr

/-- A value of a document. -/
inductive Value where
  | text (s : String)
  | integer (n : Int)
  | float
  | boolean (b : Bool)
  | dateTime
  | array (items : List Value)
  | table (form : TableForm) (entries : List (String × Value))
  /-- An array of tables, built by headers. -/
  | tables (members : List Value)

/-- Replace the value under a key, or append it. -/
def setEntry (key : String) (v : Value) : List (String × Value) → List (String × Value)
  | [] => [(key, v)]
  | (k, old) :: rest => if k = key then (k, v) :: rest else (k, old) :: setEntry key v rest

/-- The last value of a list, and those before it. -/
def unsnoc? : List Value → Option (List Value × Value)
  | [] => none
  | [v] => some ([], v)
  | v :: rest => (unsnoc? rest).map fun (before, last) => (v :: before, last)

/-! ## Reaching into tables -/

/-- For what a path is followed. -/
inductive Approach where
  /-- To a table with a header. -/
  | header
  /-- By the dotted keys of a line. -/
  | dottedKey
  /-- By the dotted keys between braces. -/
  | inlineKey
  deriving DecidableEq, Repr

/-- The form of the tables that are made on the way. -/
def Approach.creates : Approach → TableForm
  | header => .implied
  | dottedKey => .dotted
  | inlineKey => .inlinedDotted

/-- A table of the form may be passed on the way. -/
def Approach.passes : Approach → TableForm → Bool
  | header, form => form == .opened || form == .implied || form == .dotted
  | dottedKey, form => form == .implied || form == .dotted
  | inlineKey, form => form == .inlinedDotted

namespace Value

/-- Change the table at the end of a path, making the tables on the way that are not there yet. An
array of tables is passed through its last member. -/
def modify (approach : Approach) (change : Value → Option Value) :
    List String → Value → Option Value
  | [], v => change v
  | key :: path, .table form entries =>
    match entries.lookup key with
    | none => do
      let child ← modify approach change path (.table approach.creates [])
      return .table form (setEntry key child entries)
    | some (.table inner es) =>
      if approach.passes inner then do
        let child ← modify approach change path (.table inner es)
        return .table form (setEntry key child entries)
      else none
    | some (.tables members) =>
      if approach = .inlineKey then none
      else do
        let (before, last) ← unsnoc? members
        let child ← modify approach change path last
        return .table form (setEntry key (.tables (before ++ [child])) entries)
    | some _ => none
  | _ :: _, _ => none

/-- Enter a value under a new key of a table. A table that is reached by dotted keys must have been
made by dotted keys. -/
def enter (t : Value) (byPath : Bool) (key : String) (v : Value) : Option Value :=
  match t with
  | .table form entries =>
    if (form == .dotted || form == .inlinedDotted) != byPath then none
    else if (entries.lookup key).isSome then none
    else some (.table form (setEntry key v entries))
  | _ => none

/-- Enter a value under a path and a new key. -/
def enterAt (t : Value) (approach : Approach) (path : List String) (key : String) (v : Value) :
    Option Value :=
  t.modify approach (fun inner => inner.enter (!path.isEmpty) key v) path

end Value
end ThresholdMask.Toml
