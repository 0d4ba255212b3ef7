import ThresholdMask.Bytes
import ThresholdMask.Settings.Document

/-!
# Finding settings

Settings are loaded from the first of three places that exists: the path in a variable, a file in
the working directory, a file in the home directory. A place that exists is used whatever it is: a
directory, or bytes that are no text, are an error and not skipped. If no place exists, the defaults
serve. Overriding variables are applied in every case.
-/

namespace ThresholdMask

/-- What is at a path. -/
inductive PathContent where
  | file (bytes : Bytes)
  | directory
  deriving DecidableEq, Repr

/-- Where a program runs. -/
structure Surroundings where
  /-- What is at a path, if anything. -/
  contentAt : String → Option PathContent
  environment : Environment
  /-- The home directory. -/
  home : Option String

/-- Why settings cannot be loaded from a path. -/
inductive LoadError where
  | unreadable (path : String)
  | unparseable (path : String)
  deriving DecidableEq, Repr

/-- The text of the error. -/
def LoadError.message : LoadError → String
  | unreadable path => s!"Failed to read config file: {path}"
  | unparseable path => s!"Failed to parse config file: {path}"

/-- The UTF-8 text of bytes. -/
def Bytes.toText? (b : Bytes) : Option String := String.fromUTF8? ⟨b.toArray⟩

namespace Settings

/-- The variable that names a path. -/
def pathVariable : String := "VEILSHARE_CONFIG"

/-- The name of the file. -/
def fileName : String := "veilshare.toml"

/-- The directory of the file in the home directory. -/
def directoryName : String := ".veilshare"

/-- The path in a home directory. -/
def pathIn (home : String) : String := home ++ "/" ++ directoryName ++ "/" ++ fileName

/-- The path in the home directory, where there is one. -/
def defaultPath (w : Surroundings) : Option String := w.home.map pathIn

/-- The paths to try, in order. -/
def candidates (w : Surroundings) : List String :=
  (w.environment pathVariable).toList ++ [fileName] ++ (defaultPath w).toList

/-- The first path at which there is something. -/
def find? (w : Surroundings) : Option String :=
  (candidates w).find? fun path => (w.contentAt path).isSome

/-- Read the settings at a path. -/
def readPath (w : Surroundings) (path : String) : Except LoadError Settings :=
  match w.contentAt path with
  | some (.file bytes) =>
    match bytes.toText? with
    | none => .error (.unreadable path)
    | some text =>
      match parse? text with
      | none => .error (.unparseable path)
      | some s => .ok s
  | some .directory | none => .error (.unreadable path)

/-- Load settings from a path, and apply the overrides. -/
def loadFrom (w : Surroundings) (path : String) : Except LoadError Settings :=
  (readPath w path).map (·.override w.environment)

/-- Find and load settings, and apply the overrides. -/
def load (w : Surroundings) : Except LoadError Settings :=
  match find? w with
  | some path => loadFrom w path
  | none => .ok (override default w.environment)

end Settings
end ThresholdMask
