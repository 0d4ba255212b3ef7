/-!
# Options of a masker

What a masker is told beyond its prime, degree and roster.
-/

namespace ThresholdMask

/-- The field in which private keys are shared. -/
inductive KeyField where
  /-- The order of the curve's group. -/
  | curve
  /-- The masker's own safe prime. -/
  | masker
  deriving DecidableEq, Repr

namespace KeyField

instance : Inhabited KeyField := ⟨curve⟩

/-- Both choices. -/
def all : List KeyField := [curve, masker]

/-- The name used in settings. -/
def name : KeyField → String
  | curve => "curve"
  | masker => "masker"

/-- The choice with a name. -/
def ofName? (name : String) : Option KeyField := all.find? (·.name == name)

/-- The byte that stands for the choice in fingerprints. -/
def tag : KeyField → UInt8
  | curve => 0
  | masker => 1

end KeyField

/-- The security parameter where none is given. -/
def defaultKappa : Nat := 40

/-- Options beyond prime, degree and roster. -/
structure MaskerOptions where
  /-- Statistical security parameter, carried for callers. -/
  kappa : Nat := defaultKappa
  /-- Unmask only what every party of the roster has put in. -/
  requireFullRoster : Bool := false
  ecdsaKeyField : KeyField := .curve
  eddsaKeyField : KeyField := .curve
  deriving DecidableEq, Repr

end ThresholdMask
