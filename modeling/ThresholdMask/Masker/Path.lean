/-!
# Paths to values

A path leads from a name of a collection into its value: into elements of arrays by index, into the
two sides of tuples. As text it is the name followed by `[i]`, `.left` and `.right`.
-/

namespace ThresholdMask

/-- One step into a value. -/
inductive PathStep where
  | index (i : Nat)
  | left
  | right
  deriving DecidableEq, Repr

/-- A name, and steps into the value under it. -/
structure Path where
  name : String
  steps : List PathStep
  deriving DecidableEq, Repr

namespace Path

/-- The path of a whole value. -/
def ofName (name : String) : Path := ⟨name, []⟩

/-- The path extended by a step. -/
def step (p : Path) (s : PathStep) : Path := ⟨p.name, p.steps ++ [s]⟩

/-- The path of an element of an array. -/
def index (p : Path) (i : Nat) : Path := p.step (.index i)

/-- The path of the left side of a tuple. -/
def left (p : Path) : Path := p.step .left

/-- The path of the right side of a tuple. -/
def right (p : Path) : Path := p.step .right

/-- A step as text. -/
def renderStep : PathStep → String
  | .index i => s!"[{i}]"
  | .left => ".left"
  | .right => ".right"

/-- The path as text. -/
def render (p : Path) : String := p.steps.foldl (fun text s => text ++ renderStep s) p.name

end Path
end ThresholdMask
