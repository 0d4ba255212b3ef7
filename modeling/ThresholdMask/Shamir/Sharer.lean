import ThresholdMask.Random
import ThresholdMask.Roster
import ThresholdMask.Shamir.Interpolation
import ThresholdMask.Shamir.Shares

/-!
# Shamir sharing

A sharer of degree `t` hides a secret in the constant term of a polynomial whose other `t`
coefficients are drawn at random; the share of a party is the value at its abscissa. `reconstruct`
takes any shares of at least `t + 1` parties: those of the first `t + 1` in roster order fix the
polynomial, and each of the remaining ones must lie on it.

What can go wrong is checked in a fixed order: too few shares; in the order of the entries a party
off the roster or a share that is no residue; abscissas that fall together in the field; in roster
order a share off the polynomial.
-/

namespace ThresholdMask

/-- There are not enough parties for the degree. -/
structure InvalidDegree where
  degree : Nat
  parties : Nat
  deriving DecidableEq, Repr

/-- The text of the error. -/
def InvalidDegree.message (e : InvalidDegree) : String :=
  s!"invalid degree: degree={e.degree}, parties={e.parties}"

/-- Why shares do not give a secret. -/
inductive ReconstructError where
  | insufficientShares (got need : Nat)
  | unknownParty (party : PartyId)
  /-- The share is not below the modulus. -/
  | invalidShare (party : PartyId)
  /-- The share is not on the polynomial through the first ones. -/
  | corruption (party : PartyId)
  | zeroSecret
  /-- Two abscissas are the same in the field. -/
  | collidingAbscissas
  deriving DecidableEq, Repr

/-- The text of the error. -/
def ReconstructError.message : ReconstructError → String
  | insufficientShares got need => s!"insufficient shares: got {got}, need {need}"
  | unknownParty p => s!"party {p.toHex} is not on the roster"
  | invalidShare p => s!"share from party {p.toHex} is not a field element"
  | corruption p => s!"share from party {p.toHex} does not lie on the interpolated polynomial"
  | zeroSecret => "reconstructed secret is zero"
  | collidingAbscissas => "evaluation points collide in the field"

/-- A field, a degree and a roster with more parties than the degree. -/
structure Sharer where
  field : PrimeField
  degree : Nat
  roster : Roster
  degree_lt : degree < roster.size
  deriving Repr

namespace Sharer

variable {σ : Type}

/-- A sharer, if there are enough parties to reconstruct. -/
def ofDegree (field : PrimeField) (degree : Nat) (roster : Roster) :
    Except InvalidDegree Sharer :=
  if h : degree < roster.size then .ok ⟨field, degree, roster, h⟩
  else .error ⟨degree, roster.size⟩

/-- The number of shares that reconstruct. -/
def threshold (s : Sharer) : Nat := s.degree + 1

/-! ## Sharing -/

/-- Draw the polynomial that hides a secret: the secret's residue, then as many random coefficients
as the degree. -/
def polynomial (s : Sharer) (S : Sampler σ) (secret : Nat) : StateM σ (List Nat) := do
  let coefficients ← s.field.randoms S s.degree
  return s.field.reduce secret :: coefficients

/-- The values of a polynomial at the abscissas of the roster, in roster order. -/
def deal (s : Sharer) (polynomial : List Nat) : List Nat :=
  s.roster.points.map fun (_, x) => s.field.evaluate polynomial x

/-- Split a secret into one share per party, in roster order. -/
def shareInOrder (s : Sharer) (S : Sampler σ) (secret : Nat) : StateM σ (List Nat) :=
  s.deal <$> s.polynomial S secret

/-- Split a secret into one share per party. -/
def share (s : Sharer) (S : Sampler σ) (secret : Nat) : StateM σ (List (PartyId × Nat)) :=
  s.roster.parties.zip <$> s.shareInOrder S secret

/-! ## Reconstruction -/

/-- An entry is acceptable: its party is on the roster and its share is a residue. -/
def checkEntry (s : Sharer) (entry : PartyId × Nat) : Except ReconstructError Unit :=
  if s.roster.contains entry.1 then
    if s.field.contains entry.2 then .ok () else .error (.invalidShare entry.1)
  else .error (.unknownParty entry.1)

/-- The shares as points of a polynomial, with their parties, in roster order. -/
def pointsOf (s : Sharer) (shares : PartyShares) : List (PartyId × Nat × Nat) :=
  s.roster.points.filterMap fun (p, x) => (shares.get? p).map fun y => (p, x, y)

/-- A further point lies on the polynomial through the base. -/
def checkExtra (s : Sharer) (base : List (Nat × Nat)) (point : PartyId × Nat × Nat) :
    Except ReconstructError Unit :=
  match s.field.interpolate? base point.2.1 with
  | none => .error .collidingAbscissas
  | some y => if y = point.2.2 then .ok () else .error (.corruption point.1)

/-- Recover the secret from the points: the first ones fix it, the others confirm it. -/
def recover (s : Sharer) (points : List (PartyId × Nat × Nat)) : Except ReconstructError Nat :=
  let base := (points.take s.threshold).map (·.2)
  match s.field.interpolate? base 0 with
  | none => .error .collidingAbscissas
  | some secret => do
    (points.drop s.threshold).forM (s.checkExtra base)
    return secret

/-- Recover the secret from the shares of more parties than the degree. -/
def reconstruct (s : Sharer) (shares : PartyShares) : Except ReconstructError Nat :=
  if shares.size < s.threshold then .error (.insufficientShares shares.size s.threshold)
  else do
    shares.entries.forM s.checkEntry
    -- entries are checked in their own order, points in that of the roster
    s.recover (s.pointsOf shares)

/-- Recover a secret that is known not to be zero. -/
def reconstructNonzero (s : Sharer) (shares : PartyShares) : Except ReconstructError Nat := do
  let secret ← s.reconstruct shares
  if secret = 0 then .error .zeroSecret else .ok secret

theorem length_deal (s : Sharer) (polynomial : List Nat) :
    (s.deal polynomial).length = s.roster.size := by
  simp [deal, Roster.points, Roster.size]

end Sharer
end ThresholdMask
