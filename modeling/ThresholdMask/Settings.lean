import ThresholdMask.Field.SafePrime
import ThresholdMask.Masker.Options
import ThresholdMask.Party

/-!
# Settings

The settings of a masker as they are written down: prime, degree, options, and the roster as a list
of hexadecimal texts. `partyIds` decodes the roster and reports the first text that is no
hexadecimal; `withParties` writes a roster back.

There are two sets of defaults: `default` stands for settings of which nothing is written down, and
`leftOut` gives each setting where only this one is left out. They are the same
(`leftOut_eq_default`).
-/

namespace ThresholdMask

/-- The degree where none is given. -/
def defaultDegree : Nat := 1

/-- The settings of a masker, with parties by the hexadecimal text of their identifiers. -/
structure Settings where
  prime : SafePrime
  degree : Nat
  options : MaskerOptions
  parties : List String
  deriving DecidableEq, Repr

/-- Why settings give no roster. -/
inductive SettingsError where
  | noParties
  /-- The text of the party at this position, from zero, is no hexadecimal. -/
  | invalidId (position : Nat) (text : String) (source : HexError)
  deriving DecidableEq, Repr

namespace SettingsError

/-- The text of the error without its cause. -/
def summary : SettingsError → String
  | noParties => "No parties configured"
  | invalidId position text _ => s!"Invalid hex id for party #{position}: {text}"

/-- The text of the error, its cause behind it. -/
def message : SettingsError → String
  | noParties => noParties.summary
  | invalidId position text e =>
    let summary := (invalidId position text e).summary
    s!"{summary}: {e.message}"

end SettingsError

namespace Settings

/-! ## Defaults -/

/-- The settings where nothing is written down. -/
instance : Inhabited Settings where
  default :=
    { prime := default
      degree := defaultDegree
      options := ⟨defaultKappa, false, default, default⟩
      parties := [] }

/-- Every setting as it is read where it is left out of settings that are written down. -/
def leftOut : Settings where
  prime := default
  degree := defaultDegree
  options :=
    { kappa := defaultKappa
      requireFullRoster := default
      ecdsaKeyField := default
      eddsaKeyField := default }
  parties := default

/-- It does not matter whether settings are left out one by one or all together. -/
theorem leftOut_eq_default : leftOut = default := rfl

/-! ## Names in written settings -/

/-- The names of the masker's own settings, in the order in which they are written. -/
def sectionNames : List String :=
  ["prime", "degree", "kappa", "require_full_roster", "ecdsa_key_field", "eddsa_key_field"]

/-- Read a part that may be left out. -/
def orDefault {α δ : Type} (default : α) (read : δ → Option α) : Option δ → Option α
  | none => some default
  | some d => read d

/-! ## Rosters -/

/-- Decode texts in order, at positions from `start`. -/
def decodeIds (start : Nat) : List String → Except SettingsError (List PartyId)
  | [] => .ok []
  | text :: rest =>
    match PartyId.ofHex text with
    | .error e => .error (.invalidId start text e)
    | .ok p => (decodeIds (start + 1) rest).map (p :: ·)

/-- The identifiers of the parties, in order. -/
def partyIds (s : Settings) : Except SettingsError (List PartyId) :=
  if s.parties.isEmpty then .error .noParties else decodeIds 0 s.parties

/-- The settings with another roster. -/
def withParties (s : Settings) (parties : List PartyId) : Settings :=
  { s with parties := parties.map PartyId.toHex }

/-- Settings for three parties, to start from. -/
def sample : Settings := withParties default [⟨[1]⟩, ⟨[2]⟩, ⟨[3]⟩]

theorem decodeIds_toHex (start : Nat) (parties : List PartyId) :
    decodeIds start (parties.map PartyId.toHex) = .ok parties := by
  induction parties generalizing start with
  | nil => rfl
  | cons p rest ih => simp [decodeIds, PartyId.ofHex_toHex, ih, Except.map]

theorem partyIds_withParties (s : Settings) {parties : List PartyId} (h : parties ≠ []) :
    (s.withParties parties).partyIds = .ok parties := by
  have some : (s.withParties parties).parties.isEmpty = false := by
    cases parties with
    | nil => exact absurd rfl h
    | cons p rest => rfl
  rw [partyIds, some]
  exact decodeIds_toHex 0 parties

end Settings
end ThresholdMask
