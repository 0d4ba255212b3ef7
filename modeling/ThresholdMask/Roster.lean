import ThresholdMask.Party

/-!
# Rosters

A roster is the ordered list of the parties that a masker shares to. It is never empty and names no
party twice; both are part of the type. The place of a party fixes its *abscissa*, the point at
which the sharing polynomials are evaluated for it: one for the first party, two for the second,
and so on, never zero.
-/

namespace ThresholdMask

/-! ## The first repeated element of a list -/

/-- The first element that occurs in `seen` or earlier in the list. -/
def firstRepeat? {α : Type} [DecidableEq α] (seen : List α) : List α → Option α
  | [] => none
  | a :: rest => if a ∈ seen then some a else firstRepeat? (a :: seen) rest

theorem firstRepeat?_eq_none_iff {α : Type} [DecidableEq α] (seen l : List α) :
    firstRepeat? seen l = none ↔ l.Nodup ∧ ∀ a ∈ l, a ∉ seen := by
  induction l generalizing seen with
  | nil => simp [firstRepeat?]
  | cons a rest ih =>
    rw [firstRepeat?]
    split
    · rename_i h
      simp [h]
    · rename_i h
      rw [ih, List.nodup_cons]
      constructor
      · rintro ⟨nodup, fresh⟩
        refine ⟨⟨fun mem => fresh a mem (List.mem_cons_self ..), nodup⟩, fun b hb => ?_⟩
        rcases List.mem_cons.mp hb with rfl | hb
        · exact h
        · exact fun seenB => fresh b hb (List.mem_cons_of_mem _ seenB)
      · rintro ⟨⟨notMem, nodup⟩, fresh⟩
        refine ⟨nodup, fun b hb seenB => ?_⟩
        rcases List.mem_cons.mp seenB with rfl | seenB
        · exact notMem hb
        · exact fresh b (List.mem_cons_of_mem _ hb) seenB

/-! ## Rosters -/

/-- Why a list of parties is no roster. -/
inductive RosterError where
  | empty
  | duplicate (party : PartyId)
  deriving DecidableEq, Repr

/-- The text of the error. -/
def RosterError.message : RosterError → String
  | empty => "party roster is empty"
  | duplicate p => s!"duplicate party in roster: {p.toHex}"

/-- The ordered parties of a sharing: at least one, none twice. -/
structure Roster where
  parties : List PartyId
  parties_ne_nil : parties ≠ []
  nodup : parties.Nodup
  deriving DecidableEq, Repr

namespace Roster

/-- Take a list of parties as a roster; of several repeated parties the first to recur is named. -/
def ofList (parties : List PartyId) : Except RosterError Roster :=
  if empty : parties = [] then .error .empty
  else
    match repeated : firstRepeat? [] parties with
    | some p => .error (.duplicate p)
    | none => .ok ⟨parties, empty, ((firstRepeat?_eq_none_iff _ _).mp repeated).1⟩

/-- The number of parties. -/
def size (R : Roster) : Nat := R.parties.length

/-- The party is on the roster. -/
def contains (R : Roster) (p : PartyId) : Bool := decide (p ∈ R.parties)

/-- The place of a party, from zero. -/
def position? (R : Roster) (p : PartyId) : Option Nat := R.parties.idxOf? p

/-- The evaluation point of a party. -/
def abscissa? (R : Roster) (p : PartyId) : Option Nat := (R.position? p).map (· + 1)

/-- The parties with their evaluation points. -/
def points (R : Roster) : List (PartyId × Nat) := R.parties.zipIdx 1

theorem size_pos (R : Roster) : 0 < R.size := List.length_pos_iff.mpr R.parties_ne_nil

/-! ## Positions -/

/-- A position is that of a party exactly if the party stands there. -/
theorem position?_eq_some_iff {R : Roster} {p : PartyId} {i : Nat} :
    R.position? p = some i ↔ R.parties[i]? = some p := by
  rw [position?, List.idxOf?_eq_some_iff, List.getElem?_eq_some_iff]
  constructor
  · rintro ⟨inside, here, -⟩
    exact ⟨inside, here⟩
  · rintro ⟨inside, here⟩
    refine ⟨inside, here, fun k before same => ?_⟩
    have equal : k = i := (List.getElem_inj R.nodup).mp (same.trans here.symm)
    omega

theorem position?_eq_none_iff {R : Roster} {p : PartyId} :
    R.position? p = none ↔ p ∉ R.parties := List.idxOf?_eq_none_iff

theorem position?_lt {R : Roster} {p : PartyId} {i : Nat} (h : R.position? p = some i) :
    i < R.size :=
  (List.getElem?_eq_some_iff.mp (position?_eq_some_iff.mp h)).1

theorem position?_injective {R : Roster} {p q : PartyId} {i : Nat} (hp : R.position? p = some i)
    (hq : R.position? q = some i) : p = q :=
  Option.some.inj ((position?_eq_some_iff.mp hp).symm.trans (position?_eq_some_iff.mp hq))

theorem exists_position? {R : Roster} {p : PartyId} (h : p ∈ R.parties) :
    ∃ i, R.position? p = some i :=
  Option.isSome_iff_exists.mp (List.isSome_idxOf?.mpr h)

/-! ## Lists as rosters -/

theorem ofList_parties (R : Roster) : ofList R.parties = .ok R := by
  have none := (firstRepeat?_eq_none_iff [] R.parties).mpr ⟨R.nodup, by simp⟩
  rw [ofList, dif_neg R.parties_ne_nil]
  split
  · rename_i h
    rw [none] at h
    cases h
  · rfl

theorem parties_of_ofList {parties : List PartyId} {R : Roster} (h : ofList parties = .ok R) :
    R.parties = parties := by
  unfold ofList at h
  split at h
  · cases h
  · split at h
    · cases h
    · cases h
      rfl

end Roster
end ThresholdMask
