import ThresholdMask.Roster

/-!
# Jars

A jar collects at most one element from every party of a roster, in any order, and lists them in
roster order. It has one slot per roster position; putting an element into a slot that is taken
replaces the element. The only thing that can go wrong is a party that is not on the roster, and
then the jar stays as it was.

A jar also carries the fingerprint of the configuration that built it, its *binding*.

What a jar holds is seen through `get?`: every operation is described by what it does to `get?`, and
every listing follows from it (`elements_eq`, `intoElements_eq`, `missing_eq`, `size_eq`).
-/

namespace ThresholdMask

/-- The party is not on the roster of the jar. -/
structure UnknownParty where
  party : PartyId
  deriving DecidableEq, Repr

/-- The text of the error. -/
def UnknownParty.message (e : UnknownParty) : String :=
  s!"party {e.party.toHex} is not on the roster"

/-- At most one element per party of a roster. -/
structure PartyJar (α : Type) where
  roster : Roster
  /-- The fingerprint of the configuration that built the jar. -/
  binding : FixedBytes 32
  /-- One slot per roster position. -/
  slots : List (Option α)
  length_slots : slots.length = roster.size

namespace PartyJar

variable {α : Type}

/-- A jar with nothing in it. -/
def empty (roster : Roster) (binding : FixedBytes 32) : PartyJar α where
  roster := roster
  binding := binding
  slots := List.replicate roster.size none
  length_slots := List.length_replicate

/-- The jar with the slot at a position overwritten. -/
def setSlot (j : PartyJar α) (position : Nat) (slot : Option α) : PartyJar α where
  roster := j.roster
  binding := j.binding
  slots := j.slots.set position slot
  length_slots := by simp [j.length_slots]

/-! ## Operations -/

/-- The element of a party. -/
def get? (j : PartyJar α) (p : PartyId) : Option α :=
  (j.roster.position? p).bind fun i => j.slots[i]?.join

/-- Put in the element of a party; the answer begins with the element that it replaces. -/
def add (j : PartyJar α) (p : PartyId) (element : α) :
    Except UnknownParty (Option α × PartyJar α) :=
  match j.roster.position? p with
  | none => .error ⟨p⟩
  | some i => .ok (j.get? p, j.setSlot i (some element))

/-- Take the element of a party out. -/
def remove (j : PartyJar α) (p : PartyId) : Option α × PartyJar α :=
  match j.roster.position? p with
  | none => (none, j)
  | some i => (j.get? p, j.setSlot i none)

/-- The party has put in an element. -/
def contains (j : PartyJar α) (p : PartyId) : Bool := (j.get? p).isSome

/-- The elements with their parties, in roster order. -/
def elements (j : PartyJar α) : List (PartyId × α) :=
  (j.roster.parties.zip j.slots).filterMap fun (p, slot) => slot.map (p, ·)

/-- Take the elements of parties out, one after another; those without one are passed over. -/
def drain (j : PartyJar α) : List PartyId → List (PartyId × α)
  | [] => []
  | p :: rest =>
    match j.remove p with
    | (some a, left) => (p, a) :: left.drain rest
    | (none, left) => left.drain rest

/-- Empty the jar, which gives its elements with their parties, in roster order. -/
def intoElements (j : PartyJar α) : List (PartyId × α) := j.drain j.roster.parties

/-- The parties without an element, in roster order. -/
def missing (j : PartyJar α) : List PartyId :=
  (j.roster.parties.zip j.slots).filterMap fun (p, slot) => if slot.isNone then some p else none

/-- The number of elements. -/
def size (j : PartyJar α) : Nat := j.slots.countP Option.isSome

/-- Nothing has been put in. -/
def isEmpty (j : PartyJar α) : Bool := j.size == 0

/-! ## Elements by party -/

@[simp] theorem roster_setSlot (j : PartyJar α) (i : Nat) (slot : Option α) :
    (j.setSlot i slot).roster = j.roster := rfl

@[simp] theorem binding_setSlot (j : PartyJar α) (i : Nat) (slot : Option α) :
    (j.setSlot i slot).binding = j.binding := rfl

theorem get?_empty (roster : Roster) (binding : FixedBytes 32) (p : PartyId) :
    (empty roster binding : PartyJar α).get? p = none := by
  unfold get? empty
  cases roster.position? p with
  | none => rfl
  | some i =>
    simp only [Option.bind_some, List.getElem?_replicate]
    split <;> rfl

/-- Overwriting the slot of a party changes what is found under this party only. -/
theorem get?_setSlot {j : PartyJar α} {p : PartyId} {i : Nat} (found : j.roster.position? p = some i)
    (slot : Option α) (q : PartyId) :
    (j.setSlot i slot).get? q = if q = p then slot else j.get? q := by
  have inside : i < j.slots.length := by
    rw [j.length_slots]
    exact Roster.position?_lt found
  unfold get?
  rw [roster_setSlot]
  split
  · rename_i same
    rw [same, found]
    simp [setSlot, inside]
  · rename_i differ
    cases there : j.roster.position? q with
    | none => rfl
    | some k =>
      have apart : i ≠ k := fun same => differ (Roster.position?_injective (same ▸ there) found)
      simp [setSlot, List.getElem?_set_ne apart]

theorem add_of_mem {j : PartyJar α} {p : PartyId} (h : p ∈ j.roster.parties) (element : α) :
    ∃ k, j.add p element = .ok (j.get? p, k) ∧ k.roster = j.roster ∧ k.binding = j.binding ∧
      ∀ q, k.get? q = if q = p then some element else j.get? q := by
  obtain ⟨i, found⟩ := Roster.exists_position? h
  exact ⟨j.setSlot i (some element), by rw [add, found], rfl, rfl, get?_setSlot found _⟩

theorem add_of_not_mem {j : PartyJar α} {p : PartyId} (h : p ∉ j.roster.parties) (element : α) :
    j.add p element = .error ⟨p⟩ := by
  rw [add, Roster.position?_eq_none_iff.mpr h]

theorem get?_of_not_mem {j : PartyJar α} {p : PartyId} (h : p ∉ j.roster.parties) :
    j.get? p = none := by
  rw [get?, Roster.position?_eq_none_iff.mpr h]
  rfl

theorem get?_remove (j : PartyJar α) (p q : PartyId) :
    (j.remove p).2.get? q = if q = p then none else j.get? q := by
  unfold remove
  split
  · rename_i absent
    split
    · rename_i same
      rw [same, get?, absent]
      rfl
    · rfl
  · rename_i i found
    exact get?_setSlot found none q

@[simp] theorem fst_remove (j : PartyJar α) (p : PartyId) : (j.remove p).1 = j.get? p := by
  unfold remove
  split
  · rename_i absent
    rw [get?, absent]
    rfl
  · rfl

@[simp] theorem roster_remove (j : PartyJar α) (p : PartyId) :
    (j.remove p).2.roster = j.roster := by
  unfold remove
  split <;> rfl

@[simp] theorem binding_remove (j : PartyJar α) (p : PartyId) :
    (j.remove p).2.binding = j.binding := by
  unfold remove
  split <;> rfl

/-! ## Listings -/

/-- The slots beside the parties are the elements found under the parties. -/
theorem zip_slots (j : PartyJar α) :
    j.roster.parties.zip j.slots = j.roster.parties.map fun p => (p, j.get? p) := by
  have length : j.slots.length = j.roster.parties.length := j.length_slots
  apply List.ext_getElem
  · simp [length]
  · intro i h _
    have inside : i < j.roster.parties.length := by simp [length] at h; exact h
    have covered : i < j.slots.length := length ▸ inside
    have found : j.roster.position? j.roster.parties[i] = some i :=
      Roster.position?_eq_some_iff.mpr (List.getElem?_eq_getElem inside)
    have slot : j.slots[i]? = some j.slots[i] := List.getElem?_eq_getElem covered
    simp [get?, found, slot]

theorem elements_eq (j : PartyJar α) :
    j.elements = j.roster.parties.filterMap fun p => (j.get? p).map (p, ·) := by
  rw [elements, zip_slots, List.filterMap_map]
  rfl

/-- Taking out the elements of distinct parties gives what is found under them before. -/
theorem drain_eq {j : PartyJar α} {parties : List PartyId} (nodup : parties.Nodup)
    {found : PartyId → Option α} (same : ∀ p ∈ parties, j.get? p = found p) :
    j.drain parties = parties.filterMap fun p => (found p).map (p, ·) := by
  induction parties generalizing j with
  | nil => rfl
  | cons p rest ih =>
    obtain ⟨fresh, nodup⟩ := List.nodup_cons.mp nodup
    obtain ⟨here, others⟩ := List.forall_mem_cons.mp same
    -- what the other parties have put in is not touched
    have untouched : ∀ q ∈ rest, (j.remove p).2.get? q = found q := by
      intro q member
      have differ : q ≠ p := fun equal => fresh (equal ▸ member)
      rw [get?_remove, if_neg differ, others q member]
    have taken : j.remove p = (found p, (j.remove p).2) := by rw [← here, ← fst_remove]
    have left := ih nodup untouched
    rw [drain, taken]
    cases element : found p with
    | none =>
      rw [List.filterMap_cons_none (by rw [element]; rfl)]
      exact left
    | some a =>
      rw [List.filterMap_cons_some (b := (p, a)) (by rw [element]; rfl), ← left]

theorem intoElements_eq (j : PartyJar α) : j.intoElements = j.elements := by
  rw [intoElements, drain_eq j.roster.nodup fun _ _ => rfl, elements_eq]

theorem missing_eq (j : PartyJar α) :
    j.missing = j.roster.parties.filter fun p => (j.get? p).isNone := by
  rw [missing, zip_slots, List.filterMap_map, ← List.filterMap_eq_filter]
  rfl

theorem size_eq (j : PartyJar α) :
    j.size = j.roster.parties.countP fun p => (j.get? p).isSome := by
  have slots : j.slots = j.roster.parties.map j.get? := by
    have := congrArg (List.map (·.2)) j.zip_slots
    rw [List.map_snd_zip (Nat.le_of_eq j.length_slots), List.map_map] at this
    exact this
  rw [size, slots, List.countP_map]
  rfl

theorem length_elements (j : PartyJar α) : j.elements.length = j.size := by
  rw [elements_eq, size_eq, List.length_filterMap_eq_countP]
  congr 1
  funext p
  cases j.get? p <;> rfl

/-- Every party of the roster has put in an element or is missing. -/
theorem size_add_length_missing (j : PartyJar α) : j.size + j.missing.length = j.roster.size := by
  have split := List.length_eq_countP_add_countP (fun p => (j.get? p).isSome)
    (l := j.roster.parties)
  rw [size_eq, missing_eq, ← List.countP_eq_length_filter, Roster.size, split]
  congr 2
  funext p
  cases j.get? p <;> simp

/-! ## Runs -/

/-- What is asked of a jar. -/
inductive Request (α : Type) where
  | add (party : PartyId) (element : α)
  | remove (party : PartyId)
  deriving Repr

/-- The jar after a request. -/
def after (j : PartyJar α) : Request α → PartyJar α
  | .add p element =>
    match j.add p element with
    | .ok (_, changed) => changed
    | .error _ => j
  | .remove p => (j.remove p).2

/-- The jar after requests, one after the other. -/
def afterAll (j : PartyJar α) (requests : List (Request α)) : PartyJar α := requests.foldl after j

/-- No request changes whose jar it is. -/
theorem owner_after (j : PartyJar α) (r : Request α) :
    (j.after r).roster = j.roster ∧ (j.after r).binding = j.binding := by
  cases r with
  | add p element =>
    by_cases h : p ∈ j.roster.parties
    · obtain ⟨k, added, roster, binding, -⟩ := add_of_mem h element
      simp [after, added, roster, binding]
    · simp [after, add_of_not_mem h]
  | remove p => exact ⟨roster_remove j p, binding_remove j p⟩

theorem owner_afterAll (j : PartyJar α) (requests : List (Request α)) :
    (j.afterAll requests).roster = j.roster ∧ (j.afterAll requests).binding = j.binding := by
  induction requests generalizing j with
  | nil => exact ⟨rfl, rfl⟩
  | cons r rest ih =>
    have step := owner_after j r
    have run := ih (j.after r)
    rw [step.1, step.2] at run
    exact run

end PartyJar
end ThresholdMask
