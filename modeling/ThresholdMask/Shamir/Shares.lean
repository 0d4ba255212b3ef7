import ThresholdMask.Party

/-!
# Shares by party

At most one share per party. A collection of shares has an order, in which its entries are visited,
but no operation depends on it except where two entries are at fault.
-/

namespace ThresholdMask

/-- At most one share per party. -/
structure PartyShares where
  entries : List (PartyId × Nat)
  nodup : (entries.map (·.1)).Nodup

namespace PartyShares

/-- No shares. -/
def empty : PartyShares := ⟨[], by simp⟩

/-- The share of a party. -/
def get? (s : PartyShares) (p : PartyId) : Option Nat := s.entries.lookup p

/-- The number of shares. -/
def size (s : PartyShares) : Nat := s.entries.length

/-- The entries with the share of a party overwritten in place, or appended. -/
def enter (p : PartyId) (share : Nat) : List (PartyId × Nat) → List (PartyId × Nat)
  | [] => [(p, share)]
  | (q, old) :: rest => if q = p then (p, share) :: rest else (q, old) :: enter p share rest

theorem mem_map_fst_enter (p q : PartyId) (share : Nat) (entries : List (PartyId × Nat)) :
    q ∈ (enter p share entries).map (·.1) ↔ q = p ∨ q ∈ entries.map (·.1) := by
  induction entries with
  | nil => simp [enter]
  | cons e rest ih =>
    rw [enter]
    split
    · rename_i same
      simp [same]
    · rw [List.map_cons, List.mem_cons, ih, List.map_cons, List.mem_cons]
      constructor
      · rintro (h | h | h)
        · exact .inr (.inl h)
        · exact .inl h
        · exact .inr (.inr h)
      · rintro (h | h | h)
        · exact .inr (.inl h)
        · exact .inl h
        · exact .inr (.inr h)

theorem nodup_enter (p : PartyId) (share : Nat) (entries : List (PartyId × Nat))
    (h : (entries.map (·.1)).Nodup) : ((enter p share entries).map (·.1)).Nodup := by
  induction entries with
  | nil => simp [enter]
  | cons e rest ih =>
    rw [List.map_cons, List.nodup_cons] at h
    rw [enter]
    split
    · rename_i same
      rw [List.map_cons, List.nodup_cons]
      exact ⟨same ▸ h.1, h.2⟩
    · rename_i differ
      rw [List.map_cons, List.nodup_cons, mem_map_fst_enter]
      exact ⟨fun mem => mem.elim differ h.1, ih h.2⟩

/-- Put in a share, in place of the party's earlier one. -/
def insert (s : PartyShares) (p : PartyId) (share : Nat) : PartyShares :=
  ⟨enter p share s.entries, nodup_enter p share s.entries s.nodup⟩

/-- Collect shares; a later one of the same party replaces the earlier. -/
def ofList (entries : List (PartyId × Nat)) : PartyShares :=
  entries.foldl (fun s e => s.insert e.1 e.2) empty

end PartyShares
end ThresholdMask
