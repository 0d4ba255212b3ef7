import Mathlib
import ThresholdMask.Proofs.InsertionOrder

/-!
# Collections as finite maps

Two collections of named values are compared by counting: they have as many entries, and each entry
of the first one is found in the second. Only this direction is looked at. The other one follows
because names are distinct, so that as many entries leave none over, and `==` is the equality of the
maps that look-ups show (`NamedValues.equality_of_maps`).

What a request does to a collection it does to its map: putting in and taking out are updates at one
name. So collections that are equal stay so under the same requests, and the order in which values
come in under different names does not matter.
-/

namespace ThresholdMask

variable {α : Type}

/-! ## Look-ups in association lists -/

theorem EntryList.lookup_put (name : String) (value : α) (l : List (String × α)) (other : String) :
    (put name value l).lookup other = if other = name then some value else l.lookup other := by
  induction l with
  | nil => rw [put, lookup_cons_eq_ite]
  | cons e rest ih =>
    rw [put]
    by_cases here : e.1 = name
    · rw [if_pos here, lookup_cons_eq_ite, lookup_cons_eq_ite, here]
      by_cases same : other = name
      · simp [same]
      · simp [same]
    · rw [if_neg here, lookup_cons_eq_ite, lookup_cons_eq_ite, ih]
      by_cases same : other = e.1
      · simp [same, here]
      · simp [same]

namespace NamedValues

/-! ## What requests do to the map -/

/-- Putting a value in is an update under its name. -/
theorem get?_insert (m : NamedValues α) (name : String) (value : α) :
    (m.insert name value).2.get? = Function.update m.get? name (some value) := by
  funext other
  rw [get?_eq, toList_insert, EntryList.lookup_put, ← get?_eq, Function.update_apply]

/-- Taking a value out is an update under its name. -/
theorem get?_remove (m : NamedValues α) (name : String) :
    (m.remove name).2.get? = Function.update m.get? name none := by
  funext other
  apply Option.ext
  intro value
  rw [← mem_toList_iff, toList_remove, List.mem_filter, mem_toList_iff, Function.update_apply]
  by_cases same : other = name
  · simp [same]
  · simp [same]

/-- The map after entries have been put in, one after another. -/
def putInto (map : String → Option α) (entries : List (String × α)) : String → Option α :=
  entries.foldl (fun map e => Function.update map e.1 (some e.2)) map

theorem get?_extend (m : NamedValues α) (entries : List (String × α)) :
    (m.extend entries).get? = putInto m.get? entries := by
  induction entries generalizing m with
  | nil => rfl
  | cons e rest ih =>
    show ((m.insert e.1 e.2).2.extend rest).get? = _
    rw [ih, get?_insert]
    rfl

/-- Entries under distinct names can be put in in any order. -/
theorem putInto_eq_of_perm {entries entries' : List (String × α)} (perm : entries.Perm entries')
    (nodup : (entries.map (·.1)).Nodup) (map : String → Option α) :
    putInto map entries = putInto map entries' := by
  apply perm.foldl_eq'
  intro e member e' member' map
  by_cases same : e.1 = e'.1
  · rw [List.inj_on_of_nodup_map nodup member member' same]
  · exact Function.update_comm same _ _ map

/-- Requests do the same to collections with the same map. -/
theorem get?_serve {a b : NamedValues α} (same : a.get? = b.get?) (r : Request α) :
    (a.serve r).2.get? = (b.serve r).2.get? := by
  cases r with
  | new => rfl
  | insert name value =>
    show (a.insert name value).2.get? = (b.insert name value).2.get?
    rw [get?_insert, get?_insert, same]
  | remove name =>
    show (a.remove name).2.get? = (b.remove name).2.get?
    rw [get?_remove, get?_remove, same]
  | extend entries =>
    show (a.extend entries).get? = (b.extend entries).get?
    rw [get?_extend, get?_extend, same]
  | collect entries => rfl
  | read form data =>
    unfold serve
    dsimp only
    cases @decode? α form data with
    | none => exact same
    | some collected => rfl
  | get name => exact same
  | contains name => exact same
  | size => exact same
  | isEmpty => exact same
  | names => exact same
  | entries => exact same

theorem get?_runRequests {a b : NamedValues α} (same : a.get? = b.get?)
    (requests : List (Request α)) :
    (runRequests serve a requests).2.get? = (runRequests serve b requests).2.get? := by
  induction requests generalizing a b with
  | nil => exact same
  | cons r rest ih => exact ih (get?_serve same r)

/-! ## Equality -/

/-- Collections have the same map exactly if they have the same entries in some order. -/
theorem get?_eq_iff_perm {a b : NamedValues α} : a.get? = b.get? ↔ a.toList.Perm b.toList := by
  have distinct (m : NamedValues α) : m.toList.Nodup := .of_map _ m.nodup_names
  rw [List.perm_ext_iff_of_nodup (distinct a) (distinct b)]
  constructor
  · intro same e
    rw [mem_toList_iff, mem_toList_iff, same]
  · intro same
    funext name
    apply Option.ext
    intro value
    rw [← mem_toList_iff, ← mem_toList_iff, same]

section Equality

variable [BEq α] [LawfulBEq α]

/-- Collections with the same values under the same names are equal up to order. -/
theorem beq_of_get?_eq {a b : NamedValues α} (same : ∀ name, a.get? name = b.get? name) :
    (a == b) = true := by
  have sizes : a.size = b.size := by
    rw [size_eq_length, size_eq_length]
    exact (get?_eq_iff_perm.mp (funext same)).length_eq
  show (a.size == b.size && a.toList.all fun e => b.get? e.1 == some e.2) = true
  rw [Bool.and_eq_true, beq_iff_eq, List.all_eq_true]
  refine ⟨sizes, fun e member => ?_⟩
  rw [beq_iff_eq, ← same]
  exact mem_toList_iff.mp member

theorem get?_eq_of_beq {a b : NamedValues α} (equal : (a == b) = true) (name : String) :
    a.get? name = b.get? name := by
  change (a.size == b.size && a.toList.all fun e => b.get? e.1 == some e.2) = true at equal
  rw [Bool.and_eq_true, beq_iff_eq, List.all_eq_true] at equal
  obtain ⟨sizes, each⟩ := equal
  rw [size_eq_length, size_eq_length] at sizes
  have part : a.toList ⊆ b.toList := fun e member => mem_toList_iff.mpr (beq_iff_eq.mp (each e member))
  -- as many distinct entries, so that none is left over
  have perm : a.toList.Perm b.toList :=
    (List.subperm_of_subset (List.Nodup.of_map _ a.nodup_names) part).perm_of_length_le sizes.ge
  exact congrFun (get?_eq_iff_perm.mpr perm) name

theorem beq_iff_get?_eq {a b : NamedValues α} : (a == b) = true ↔ a.get? = b.get? :=
  ⟨fun equal => funext (get?_eq_of_beq equal), fun same => beq_of_get?_eq (congrFun same)⟩

/-- **Equality of maps.** Collections are equal exactly if every look-up finds the same in both,
that is, if they hold the same entries in some order. So equality is an equivalence; entries under
distinct names can be put into equal collections in different orders; and equal collections remain
equal when the same is put in or taken out, and under all requests together. -/
theorem equality_of_maps :
    (∀ a b : NamedValues α, (a == b) = true ↔ ∀ name, a.get? name = b.get? name) ∧
      (∀ a b : NamedValues α, (a == b) = true ↔ a.toList.Perm b.toList) ∧
      (Equivalence fun a b : NamedValues α => (a == b) = true) ∧
      ∀ a b : NamedValues α, (a == b) = true →
        (∀ entries entries', entries.Perm entries' → (entries.map (·.1)).Nodup →
          (a.extend entries == b.extend entries') = true) ∧
        (∀ name value, ((a.insert name value).2 == (b.insert name value).2) = true) ∧
        (∀ name, ((a.remove name).2 == (b.remove name).2) = true) ∧
        (∀ entries, (a.extend entries == b.extend entries) = true) ∧
        ∀ requests, ((runRequests serve a requests).2 == (runRequests serve b requests).2) = true := by
  refine ⟨fun a b => ?_, fun a b => ?_, ⟨fun a => ?_, fun {a b} equal => ?_,
    fun {a b c} equal equal' => ?_⟩, fun a b equal => ?_⟩
  · rw [beq_iff_get?_eq, funext_iff]
  · rw [beq_iff_get?_eq, get?_eq_iff_perm]
  · exact beq_iff_get?_eq.mpr rfl
  · exact beq_iff_get?_eq.mpr (beq_iff_get?_eq.mp equal).symm
  · exact beq_iff_get?_eq.mpr ((beq_iff_get?_eq.mp equal).trans (beq_iff_get?_eq.mp equal'))
  · have same := beq_iff_get?_eq.mp equal
    simp only [beq_iff_get?_eq]
    refine ⟨fun entries entries' perm nodup => ?_, fun name value => ?_, fun name => ?_,
      fun entries => ?_, get?_runRequests same⟩
    · rw [get?_extend, get?_extend, same, putInto_eq_of_perm perm nodup]
    · exact get?_serve same (.insert name value)
    · exact get?_serve same (.remove name)
    · exact get?_serve same (.extend entries)

end Equality

theorem swapped_entries_equal :
    (ofList [("x", 1), ("y", 2)] == ofList [("y", 2), ("x", 1)]) = true ∧
    (((ofList [("x", 1), ("y", 2)]).remove "x").2 ==
      ((ofList [("y", 2), ("x", 1)]).remove "x").2) = true ∧
    ¬(ofList [("x", 1), ("y", 2)] == ofList [("x", 1), ("y", 3)]) = true := by
  obtain ⟨lookups, entries, -, kept⟩ := equality_of_maps (α := Nat)
  have equal : (ofList [("x", 1), ("y", 2)] == ofList [("y", 2), ("x", 1)]) = true := by
    rw [entries, toList_ofList (by decide), toList_ofList (by decide)]
    exact .swap ..
  obtain ⟨-, -, removed, -, -⟩ := kept _ _ equal
  refine ⟨equal, removed "x", fun equal' => ?_⟩
  have same := (lookups _ _).mp equal' "y"
  rw [get?_eq, get?_eq, toList_ofList (by decide), toList_ofList (by decide)] at same
  exact absurd same (by decide)

end NamedValues
end ThresholdMask
