import Mathlib
import ThresholdMask.Data.Values
import ThresholdMask.Proofs.Outcomes

/-!
# Collections answer as association lists

A plain list of entries can serve every request that a collection of named values serves:
`EntryList.put` puts a value in place of the one under its name or at the end, `EntryList.drop`
leaves out the entry with a name, and look-ups go through the list. `NamedValues.refines_entryList`
runs a collection and such a list side by side. Whatever is asked of them, in whatever order, they
give the same replies and hold the same entries in the same order, and at the end of every run the
collection's index holds exactly the position of every name, which is a position of an entry.
-/

namespace ThresholdMask

variable {α : Type}

/-! ## Requests -/

/-- What can be asked of a collection. -/
inductive NamedValues.Request (α : Type) where
  /-- Start over without entries. -/
  | new
  | insert (name : String) (value : α)
  | remove (name : String)
  | extend (entries : List (String × α))
  /-- Start over with these entries. -/
  | collect (entries : List (String × α))
  /-- Start over with what is read from data, if it can be read, given the form of the values. -/
  | read (form : DataForm α) (data : Data)
  | get (name : String)
  | contains (name : String)
  | size
  | isEmpty
  | names
  /-- List the entries. -/
  | entries

/-- What is replied to a request. -/
inductive NamedValues.Reply (α : Type) where
  | done
  | value (found : Option α)
  | flag (b : Bool)
  | count (n : Nat)
  | names (names : List String)
  | entries (entries : List (String × α))

/-- The replies to requests that are served one after the other, and the state after them. -/
def NamedValues.runRequests {σ : Type} (serve : σ → Request α → Reply α × σ) (s : σ) :
    List (Request α) → List (Reply α) × σ
  | [] => ([], s)
  | r :: rest =>
    let (reply, next) := serve s r
    let (replies, last) := runRequests serve next rest
    (reply :: replies, last)

/-- If every request gets the same reply from a state as from its view, and leads on to the view of
the next state, then so do all requests together. -/
theorem NamedValues.runRequests_view {σ τ : Type} {serve : σ → Request α → Reply α × σ}
    {serve' : τ → Request α → Reply α × τ} {view : σ → τ}
    (step : ∀ s r, serve' (view s) r = ((serve s r).1, view (serve s r).2)) (s : σ)
    (requests : List (Request α)) :
    runRequests serve' (view s) requests =
      ((runRequests serve s requests).1, view (runRequests serve s requests).2) := by
  induction requests generalizing s with
  | nil => rfl
  | cons r rest ih =>
    have first := step s r
    have others := ih (serve s r).2
    simp only [runRequests, first, others]

/-! ## Association lists -/

namespace EntryList

/-- Put a value in place of the one under the name, or else at the end. -/
def put (name : String) (value : α) : List (String × α) → List (String × α)
  | [] => [(name, value)]
  | e :: rest => if e.1 = name then (name, value) :: rest else e :: put name value rest

/-- Leave out the entry with the name. -/
def drop (name : String) : List (String × α) → List (String × α)
  | [] => []
  | e :: rest => if e.1 = name then rest else e :: drop name rest

/-- Put in entries one after another. -/
def putAll (l entries : List (String × α)) : List (String × α) :=
  entries.foldl (fun l e => put e.1 e.2 l) l

/-- Read the entries of a collection, in the order in which they were written. -/
def read? (form : DataForm α) (data : Data) : Option (List (String × α)) :=
  match data.fields? ["entries"] with
  | some [.list items] => items.mapM NamedValues.decodeEntry?
  | _ => none

/-- Serve a request from a list of entries. -/
def serve (l : List (String × α)) :
    NamedValues.Request α → NamedValues.Reply α × List (String × α)
  | .new => (.done, [])
  | .insert name value => (.value (l.lookup name), put name value l)
  | .remove name => (.value (l.lookup name), drop name l)
  | .extend entries => (.done, putAll l entries)
  | .collect entries => (.done, putAll [] entries)
  | .read form data =>
    match read? form data with
    | some entries => (.flag true, putAll [] entries)
    | none => (.flag false, l)
  | .get name => (.value (l.lookup name), l)
  | .contains name => (.flag (l.any (·.1 = name)), l)
  | .size => (.count l.length, l)
  | .isEmpty => (.flag l.isEmpty, l)
  | .names => (.names (l.map (·.1)), l)
  | .entries => (.entries l, l)

theorem put_of_not_mem {name : String} {l : List (String × α)} (h : name ∉ l.map (·.1))
    (value : α) : put name value l = l ++ [(name, value)] := by
  induction l with
  | nil => rfl
  | cons e rest ih =>
    rw [List.map_cons, List.mem_cons, not_or] at h
    rw [put, if_neg (Ne.symm h.1), ih h.2, List.cons_append]

theorem put_of_mem {name : String} {l : List (String × α)} (nodup : (l.map (·.1)).Nodup)
    (h : name ∈ l.map (·.1)) (value : α) :
    put name value l = l.map fun e => if e.1 = name then (name, value) else e := by
  induction l with
  | nil => cases h
  | cons e rest ih =>
    rw [List.map_cons, List.nodup_cons] at nodup
    rw [put, List.map_cons]
    by_cases same : e.1 = name
    · -- the name does not come again, so that nothing else is replaced
      have others : ∀ f ∈ rest, ¬f.1 = name := fun f member again =>
        nodup.1 (same ▸ again ▸ List.mem_map_of_mem member)
      rw [if_pos same, if_pos same, List.map_congr_left fun f member => if_neg (others f member),
        List.map_id']
    · rw [List.map_cons, List.mem_cons] at h
      rw [if_neg same, if_neg same, ih nodup.2 (h.resolve_left (Ne.symm same))]

theorem drop_eq_filter {l : List (String × α)} (nodup : (l.map (·.1)).Nodup) (name : String) :
    drop name l = l.filter fun e => e.1 ≠ name := by
  induction l with
  | nil => rfl
  | cons e rest ih =>
    rw [List.map_cons, List.nodup_cons] at nodup
    rw [drop]
    by_cases same : e.1 = name
    · have others : ∀ f ∈ rest, f.1 ≠ name := fun f member again =>
        nodup.1 (same ▸ again ▸ List.mem_map_of_mem member)
      rw [if_pos same, List.filter_cons_of_neg (by simp [same])]
      exact (List.filter_eq_self.mpr fun f member => by simpa using others f member).symm
    · rw [if_neg same, List.filter_cons_of_pos (by simpa using same), ih nodup.2]

end EntryList

/-! ## What collections reply -/

namespace NamedValues

/-- Serve a request from a collection. -/
def serve (m : NamedValues α) : Request α → Reply α × NamedValues α
  | .new => (.done, empty)
  | .insert name value =>
    let (old, changed) := m.insert name value
    (.value old, changed)
  | .remove name =>
    let (old, changed) := m.remove name
    (.value old, changed)
  | .extend entries => (.done, m.extend entries)
  | .collect entries => (.done, ofList entries)
  | .read form data =>
    match @decode? α form data with
    | some collected => (.flag true, collected)
    | none => (.flag false, m)
  | .get name => (.value (m.get? name), m)
  | .contains name => (.flag (m.contains name), m)
  | .size => (.count m.size, m)
  | .isEmpty => (.flag m.isEmpty, m)
  | .names => (.names m.names, m)
  | .entries => (.entries m.toList, m)

theorem toList_insert (m : NamedValues α) (name : String) (value : α) :
    (m.insert name value).2.toList = EntryList.put name value m.toList := by
  by_cases h : name ∈ m.names
  · rw [toList_insert_of_mem h, EntryList.put_of_mem m.nodup_names h]
  · rw [toList_insert_of_not_mem h, EntryList.put_of_not_mem h]

theorem toList_remove_eq_drop (m : NamedValues α) (name : String) :
    (m.remove name).2.toList = EntryList.drop name m.toList := by
  rw [toList_remove, EntryList.drop_eq_filter m.nodup_names]

theorem toList_extend_eq_putAll (m : NamedValues α) (entries : List (String × α)) :
    (m.extend entries).toList = EntryList.putAll m.toList entries := by
  induction entries generalizing m with
  | nil => rfl
  | cons e rest ih =>
    have others := ih (m.insert e.1 e.2).2
    rw [toList_insert] at others
    exact others

theorem toList_ofList_eq_putAll (entries : List (String × α)) :
    (ofList entries).toList = EntryList.putAll [] entries :=
  toList_extend_eq_putAll empty entries

theorem decode?_eq_read? (form : DataForm α) (data : Data) :
    decode? data = (EntryList.read? form data).map ofList := by
  unfold decode? EntryList.read?
  generalize data.fields? ["entries"] = fields
  match fields with
  | none | some [] => rfl
  | some [items] | some (items :: _ :: _) => cases items <;> rfl

theorem contains_eq_any (m : NamedValues α) (name : String) :
    m.contains name = m.toList.any (·.1 = name) := by
  rw [Bool.eq_iff_iff, contains_iff, List.any_eq_true, names, List.mem_map]
  simp only [decide_eq_true_eq]

theorem size_eq_length (m : NamedValues α) : m.size = m.toList.length :=
  Array.length_toList.symm

theorem isEmpty_eq (m : NamedValues α) : m.isEmpty = m.toList.isEmpty := by
  rw [isEmpty, size_eq_length]
  cases m.toList with
  | nil => rfl
  | cons e rest => rfl

/-- Every request gets the same reply from a collection and from its list of entries, and changes
both alike. -/
theorem serve_toList (m : NamedValues α) (r : Request α) :
    EntryList.serve m.toList r = ((m.serve r).1, (m.serve r).2.toList) := by
  cases r with
  | new => rfl
  | insert name value =>
    show _ = (Reply.value (m.insert name value).1, (m.insert name value).2.toList)
    rw [fst_insert, toList_insert, get?_eq]
    rfl
  | remove name =>
    show _ = (Reply.value (m.remove name).1, (m.remove name).2.toList)
    rw [fst_remove, toList_remove_eq_drop, get?_eq]
    rfl
  | extend entries =>
    show _ = (Reply.done, (m.extend entries).toList)
    rw [toList_extend_eq_putAll]
    rfl
  | collect entries =>
    show _ = (Reply.done, (ofList entries).toList)
    rw [toList_ofList_eq_putAll]
    rfl
  | read form data =>
    unfold serve EntryList.serve
    dsimp only
    rw [decode?_eq_read?]
    cases EntryList.read? form data with
    | none => rfl
    | some entries => exact congrArg (Prod.mk _) (toList_ofList_eq_putAll entries).symm
  | get name =>
    show _ = (Reply.value (m.get? name), m.toList)
    rw [get?_eq]
    rfl
  | contains name =>
    show _ = (Reply.flag (m.contains name), m.toList)
    rw [contains_eq_any]
    rfl
  | size =>
    show _ = (Reply.count m.size, m.toList)
    rw [size_eq_length]
    rfl
  | isEmpty =>
    show _ = (Reply.flag m.isEmpty, m.toList)
    rw [isEmpty_eq]
    rfl
  | names => rfl
  | entries => rfl

/-! ## The index -/

/-- No name occurs twice, and the index holds exactly the position of every name. -/
structure Aligned (m : NamedValues α) : Prop where
  nodup : m.names.Nodup
  getElem?_index : ∀ (name : String) (i : Nat), m.index[name]? = some i ↔ m.names[i]? = some name
  /-- A position in the index is that of an entry. -/
  inRange : ∀ (name : String) (i : Nat), m.index[name]? = some i → i < m.entries.size

theorem aligned (m : NamedValues α) : m.Aligned := by
  have positions (name : String) (i : Nat) :
      m.index[name]? = some i ↔ m.names[i]? = some name := by
    rw [← NameIndex.idxOf?_eq_some_iff_getElem? m.nodup_names, ← position?_eq]
    rfl
  refine ⟨m.nodup_names, positions, ?_⟩
  intro name i found
  obtain ⟨inside, -⟩ := List.getElem?_eq_some_iff.mp ((positions name i).mp found)
  simpa [names, toList] using inside

/-- **Insertion order.** To any requests, in any order and with any names, a new collection replies
as a new association list does, and they end with the same entries in the same order. The index of
the collection then holds exactly the position of every name, and no position beyond the entries. -/
theorem refines_entryList (requests : List (Request α)) :
    (runRequests serve (empty : NamedValues α) requests).1 =
        (runRequests EntryList.serve ([] : List (String × α)) requests).1 ∧
      (runRequests serve (empty : NamedValues α) requests).2.toList =
        (runRequests EntryList.serve ([] : List (String × α)) requests).2 ∧
      (runRequests serve (empty : NamedValues α) requests).2.Aligned := by
  have run : runRequests EntryList.serve [] requests =
      ((runRequests serve (empty : NamedValues α) requests).1,
        (runRequests serve (empty : NamedValues α) requests).2.toList) :=
    runRequests_view serve_toList empty requests
  rw [run]
  exact ⟨rfl, rfl, aligned _⟩

end NamedValues
end ThresholdMask
