import Std.Data.ExtTreeMap

/-!
# Named values

A `NamedValues` is a collection of values under distinct names that remembers the order in which
the names came in. The entries are kept in an array beside an index from names to positions. A new
name enters the index at the end, and when an entry is taken out, the names after it move down by
one.

Two facts are part of the type: no name occurs twice, and the index is the one that the names
determine (`NameIndex.ofNames`). So the entries determine the collection (`ext`), and the index
holds exactly the position of every name (`position?_eq`). What the operations do to the index
leaves it so: `NameIndex.ofNames_append` for a new name, `NameIndex.moveDown_erase` for a name that
is taken out.

`==` ignores the order: two collections are equal if they hold the same values under the same
names.

What a collection holds is seen through `toList`: the section at the end describes every operation
by what it does to `toList`, and look-ups are look-ups in this list (`get?_eq`).
-/

namespace ThresholdMask

/-- Positions of names. -/
abbrev NameIndex := Std.ExtTreeMap String Nat

namespace NameIndex

/-- Enter names into an index, at positions counted from `start`. -/
def enter (index : NameIndex) (start : Nat) : List String → NameIndex
  | [] => index
  | name :: rest => enter (index.insert name start) (start + 1) rest

/-- The index of a list of names. -/
def ofNames (names : List String) : NameIndex := enter ∅ 0 names

/-- Take the positions of names down by one. -/
def moveDown (index : NameIndex) (names : List String) : NameIndex :=
  names.foldl (fun index name => index.modify name (· - 1)) index

theorem enter_append (index : NameIndex) (start : Nat) (names : List String) (name : String) :
    enter index start (names ++ [name]) =
      (enter index start names).insert name (start + names.length) := by
  induction names generalizing index start with
  | nil => rfl
  | cons n rest ih =>
    rw [List.cons_append, enter, enter, ih, List.length_cons]
    congr 1
    omega

theorem ofNames_append (names : List String) (name : String) :
    ofNames (names ++ [name]) = (ofNames names).insert name names.length := by
  rw [ofNames, enter_append, Nat.zero_add, ofNames]

theorem getElem?_enter (index : NameIndex) (start : Nat) (names : List String)
    (nodup : names.Nodup) (name : String) :
    (enter index start names)[name]? =
      match names.idxOf? name with
      | some i => some (start + i)
      | none => index[name]? := by
  induction names generalizing index start with
  | nil => rfl
  | cons n rest ih =>
    obtain ⟨fresh, nodup⟩ := List.nodup_cons.mp nodup
    rw [enter, ih _ _ nodup, List.idxOf?_cons]
    by_cases same : n = name
    · subst same
      have absent : rest.idxOf? n = none := by simpa [List.idxOf?_eq_none_iff] using fresh
      simp [absent]
    · have differ : (n == name) = false := by simpa using same
      rw [differ]
      cases found : rest.idxOf? name with
      | none => simp [Std.ExtTreeMap.getElem?_insert, same]
      | some i =>
        simp only [Bool.false_eq_true, if_false, Option.map_some]
        congr 1
        omega

theorem getElem?_ofNames (names : List String) (nodup : names.Nodup) (name : String) :
    (ofNames names)[name]? = names.idxOf? name := by
  rw [ofNames, getElem?_enter _ _ _ nodup]
  cases names.idxOf? name <;> simp

theorem getElem?_moveDown (index : NameIndex) {names : List String} (nodup : names.Nodup)
    (name : String) :
    (index.moveDown names)[name]? =
      if name ∈ names then index[name]?.map (· - 1) else index[name]? := by
  induction names generalizing index with
  | nil => rfl
  | cons n rest ih =>
    obtain ⟨fresh, nodup⟩ := List.nodup_cons.mp nodup
    rw [moveDown, List.foldl_cons]
    show (moveDown _ rest)[name]? = _
    rw [ih _ nodup, Std.ExtTreeMap.getElem?_modify]
    simp only [Std.compare_eq_iff_eq]
    by_cases same : n = name
    · subst same
      rw [if_neg fresh, if_pos rfl, if_pos List.mem_cons_self]
    · simp [same, Ne.symm same]

/-- Where names are distinct, a name is found exactly where it stands. -/
theorem idxOf?_eq_some_iff_getElem? {names : List String} (nodup : names.Nodup) {name : String}
    {i : Nat} : names.idxOf? name = some i ↔ names[i]? = some name := by
  rw [List.idxOf?_eq_some_iff, List.getElem?_eq_some_iff]
  constructor
  · rintro ⟨inside, here, -⟩
    exact ⟨inside, here⟩
  · rintro ⟨inside, here⟩
    refine ⟨inside, here, fun k before same => ?_⟩
    have equal : k = i := (List.getElem_inj nodup).mp (same.trans here.symm)
    omega

/-- Without the name at a position, the names after it stand one earlier. -/
theorem idxOf?_eraseIdx {names : List String} (nodup : names.Nodup) {name : String} {i : Nat}
    (here : names[i]? = some name) (other : String) :
    (names.eraseIdx i).idxOf? other =
      if other ∈ names.drop (i + 1) then (names.idxOf? other).map (· - 1)
      else if name = other then none else names.idxOf? other := by
  have nodup' : (names.eraseIdx i).Nodup := (List.eraseIdx_sublist names i).nodup nodup
  by_cases later : other ∈ names.drop (i + 1)
  · obtain ⟨j, inside, there⟩ := List.mem_drop_iff_getElem.mp later
    have before : names.idxOf? other = some (i + 1 + j) :=
      (idxOf?_eq_some_iff_getElem? nodup).mpr (List.getElem?_eq_some_iff.mpr ⟨by omega, there⟩)
    have after : (names.eraseIdx i).idxOf? other = some (i + j) := by
      rw [idxOf?_eq_some_iff_getElem? nodup', List.getElem?_eraseIdx, if_neg (by omega),
        ← idxOf?_eq_some_iff_getElem? nodup, before]
      congr 1
      omega
    rw [if_pos later, before, after, Option.map_some]
    congr 1
    omega
  rw [if_neg later]
  by_cases same : name = other
  · -- a distinct name that is taken out is gone
    rw [if_pos same, List.idxOf?_eq_none_iff, List.mem_eraseIdx_iff_getElem?]
    rintro ⟨j, differ, there⟩
    rw [← same, ← idxOf?_eq_some_iff_getElem? nodup] at there
    rw [← idxOf?_eq_some_iff_getElem? nodup, there] at here
    exact differ (Option.some.inj here)
  rw [if_neg same]
  cases found : names.idxOf? other with
  | none =>
    rw [List.idxOf?_eq_none_iff] at found ⊢
    exact fun member => found ((List.eraseIdx_sublist names i).subset member)
  | some j =>
    rw [idxOf?_eq_some_iff_getElem? nodup] at found
    have before : j < i := by
      by_cases apart : j = i
      · subst apart
        exact absurd (Option.some.inj (here.symm.trans found)) same
      · obtain ⟨inside, there⟩ := List.getElem?_eq_some_iff.mp found
        have : ¬i + 1 ≤ j := fun beyond => later
          (List.mem_drop_iff_getElem.mpr ⟨j - (i + 1), by omega, by
            simpa [Nat.add_sub_cancel' beyond] using there⟩)
        omega
    rw [idxOf?_eq_some_iff_getElem? nodup', List.getElem?_eraseIdx, if_pos before, found]

/-- Taking a name out of the index and moving the names after it down gives the index of the other
names. -/
theorem moveDown_erase {names : List String} (nodup : names.Nodup) {name : String} {i : Nat}
    (here : names[i]? = some name) :
    moveDown ((ofNames names).erase name) (names.drop (i + 1)) = ofNames (names.eraseIdx i) := by
  apply Std.ExtTreeMap.ext_getElem?
  intro other
  rw [getElem?_moveDown _ ((List.drop_sublist _ _).nodup nodup), Std.ExtTreeMap.getElem?_erase,
    getElem?_ofNames _ nodup, getElem?_ofNames _ ((List.eraseIdx_sublist names i).nodup nodup),
    idxOf?_eraseIdx nodup here]
  simp only [Std.compare_eq_iff_eq]
  by_cases same : name = other
  · -- the name itself does not come again among the names after it
    subst same
    have gone : name ∉ names.drop (i + 1) := by
      intro later
      obtain ⟨j, inside, there⟩ := List.mem_drop_iff_getElem.mp later
      obtain ⟨inside', here⟩ := List.getElem?_eq_some_iff.mp here
      have : i + 1 + j = i := (List.getElem_inj nodup).mp (there.trans here.symm)
      omega
    rw [if_neg gone, if_neg gone]
  · rw [if_neg same]

end NameIndex

/-- Values under distinct names, in the order in which the names came in. -/
structure NamedValues (α : Type) where
  entries : Array (String × α)
  /-- The position of every name. -/
  index : NameIndex
  nodup : (entries.toList.map (·.1)).Nodup
  index_eq : index = NameIndex.ofNames (entries.toList.map (·.1))

namespace NamedValues

variable {α β : Type}

/-! ## Views -/

/-- The entries in order. -/
def toList (m : NamedValues α) : List (String × α) := m.entries.toList

/-- The names in order. -/
def names (m : NamedValues α) : List String := m.toList.map (·.1)

/-- The number of entries. -/
def size (m : NamedValues α) : Nat := m.entries.size

/-- There are no entries. -/
def isEmpty (m : NamedValues α) : Bool := m.size == 0

/-- The position of a name. -/
def position? (m : NamedValues α) (name : String) : Option Nat := m.index[name]?

/-- The value under a name. -/
def get? (m : NamedValues α) (name : String) : Option α :=
  (m.position? name).bind fun i => m.entries[i]?.map (·.2)

/-- There is a value under the name. -/
def contains (m : NamedValues α) (name : String) : Bool := (m.position? name).isSome

theorem position?_eq (m : NamedValues α) (name : String) :
    m.position? name = m.names.idxOf? name := by
  rw [position?, m.index_eq, NameIndex.getElem?_ofNames _ m.nodup]
  rfl

/-- The entries determine the collection. -/
@[ext] theorem ext {m n : NamedValues α} (h : m.toList = n.toList) : m = n := by
  obtain ⟨es, ix, nd, he⟩ := m
  obtain ⟨fs, jx, ne, hf⟩ := n
  obtain rfl : es = fs := Array.toList_inj.mp h
  obtain rfl : ix = jx := he.trans hf.symm
  rfl

theorem nodup_names (m : NamedValues α) : m.names.Nodup := m.nodup

/-- The value under a name is the one of the entry with that name. -/
theorem get?_eq (m : NamedValues α) (name : String) : m.get? name = m.toList.lookup name := by
  have onList : ∀ l : List (String × α),
      (((l.map (·.1)).idxOf? name).bind fun i => l[i]?.map (·.2)) = l.lookup name := by
    intro l
    induction l with
    | nil => rfl
    | cons e rest ih =>
      rw [List.map_cons, List.idxOf?_cons, List.lookup_cons, ← ih]
      by_cases same : e.1 = name
      · simp [same]
      · have differ : (name == e.1) = false := by simpa using Ne.symm same
        cases (rest.map (·.1)).idxOf? name <;> simp [same, differ]
  rw [get?, position?_eq, ← onList]
  simp only [names, toList, Array.getElem?_toList]

theorem contains_iff (m : NamedValues α) (name : String) :
    m.contains name = true ↔ name ∈ m.names := by
  rw [contains, position?_eq, List.isSome_idxOf?]

/-! ## Building -/

/-- The collection without entries. -/
def empty : NamedValues α := ⟨#[], ∅, by simp, rfl⟩

instance : EmptyCollection (NamedValues α) := ⟨empty⟩

instance : Inhabited (NamedValues α) := ⟨empty⟩

/-- The collection with the given distinct names. -/
def ofDistinct (l : List (String × α)) (h : (l.map (·.1)).Nodup) : NamedValues α :=
  ⟨l.toArray, NameIndex.ofNames (l.map (·.1)), h, rfl⟩

/-- Apply a function to every value, given its name. -/
def mapValues (f : String → α → β) (m : NamedValues α) : NamedValues β where
  entries := m.entries.map fun e => (e.1, f e.1 e.2)
  index := m.index
  nodup := by simpa [Function.comp_def] using m.nodup
  index_eq := by simpa [Function.comp_def] using m.index_eq

/-- Overwriting values leaves the names. -/
theorem map_fst_modify (entries : Array (String × α)) (i : Nat) (value : α) :
    (entries.modify i fun e => (e.1, value)).toList.map (·.1) = entries.toList.map (·.1) := by
  apply List.ext_getElem?
  intro k
  simp only [Array.toList_modify, List.getElem?_map, List.getElem?_modify]
  split <;> simp [Function.comp_def]

/-- Overwrite the value at a position, keeping its name. -/
def setValue (m : NamedValues α) (i : Nat) (value : α) : NamedValues α where
  entries := m.entries.modify i fun e => (e.1, value)
  index := m.index
  nodup := by rw [map_fst_modify]; exact m.nodup
  index_eq := by rw [map_fst_modify]; exact m.index_eq

/-- Append a value under a name that is not there yet. -/
def push (m : NamedValues α) (name : String) (value : α) (fresh : m.position? name = none) :
    NamedValues α where
  entries := m.entries.push (name, value)
  index := m.index.insert name m.entries.size
  nodup := by
    have absent : name ∉ m.entries.toList.map (·.1) := by
      rw [position?_eq, List.idxOf?_eq_none_iff] at fresh
      exact fresh
    rw [Array.toList_push, List.map_append, List.nodup_append]
    refine ⟨m.nodup, by simp, ?_⟩
    intro a ha b hb
    simp only [List.map_cons, List.map_nil, List.mem_singleton] at hb
    subst hb
    exact fun same => absent (same ▸ ha)
  index_eq := by
    rw [Array.toList_push, List.map_append, List.map_cons, List.map_nil,
      NameIndex.ofNames_append, m.index_eq]
    simp

/-- Put a value under a name: in place of the one that is there, else at the end. The answer begins
with the value that is replaced. -/
def insert (m : NamedValues α) (name : String) (value : α) : Option α × NamedValues α :=
  match h : m.position? name with
  | some i => (m.get? name, m.setValue i value)
  | none => (none, m.push name value h)

/-- Take out the entry with a name, which stands at the position. The names after it move down. -/
def eraseAt (m : NamedValues α) (name : String) (i : Nat) (found : m.position? name = some i) :
    NamedValues α where
  entries := m.entries.eraseIdxIfInBounds i
  index := NameIndex.moveDown (m.index.erase name) (m.names.drop (i + 1))
  nodup := by
    rw [Array.toList_eraseIdxIfInBounds]
    exact ((List.eraseIdx_sublist m.toList i).map (·.1)).nodup m.nodup
  index_eq := by
    rw [position?_eq, NameIndex.idxOf?_eq_some_iff_getElem? m.nodup_names] at found
    have names : (m.entries.toList.eraseIdx i).map (·.1) = m.names.eraseIdx i := by
      rw [List.eraseIdx_eq_take_drop_succ, List.eraseIdx_eq_take_drop_succ, List.map_append,
        List.map_take, List.map_drop]
      rfl
    rw [Array.toList_eraseIdxIfInBounds, names, m.index_eq]
    exact NameIndex.moveDown_erase m.nodup found

/-- Take the value under a name out; the other entries keep their order. -/
def remove (m : NamedValues α) (name : String) : Option α × NamedValues α :=
  match h : m.position? name with
  | none => (none, m)
  | some i => (m.get? name, m.eraseAt name i h)

/-- Put in entries one after another. -/
def extend (m : NamedValues α) (entries : List (String × α)) : NamedValues α :=
  entries.foldl (fun m e => (m.insert e.1 e.2).2) m

/-- Collect entries; a repeated name replaces the earlier value in place. -/
def ofList (entries : List (String × α)) : NamedValues α := empty.extend entries

/-- The same values under the same names, in any order. -/
instance [BEq α] : BEq (NamedValues α) where
  beq a b := a.size == b.size && a.toList.all fun (name, value) => b.get? name == some value

/-! ## What building does to the entries -/

@[simp] theorem toList_empty : (empty : NamedValues α).toList = [] := rfl

@[simp] theorem toList_ofDistinct (l : List (String × α)) (h : (l.map (·.1)).Nodup) :
    (ofDistinct l h).toList = l := rfl

@[simp] theorem toList_mapValues (f : String → α → β) (m : NamedValues α) :
    (m.mapValues f).toList = m.toList.map fun e => (e.1, f e.1 e.2) := by
  simp [mapValues, toList]

/-- Overwriting at the position of a name is overwriting under the name. -/
theorem modify_eq_map {name : String} {value : α} {l : List (String × α)} {i : Nat}
    (nodup : (l.map (·.1)).Nodup) (found : (l.map (·.1)).idxOf? name = some i) :
    l.modify i (fun e => (e.1, value)) = l.map fun e => if e.1 = name then (name, value) else e := by
  induction l generalizing i with
  | nil => cases found
  | cons e rest ih =>
    rw [List.map_cons, List.nodup_cons] at nodup
    rw [List.map_cons, List.idxOf?_cons] at found
    by_cases same : e.1 = name
    · have others : ∀ f ∈ rest, f.1 ≠ name := fun f hf hn =>
        nodup.1 (List.mem_map.mpr ⟨f, hf, hn.trans same.symm⟩)
      obtain rfl : i = 0 := by simpa [same] using found.symm
      rw [List.modify_zero_cons, List.map_cons, if_pos same, same]
      congr 1
      rw [List.map_congr_left fun f hf => if_neg (others f hf), List.map_id']
    · have differ : (e.1 == name) = false := by simpa using same
      rw [differ] at found
      obtain ⟨j, hj, rfl⟩ : ∃ j, (rest.map (·.1)).idxOf? name = some j ∧ j + 1 = i := by
        simpa using found
      rw [List.modify_succ_cons, List.map_cons, if_neg same, ih nodup.2 hj]

/-- Erasing at the position of a name is dropping the entry with the name. -/
theorem eraseIdx_eq_filter {name : String} {l : List (String × α)} {i : Nat}
    (nodup : (l.map (·.1)).Nodup) (found : (l.map (·.1)).idxOf? name = some i) :
    l.eraseIdx i = l.filter fun e => e.1 ≠ name := by
  induction l generalizing i with
  | nil => cases found
  | cons e rest ih =>
    rw [List.map_cons, List.nodup_cons] at nodup
    rw [List.map_cons, List.idxOf?_cons] at found
    by_cases same : e.1 = name
    · have others : ∀ f ∈ rest, f.1 ≠ name := fun f hf hn =>
        nodup.1 (List.mem_map.mpr ⟨f, hf, hn.trans same.symm⟩)
      obtain rfl : i = 0 := by simpa [same] using found.symm
      rw [List.eraseIdx_cons_zero, List.filter_cons_of_neg (by simp [same])]
      exact (List.filter_eq_self.mpr fun f hf => by simpa using others f hf).symm
    · have differ : (e.1 == name) = false := by simpa using same
      rw [differ] at found
      obtain ⟨j, hj, rfl⟩ : ∃ j, (rest.map (·.1)).idxOf? name = some j ∧ j + 1 = i := by
        simpa using found
      rw [List.eraseIdx_cons_succ, List.filter_cons_of_pos (by simpa using same), ih nodup.2 hj]

/-- A new name goes to the end. -/
theorem toList_insert_of_not_mem {m : NamedValues α} {name : String} (h : name ∉ m.names)
    (value : α) : (m.insert name value).2.toList = m.toList ++ [(name, value)] := by
  unfold insert
  split
  · rename_i i found
    rw [position?_eq] at found
    exact absurd (List.isSome_idxOf?.mp (by rw [found]; rfl)) h
  · simp [push, toList]

/-- A name that is there keeps its place. -/
theorem toList_insert_of_mem {m : NamedValues α} {name : String} (h : name ∈ m.names) (value : α) :
    (m.insert name value).2.toList =
      m.toList.map fun e => if e.1 = name then (name, value) else e := by
  unfold insert
  split
  · rename_i i found
    rw [position?_eq] at found
    exact Array.toList_modify.trans (modify_eq_map m.nodup found)
  · rename_i absent
    rw [position?_eq, List.idxOf?_eq_none_iff] at absent
    exact absurd h absent

@[simp] theorem fst_insert (m : NamedValues α) (name : String) (value : α) :
    (m.insert name value).1 = m.get? name := by
  unfold insert
  split
  · rfl
  · rename_i absent
    exact (congrArg (·.bind fun i => m.entries[i]?.map (·.2)) absent).symm

theorem toList_remove (m : NamedValues α) (name : String) :
    (m.remove name).2.toList = m.toList.filter fun e => e.1 ≠ name := by
  unfold remove
  split
  · rename_i absent
    rw [position?_eq, List.idxOf?_eq_none_iff] at absent
    refine (List.filter_eq_self.mpr fun e he => ?_).symm
    have differ : e.1 ≠ name := fun same => absent (same ▸ List.mem_map_of_mem he)
    simpa using differ
  · rename_i i found
    rw [position?_eq] at found
    exact Array.toList_eraseIdxIfInBounds.trans (eraseIdx_eq_filter m.nodup found)

@[simp] theorem fst_remove (m : NamedValues α) (name : String) :
    (m.remove name).1 = m.get? name := by
  unfold remove
  split
  · rename_i absent
    rw [get?, absent]
    rfl
  · rfl

/-- New distinct names go to the end in their order. -/
theorem toList_extend {m : NamedValues α} {l : List (String × α)}
    (h : (m.names ++ l.map (·.1)).Nodup) : (m.extend l).toList = m.toList ++ l := by
  induction l generalizing m with
  | nil => simp [extend]
  | cons e rest ih =>
    have split : (m.names ++ [e.1] ++ rest.map (·.1)).Nodup := by simpa using h
    have fresh : e.1 ∉ m.names := fun mem =>
      (List.nodup_append.mp (List.nodup_append.mp split).1).2.2 e.1 mem e.1 (by simp) rfl
    have pushed := toList_insert_of_not_mem fresh e.2
    have named : (m.insert e.1 e.2).2.names = m.names ++ [e.1] := by simp [names, pushed]
    have others := ih (m := (m.insert e.1 e.2).2) (by rw [named]; exact split)
    rw [extend] at others
    rw [extend, List.foldl_cons, others, pushed, List.append_assoc]
    rfl

/-- Distinct names are collected in their order. -/
theorem toList_ofList {l : List (String × α)} (h : (l.map (·.1)).Nodup) : (ofList l).toList = l := by
  have := toList_extend (m := (empty : NamedValues α)) (l := l) (by simpa [names] using h)
  simpa [ofList] using this

theorem ofList_toList (m : NamedValues α) : ofList m.toList = m :=
  ext (toList_ofList m.nodup)

end NamedValues
end ThresholdMask
