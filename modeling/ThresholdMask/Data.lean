/-!
# A self-describing data model

`Data` is the common form into which values, collections and settings are written: null, booleans,
numbers, texts, lists and records. A type with a form in it is an instance of `DataForm`; reading
may fail, without a reason.

Conventions for all types: a choice without contents is the text of its name, a choice with contents
is a record of one field. A structure is a record of its fields or, when read, the list of their
contents in order; the contents of a choice with several fields are always a record. Fields that are
not known are ignored.
-/

namespace ThresholdMask

/-- Self-describing data. -/
inductive Data where
  | null
  | boolean (b : Bool)
  | integer (n : Int)
  /-- A number with a decimal point: `mantissa / 10 ^ scale`. -/
  | decimal (mantissa : Int) (scale : Nat)
  | text (s : String)
  | list (items : List Data)
  | record (fields : List (String × Data))
deriving Inhabited

/-- Types with a form in the data model. -/
class DataForm (α : Type) where
  encode : α → Data
  decode? : Data → Option α

namespace Data

/-! ## Access -/

/-- The text. -/
def text? : Data → Option String
  | text s => some s
  | _ => none

/-- The boolean. -/
def boolean? : Data → Option Bool
  | boolean b => some b
  | _ => none

/-- The integer. -/
def integer? : Data → Option Int
  | integer n => some n
  | _ => none

/-- A natural number below a bound. -/
def natural? (bound : Nat) : Data → Option Nat
  | integer n => if 0 ≤ n ∧ n.toNat < bound then some n.toNat else none
  | _ => none

/-- The items of a list. -/
def items? : Data → Option (List Data)
  | list items => some items
  | _ => none

/-- A natural number as data. -/
def natural (n : Nat) : Data := integer n

theorem natural?_natural {bound n : Nat} (h : n < bound) : (natural n).natural? bound = some n := by
  simp [natural, natural?, h]

/-! ## Subterms are smaller -/

theorem sizeOf_lt_of_lookup {fields : List (String × Data)} {name : String} {d : Data}
    (h : fields.lookup name = some d) : sizeOf d < sizeOf (record fields) := by
  induction fields with
  | nil => cases h
  | cons field rest ih =>
    obtain ⟨key, contents⟩ := field
    rw [List.lookup_cons] at h
    simp only [record.sizeOf_spec, List.cons.sizeOf_spec, Prod.mk.sizeOf_spec] at ih ⊢
    split at h
    · cases h
      omega
    · have := ih h
      omega

/-- What is collected from a list comes from one of its members. -/
theorem exists_mem_of_mem_mapM {α β : Type} {f : α → Option β} {l : List α} {bs : List β} {b : β}
    (h : l.mapM f = some bs) (mem : b ∈ bs) : ∃ a ∈ l, f a = some b := by
  induction l generalizing bs with
  | nil =>
    cases h
    cases mem
  | cons a rest ih =>
    simp only [List.mapM_cons, Option.bind_eq_bind, Option.bind_eq_some_iff, Option.pure_def,
      Option.some.injEq] at h
    obtain ⟨first, found, others, collected, rfl⟩ := h
    rcases List.mem_cons.mp mem with rfl | later
    · exact ⟨a, List.mem_cons_self .., found⟩
    · obtain ⟨source, there, read⟩ := ih collected later
      exact ⟨source, List.mem_cons_of_mem _ there, read⟩

/-- Reading each of several values gives back what was written, if it does for every one. -/
theorem mapM_map_eq_some {α β : Type} {write : α → β} {read : β → Option α} {l : List α}
    (h : ∀ a ∈ l, read (write a) = some a) : (l.map write).mapM read = some l := by
  induction l with
  | nil => rfl
  | cons a rest ih =>
    have first := h a (List.mem_cons_self ..)
    have others := ih fun b hb => h b (List.mem_cons_of_mem _ hb)
    rw [List.map_cons, List.mapM_cons, first, others]
    rfl

/-! ## Structures -/

/-- The contents of the named fields of a record, in the order of the names. There may be further
fields. -/
def recordFields? (names : List String) : Data → Option (List Data)
  | record fields => names.mapM fun name => fields.lookup name
  | _ => none

/-- The contents of the named fields of a structure, in the order of the names. A list must be as
long as the names. -/
def fields? (names : List String) : Data → Option (List Data)
  | list items => if items.length = names.length then some items else none
  | d => d.recordFields? names

/-- The contents of a field of a choice with several fields are smaller than the choice. -/
theorem sizeOf_lt_of_mem_recordFields? {name : String} {names : List String} {contents d : Data}
    {cs : List Data} (h : contents.recordFields? names = some cs) (mem : d ∈ cs) :
    sizeOf d < sizeOf (record [(name, contents)]) := by
  have smaller : sizeOf d < sizeOf contents := by
    cases contents with
    | record fields =>
      obtain ⟨key, -, found⟩ := exists_mem_of_mem_mapM h mem
      exact sizeOf_lt_of_lookup found
    | null | boolean _ | integer _ | decimal _ _ | text _ | list _ => cases h
  simp only [record.sizeOf_spec, List.cons.sizeOf_spec, Prod.mk.sizeOf_spec] at smaller ⊢
  omega

/-- The contents of the named fields where they are given. A list gives the first ones and may be
shorter than the names. -/
def givenFields? (names : List String) : Data → Option (List (Option Data))
  | record fields => some (names.map fun name => fields.lookup name)
  | list items =>
    if items.length ≤ names.length then
      some (items.map some ++ List.replicate (names.length - items.length) none)
    else none
  | _ => none

/-- The name of a choice without contents. Contents that are null count as none. -/
def choiceName? : Data → Option String
  | text name => some name
  | record [(name, null)] => some name
  | _ => none

end Data
end ThresholdMask
