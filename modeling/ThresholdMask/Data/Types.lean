import ThresholdMask.Data
import ThresholdMask.ValueType

/-!
# Types as data

The type of a leaf is written as its name. The type of an array is a record `Array` of its element
type and size, that of a tuple a record `Tuple` of the types of its sides.
-/

namespace ThresholdMask

/-- The kind with a name. -/
def PublicKind.ofName? (name : String) : Option PublicKind := PublicKind.all.find? (·.name == name)

/-- The kind with a name. -/
def SecretKind.ofName? (name : String) : Option SecretKind := SecretKind.all.find? (·.name == name)

theorem PublicKind.ofName?_name (k : PublicKind) : PublicKind.ofName? k.name = some k := by
  cases k <;> decide

theorem SecretKind.ofName?_name (k : SecretKind) : SecretKind.ofName? k.name = some k := by
  rcases k with (_ | _ | _ | _ | _) | _ <;> decide

theorem PublicKind.ofName?_name_secret (k : SecretKind) : PublicKind.ofName? k.name = none := by
  rcases k with (_ | _ | _ | _ | _) | _ <;> decide

/-- No leaf is named like an array or a tuple. -/
theorem PublicKind.name_ne (k : PublicKind) : k.name ≠ "Array" ∧ k.name ≠ "Tuple" := by
  cases k <;> decide

/-- No leaf is named like an array or a tuple. -/
theorem SecretKind.name_ne (k : SecretKind) : k.name ≠ "Array" ∧ k.name ≠ "Tuple" := by
  rcases k with (_ | _ | _ | _ | _) | _ <;> decide

namespace ValueType

/-- One more than the largest size of an array that can be written. -/
def sizeBound : Nat := UInt64.size

/-- The type of the leaves with a name. -/
def ofLeafName? (name : String) : Option ValueType :=
  match PublicKind.ofName? name with
  | some k => some (.publicLeaf k)
  | none => (SecretKind.ofName? name).map .secretLeaf

/-- Write a type. -/
def encode : ValueType → Data
  | .publicLeaf k => .text k.name
  | .secretLeaf k => .text k.name
  | .array inner size =>
    .record [("Array", .record [("inner_type", inner.encode), ("size", .natural size)])]
  | .tuple left right =>
    .record [("Tuple", .record [("left_type", left.encode), ("right_type", right.encode)])]

/-- Read a type. -/
def decode? : Data → Option ValueType
  | .text name => ofLeafName? name
  | .record [(name, .null)] => ofLeafName? name
  | .record [("Array", contents)] =>
    match _parts : contents.recordFields? ["inner_type", "size"] with
    | some [t, n] => do
      let t ← decode? t
      let n ← n.natural? sizeBound
      return .array t n
    | _ => none
  | .record [("Tuple", contents)] =>
    match _parts : contents.recordFields? ["left_type", "right_type"] with
    | some [l, r] => do
      let l ← decode? l
      let r ← decode? r
      return .tuple l r
    | _ => none
  | _ => none
termination_by d => sizeOf d
decreasing_by
  all_goals exact Data.sizeOf_lt_of_mem_recordFields? _parts (by simp)

instance : DataForm ValueType := ⟨encode, decode?⟩

/-! ## Reading undoes writing -/

theorem decode?_array {contents t n : Data}
    (h : contents.recordFields? ["inner_type", "size"] = some [t, n]) :
    decode? (.record [("Array", contents)]) = do
      return .array (← decode? t) (← n.natural? sizeBound) := by
  rw [decode?]
  split
  · rename_i first second parts
    obtain ⟨rfl, rfl⟩ : first = t ∧ second = n := by simpa using parts.symm.trans h
    rfl
  · rename_i other
    exact absurd h (other t n)
  · rintro rfl
    cases h

theorem decode?_tuple {contents l r : Data}
    (h : contents.recordFields? ["left_type", "right_type"] = some [l, r]) :
    decode? (.record [("Tuple", contents)]) = do
      return .tuple (← decode? l) (← decode? r) := by
  rw [decode?]
  split
  · rename_i first second parts
    obtain ⟨rfl, rfl⟩ : first = l ∧ second = r := by simpa using parts.symm.trans h
    rfl
  · rename_i other
    exact absurd h (other l r)
  · rintro rfl
    cases h

/-- Every array size in the type can be written. -/
def Writable : ValueType → Prop
  | .publicLeaf _ | .secretLeaf _ => True
  | .array inner size => inner.Writable ∧ size < sizeBound
  | .tuple left right => left.Writable ∧ right.Writable

theorem decode?_encode (t : ValueType) (h : t.Writable) : decode? t.encode = some t := by
  induction t with
  | publicLeaf k => simp [encode, decode?, ofLeafName?, PublicKind.ofName?_name]
  | secretLeaf k =>
    simp [encode, decode?, ofLeafName?, PublicKind.ofName?_name_secret, SecretKind.ofName?_name]
  | array inner size ih =>
    rw [encode, decode?_array rfl, ih h.1, Data.natural?_natural h.2]
    rfl
  | tuple left right ihl ihr =>
    rw [encode, decode?_tuple rfl, ihl h.1, ihr h.2]
    rfl

end ValueType
end ThresholdMask
