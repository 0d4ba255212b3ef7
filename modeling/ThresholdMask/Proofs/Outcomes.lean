import Mathlib
import ThresholdMask.NamedValues

/-!
# Successful outcomes

What it means that a computation which may fail has succeeded, read off the way it is put together:
every step of it has succeeded. These equivalences let the theory state what a successful call
establishes without following the errors that it did not meet.

The last sections are about lists of entries under distinct keys.
-/

namespace ThresholdMask

variable {ε ε' α β : Type}

theorem bind_eq_ok {x : Except ε α} {f : α → Except ε β} {b : β} :
    (x >>= f) = .ok b ↔ ∃ a, x = .ok a ∧ f a = .ok b := by
  cases x <;> simp [bind, Except.bind]

/-- A check before a computation only has to succeed. -/
theorem check_bind_eq_ok {check : Except ε Unit} {f : Unit → Except ε β} {b : β} :
    (check >>= f) = .ok b ↔ check = .ok () ∧ f () = .ok b := by
  rw [bind_eq_ok]
  exact ⟨fun ⟨(), passed, rest⟩ => ⟨passed, rest⟩, fun ⟨passed, rest⟩ => ⟨(), passed, rest⟩⟩

theorem pure_eq_ok {a b : α} : (pure a : Except ε α) = .ok b ↔ a = b := by
  simp [pure, Except.pure]

theorem map_eq_ok {x : Except ε α} {f : α → β} {b : β} :
    x.map f = .ok b ↔ ∃ a, x = .ok a ∧ f a = b := by
  cases x <;> simp [Except.map]

theorem map_eq_error {x : Except ε α} {f : α → β} {e : ε} : x.map f = .error e ↔ x = .error e := by
  cases x <;> simp [Except.map]

theorem mapError_eq_ok {x : Except ε α} {f : ε → ε'} {a : α} :
    x.mapError f = .ok a ↔ x = .ok a := by
  cases x <;> simp [Except.mapError]

theorem ite_error_eq_ok {p : Prop} [Decidable p] {x : Except ε α} {e : ε} {a : α} :
    (if p then x else .error e) = .ok a ↔ p ∧ x = .ok a := by
  by_cases h : p <;> simp [h]

theorem error_ite_eq_ok {p : Prop} [Decidable p] {x : Except ε α} {e : ε} {a : α} :
    (if p then .error e else x) = .ok a ↔ ¬p ∧ x = .ok a := by
  by_cases h : p <;> simp [h]

/-- An early exit before the rest of a block. -/
theorem throw_ite_eq_ok {p : Prop} [Decidable p] {x : Except ε α} {e : ε} {f : β → Except ε α}
    {a : α} : (if p then throw e >>= f else x) = .ok a ↔ ¬p ∧ x = .ok a :=
  error_ite_eq_ok

theorem forM_eq_ok {l : List α} {check : α → Except ε Unit} :
    l.forM check = .ok () ↔ ∀ a ∈ l, check a = .ok () := by
  induction l with
  | nil => simp [List.forM, pure, Except.pure]
  | cons a rest ih =>
    rw [List.forall_mem_cons, ← ih]
    exact check_bind_eq_ok

theorem forM_congr {l : List α} {check check' : α → Except ε Unit}
    (same : ∀ a ∈ l, check a = check' a) : l.forM check = l.forM check' := by
  induction l with
  | nil => rfl
  | cons a rest ih =>
    rw [List.forall_mem_cons] at same
    show check a >>= (fun _ => rest.forM check) = check' a >>= fun _ => rest.forM check'
    rw [same.1, ih same.2]

/-- Of the members of a list that fail a check, the first one is reported. -/
theorem forM_check_eq {p : α → Prop} [DecidablePred p] {fault : α → ε} (l : List α) :
    (l.forM fun a => if p a then .ok () else .error (fault a) : Except ε Unit) =
      match l.find? fun a => !decide (p a) with
      | none => .ok ()
      | some a => .error (fault a) := by
  induction l with
  | nil => rfl
  | cons a rest ih =>
    show (if p a then Except.ok () else Except.error (fault a)) >>=
      (fun _ => rest.forM _) = _
    by_cases passed : p a
    · rw [if_pos passed, List.find?_cons_of_neg (by simpa using passed), ← ih]
      rfl
    · rw [if_neg passed, List.find?_cons_of_pos (by simpa using passed)]
      rfl

theorem mapM_congr {l : List α} {f g : α → Except ε β} (same : ∀ a ∈ l, f a = g a) :
    l.mapM f = l.mapM g := by
  induction l with
  | nil => rfl
  | cons a rest ih =>
    rw [List.forall_mem_cons] at same
    rw [List.mapM_cons, List.mapM_cons, same.1, ih same.2]

theorem mapM_eq_ok {l : List α} {f : α → Except ε β} {bs : List β} :
    l.mapM f = .ok bs ↔ List.Forall₂ (fun a b => f a = .ok b) l bs := by
  induction l generalizing bs with
  | nil =>
    rw [List.mapM_nil, pure_eq_ok, List.forall₂_nil_left_iff]
    exact eq_comm
  | cons a rest ih =>
    rw [List.mapM_cons, bind_eq_ok, List.forall₂_cons_left_iff]
    constructor
    · rintro ⟨b, first, others⟩
      obtain ⟨bs', others, same⟩ := bind_eq_ok.mp others
      exact ⟨b, bs', first, ih.mp others, (pure_eq_ok.mp same).symm⟩
    · rintro ⟨b, bs', first, others, rfl⟩
      exact ⟨b, first, bind_eq_ok.mpr ⟨bs', ih.mpr others, rfl⟩⟩

/-! ## Look-ups -/

theorem lookup_cons_eq_ite [DecidableEq α] (e : α × β) (entries : List (α × β)) (a : α) :
    (e :: entries).lookup a = if a = e.1 then some e.2 else entries.lookup a := by
  rw [List.lookup_cons]
  by_cases same : a = e.1
  · rw [if_pos same, same, beq_self_eq_true]
  · rw [if_neg same, beq_false_of_ne same]

theorem lookup_eq_some_iff_mem [DecidableEq α] {entries : List (α × β)}
    (nodup : (entries.map (·.1)).Nodup) {a : α} {b : β} :
    entries.lookup a = some b ↔ (a, b) ∈ entries := by
  induction entries with
  | nil => simp
  | cons e rest ih =>
    rw [List.map_cons, List.nodup_cons] at nodup
    rw [lookup_cons_eq_ite, List.mem_cons]
    by_cases same : a = e.1
    · have absent : (a, b) ∉ rest := fun there =>
        nodup.1 (same ▸ List.mem_map_of_mem (f := (·.1)) there)
      rw [if_pos same, Option.some.injEq]
      constructor
      · rintro rfl
        exact .inl (Prod.ext same rfl)
      · rintro (here | there)
        · rw [← here]
        · exact absurd there absent
    · rw [if_neg same, ih nodup.2]
      exact ⟨.inr, fun h => h.resolve_left fun here => same (congrArg Prod.fst here)⟩

/-- Entries that a partial function keeps, each under its own key, keep their order. -/
theorem filterMap_sublist_map {f : α → β} {g : α → Option β}
    (keep : ∀ a b, g a = some b → f a = b) (l : List α) : (l.filterMap g).Sublist (l.map f) := by
  induction l with
  | nil => exact List.Sublist.refl _
  | cons a rest ih =>
    rw [List.map_cons]
    cases kept : g a with
    | none =>
      rw [List.filterMap_cons_none kept]
      exact ih.cons _
    | some b =>
      rw [List.filterMap_cons_some kept, keep a b kept]
      exact ih.cons_cons _

/-! ## Entries under names -/

theorem NamedValues.mem_toList_iff {values : NamedValues α} {name : String} {a : α} :
    (name, a) ∈ values.toList ↔ values.get? name = some a := by
  rw [NamedValues.get?_eq]
  exact (lookup_eq_some_iff_mem values.nodup_names).symm

theorem NamedValues.exists_get? {values : NamedValues α} {name : String} :
    (∃ a, values.get? name = some a) ↔ name ∈ values.names := by
  simp only [← mem_toList_iff, names, List.mem_map]
  constructor
  · rintro ⟨a, member⟩
    exact ⟨_, member, rfl⟩
  · rintro ⟨e, member, rfl⟩
    exact ⟨e.2, member⟩

theorem NamedValues.eq_ok_of_toList {ε : Type} {x : Except ε (NamedValues α)}
    {values : NamedValues α} (h : x.map toList = .ok values.toList) : x = .ok values := by
  obtain ⟨same, rfl, entries⟩ := map_eq_ok.mp h
  rw [NamedValues.ext entries]

/-- Entries are related one by one if they have the same names in the same order and the values
under the same name are related. -/
theorem forall₂_entries_iff {S : String × α → String × β → Prop} {R : String → α → β → Prop}
    {l : List (String × α)} {l' : List (String × β)} (nodup : (l.map (·.1)).Nodup)
    (related : ∀ e ∈ l, ∀ e', S e e' ↔ e.1 = e'.1 ∧ R e.1 e.2 e'.2) :
    List.Forall₂ S l l' ↔ l.map (·.1) = l'.map (·.1) ∧
      ∀ name a b, (name, a) ∈ l → (name, b) ∈ l' → R name a b := by
  induction l generalizing l' with
  | nil => cases l' <;> simp
  | cons e rest ih =>
    rw [List.map_cons, List.nodup_cons] at nodup
    rw [List.forall_mem_cons] at related
    cases l' with
    | nil => simp
    | cons e' rest' =>
      rw [List.forall₂_cons, related.1, ih nodup.2 related.2, List.map_cons, List.map_cons,
        List.cons.injEq]
      constructor
      · rintro ⟨⟨sameName, first⟩, names, others⟩
        refine ⟨⟨sameName, names⟩, ?_⟩
        intro name a b left right
        -- a name at the head of one list cannot come again further down in the other
        rcases List.mem_cons.mp left with rfl | left <;>
          rcases List.mem_cons.mp right with rfl | right
        · exact first
        · exact absurd (names ▸ List.mem_map_of_mem (f := (·.1)) right) nodup.1
        · exact absurd (sameName ▸ List.mem_map_of_mem (f := (·.1)) left) nodup.1
        · exact others name a b left right
      · rintro ⟨⟨sameName, names⟩, each⟩
        have first := each e.1 e.2 e'.2 List.mem_cons_self (sameName ▸ List.mem_cons_self)
        exact ⟨⟨sameName, first⟩, names, fun name a b left right =>
          each name a b (List.mem_cons_of_mem _ left) (List.mem_cons_of_mem _ right)⟩

end ThresholdMask
