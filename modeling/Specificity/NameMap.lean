/-!
# Maps from names

A finite map whose keys are names, kept as the list of its entries in
ascending order of name. That the names ascend strictly is part of the type.
A name therefore has one entry at most, the number of entries is the number
of names, and two maps with the same answers are the same list, so equality of
maps is equality of what they say. Names are ordered by code point.
-/

namespace Specificity

variable {α : Type}

/-- A finite map from names to values of type `α`. -/
structure NameMap (α : Type) where
  /-- The entries, by ascending name. -/
  entries : List (String × α)
  /-- The names ascend strictly. -/
  sorted : entries.Pairwise (fun a b => a.1 < b.1)

namespace NameMap

instance [DecidableEq α] : DecidableEq (NameMap α)
  | ⟨xs, _⟩, ⟨ys, _⟩ =>
    if h : xs = ys then isTrue (by subst h; rfl)
    else isFalse (fun e => h (congrArg entries e))

/-! ## Entry lists -/

/-- The ascending list `es` with the entry of `name` set to `value`. -/
def setEntry (name : String) (value : α) : List (String × α) → List (String × α)
  | [] => [(name, value)]
  | e :: es =>
    if name < e.1 then (name, value) :: e :: es
    else if name = e.1 then (name, value) :: es
    else e :: setEntry name value es

theorem mem_setEntry {name : String} {value : α} {e : String × α} {es : List (String × α)}
    (h : e ∈ setEntry name value es) : e = (name, value) ∨ e ∈ es := by
  induction es with
  | nil => simpa [setEntry] using h
  | cons d ds ih =>
    simp only [setEntry] at h
    split at h
    · simpa using h
    · split at h
      · rcases List.mem_cons.1 h with h | h
        · exact .inl h
        · exact .inr (List.mem_cons_of_mem _ h)
      · rcases List.mem_cons.1 h with h | h
        · exact .inr (h ▸ List.mem_cons_self)
        · exact (ih h).imp id (List.mem_cons_of_mem _)

/-- **Setting an entry keeps the order.** -/
theorem sorted_setEntry (name : String) (value : α) {es : List (String × α)}
    (h : es.Pairwise (fun a b => a.1 < b.1)) :
    (setEntry name value es).Pairwise (fun a b => a.1 < b.1) := by
  induction es with
  | nil => simp [setEntry]
  | cons d ds ih =>
    obtain ⟨hd, hds⟩ := List.pairwise_cons.1 h
    simp only [setEntry]
    split
    · next hlt =>
      refine List.pairwise_cons.2 ⟨fun e he => ?_, h⟩
      rcases List.mem_cons.1 he with rfl | he
      · exact hlt
      · exact String.lt_trans hlt (hd e he)
    · next hlt =>
      split
      · next heq => exact List.pairwise_cons.2 ⟨fun e he => heq ▸ hd e he, hds⟩
      · next hne =>
        refine List.pairwise_cons.2 ⟨fun e he => ?_, ih hds⟩
        rcases mem_setEntry he with rfl | he
        · exact Decidable.byContradiction fun hge =>
            hne (String.le_antisymm (String.not_lt.1 hge) (String.not_lt.1 hlt))
        · exact hd e he

/-! ## Maps -/

/-- The map without entries. -/
def empty : NameMap α := ⟨[], .nil⟩

instance : Inhabited (NameMap α) := ⟨empty⟩

/-- The value of a name, if it has one. -/
def get? (m : NameMap α) (name : String) : Option α := m.entries.lookup name

/-- The map with `name` set to `value`, whatever it was before. -/
def set (m : NameMap α) (name : String) (value : α) : NameMap α :=
  ⟨setEntry name value m.entries, sorted_setEntry name value m.sorted⟩

/-- The number of names. -/
def size (m : NameMap α) : Nat := m.entries.length

/-- The names, ascending. -/
def names (m : NameMap α) : List String := m.entries.map Prod.fst

/-- The map with all of `entries` set in order, so that a later entry wins. -/
def setAll (m : NameMap α) (entries : List (String × α)) : NameMap α :=
  entries.foldl (fun m e => m.set e.1 e.2) m

/-- The map of a list of entries, of which a later one wins. -/
def ofList (entries : List (String × α)) : NameMap α := empty.setAll entries

/-- The union of two maps; where both know a name the second wins. -/
def union (m n : NameMap α) : NameMap α := m.setAll n.entries

@[simp] theorem get?_empty (name : String) : (empty : NameMap α).get? name = none := rfl

theorem lookup_cons_eq_ite (name : String) (e : String × α) (es : List (String × α)) :
    (e :: es).lookup name = if name = e.1 then some e.2 else es.lookup name := by
  obtain ⟨k, v⟩ := e
  by_cases h : name = k
  · simp [h]
  · simp [List.lookup_cons, beq_false_of_ne h, h]

/-- **Reading after setting.** -/
theorem get?_set (m : NameMap α) (name other : String) (value : α) :
    (m.set name value).get? other = if other = name then some value else m.get? other := by
  simp only [get?, set]
  induction m.entries with
  | nil => simp only [setEntry, lookup_cons_eq_ite]
  | cons d ds ih =>
    simp only [setEntry]
    split
    · simp only [lookup_cons_eq_ite]
    · split
      · next heq => simp only [lookup_cons_eq_ite, ← heq]; split <;> rfl
      · next hne =>
        simp only [lookup_cons_eq_ite, ih]
        by_cases h : other = d.1
        · simp [h, Ne.symm hne]
        · simp [h]

end NameMap

end Specificity
