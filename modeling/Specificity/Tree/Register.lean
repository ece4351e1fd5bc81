import Specificity.Trigger

/-!
# Registers of triggers

The triggers of a tree by their handles. Handles are given in ascending order
and never again, so the register only grows; a trigger that is struck off
leaves its entry empty.
-/

namespace Specificity

/-- Triggers by handle. -/
structure Register (α : Type) where
  /-- An entry for every handle ever given. -/
  slots : Array (Option (Trigger α))
deriving Inhabited

namespace Register

variable {α : Type}

/-- The register without entries. -/
def empty : Register α := ⟨#[]⟩

/-- The trigger with a handle, unless it was struck off. -/
def get? (r : Register α) (id : TriggerId) : Option (Trigger α) := (r.slots[id.index]?).join

/-- The handle that will be given next. -/
def nextId (r : Register α) : TriggerId := ⟨r.slots.size⟩

/-- The register with one more entry. -/
def push (r : Register α) (t : Trigger α) : Register α := ⟨r.slots.push (some t)⟩

/-- The register with a trigger struck off. -/
def erase (r : Register α) (id : TriggerId) : Register α :=
  ⟨r.slots.setIfInBounds id.index none⟩

/-- The triggers, in the order of their handles. -/
def live (r : Register α) : List (Trigger α) := r.slots.toList.filterMap id

/-- The relationship of two triggers given by their handles. -/
def relate (cs : Comparers) (r : Register α) (a b : TriggerId) : Relationship :=
  match r.get? a, r.get? b with
  | some t, some u => t.relate cs u
  | _, _ => .incomparable

/-! ## What the operations do to an entry -/

theorem get?_push (r : Register α) (t : Trigger α) (id : TriggerId) :
    (r.push t).get? id = if id = r.nextId then some t else r.get? id := by
  obtain ⟨i⟩ := id
  simp only [get?, push, nextId, Array.getElem?_push, TriggerId.mk.injEq]
  split <;> rfl

theorem get?_erase (r : Register α) (id other : TriggerId) :
    (r.erase id).get? other = if other = id then none else r.get? other := by
  obtain ⟨i⟩ := id
  obtain ⟨j⟩ := other
  simp only [get?, erase, Array.getElem?_setIfInBounds, TriggerId.mk.injEq]
  by_cases h : i = j
  · subst h
    simp only [if_true]
    split <;> rfl
  · simp [h, Ne.symm h]

end Register

end Specificity
