import Specificity.NameMap
import Specificity.Value

/-!
# Memories

A memory is what expressions are evaluated against: an assignment of values
to names. A name that was never set reads as null, and a name that was set to
null still counts as a name of the memory.
-/

namespace Specificity

/-- An assignment of values to names. -/
structure Memory where
  /-- The names that were set, with their values. -/
  values : NameMap Value
deriving DecidableEq, Inhabited

namespace Memory

/-- The memory in which nothing was set. -/
def empty : Memory := ⟨.empty⟩

/-- **The value of a name**, null if it was never set. -/
def get (m : Memory) (name : String) : Value := (m.values.get? name).getD .null

/-- The memory with `name` set to `value`. -/
def set (m : Memory) (name : String) (value : Value) : Memory := ⟨m.values.set name value⟩

/-- The memory that results from setting the listed names in order. -/
def ofList (entries : List (String × Value)) : Memory := ⟨.ofList entries⟩

/-- The number of names that were set. -/
def size (m : Memory) : Nat := m.values.size

/-- Was no name set? -/
def isEmpty (m : Memory) : Bool := m.size == 0

/-- The memory `m` overlaid by `n`: where both set a name, `n` wins. -/
def overlay (m n : Memory) : Memory := ⟨m.values.union n.values⟩

@[simp] theorem get_empty (name : String) : empty.get name = .null := rfl

/-- **Reading after setting.** -/
theorem get_set (m : Memory) (name other : String) (value : Value) :
    (m.set name value).get other = if other = name then value else m.get other := by
  simp only [get, set, NameMap.get?_set]
  split <;> rfl

end Memory

end Specificity
