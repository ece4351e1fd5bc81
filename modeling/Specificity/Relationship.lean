/-!
# Relationships

How one condition stands to another. A condition *specializes* another one if
it is the narrower of the two – whatever satisfies it satisfies the other –
and *generalizes* it if it is the wider.
-/

namespace Specificity

/-- How one condition stands to another. -/
inductive Relationship where
  /-- The two conditions say the same. -/
  | equal
  /-- The first is narrower. -/
  | specializes
  /-- The first is wider. -/
  | generalizes
  /-- Neither is known to be narrower. -/
  | incomparable
deriving DecidableEq

namespace Relationship

/-- The four relationships, in their customary order. -/
def all : List Relationship := [equal, specializes, generalizes, incomparable]

/-- The name of a relationship. -/
def name : Relationship → String
  | equal => "Equal"
  | specializes => "Specializes"
  | generalizes => "Generalizes"
  | incomparable => "Incomparable"

instance : ToString Relationship := ⟨name⟩

/-- **The relationship seen from the other side.** -/
def swap : Relationship → Relationship
  | equal => equal
  | specializes => generalizes
  | generalizes => specializes
  | incomparable => incomparable

/-- The relationship, seen from the other side if `swapped`. -/
def swapWhen (r : Relationship) (swapped : Bool) : Relationship := if swapped then r.swap else r

/-- Is the first condition at least as wide as the second? -/
def covers : Relationship → Bool
  | equal | generalizes => true
  | specializes | incomparable => false

/-- Is the first condition at least as narrow as the second? -/
def isCovered : Relationship → Bool
  | equal | specializes => true
  | generalizes | incomparable => false

@[simp] theorem swap_swap (r : Relationship) : r.swap.swap = r := by cases r <;> rfl

@[simp] theorem covers_swap (r : Relationship) : r.swap.covers = r.isCovered := by cases r <;> rfl

@[simp] theorem isCovered_swap (r : Relationship) : r.swap.isCovered = r.covers := by
  cases r <;> rfl

end Relationship

end Specificity
