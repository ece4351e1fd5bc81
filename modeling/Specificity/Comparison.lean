import Specificity.Value

/-!
# Comparisons

The six comparison operators. Equality and its negation apply to any two
values; the four others need two values of one ordered kind and fail on any
other pair.
-/

namespace Specificity

/-- A comparison operator. -/
inductive Comparison where
  /-- `==` -/
  | equal
  /-- `!=` -/
  | notEqual
  /-- `<` -/
  | less
  /-- `<=` -/
  | lessOrEqual
  /-- `>` -/
  | greater
  /-- `>=` -/
  | greaterOrEqual
deriving DecidableEq

/-- Why an expression has no value. -/
inductive EvalError where
  /-- An ordering operator met values of kinds that have no common order. -/
  | typeMismatch (op : Comparison) (left right : Value.Kind)
deriving DecidableEq

namespace Comparison

/-- All operators, in their customary order. -/
def all : List Comparison :=
  [equal, notEqual, less, lessOrEqual, greater, greaterOrEqual]

/-- The sign of an operator. -/
def symbol : Comparison → String
  | equal => "=="
  | notEqual => "!="
  | less => "<"
  | lessOrEqual => "<="
  | greater => ">"
  | greaterOrEqual => ">="

instance : ToString Comparison := ⟨symbol⟩

/-- **The opposite operator**: it holds of two values exactly when this one,
applied to the same values, does not. -/
def negate : Comparison → Comparison
  | equal => notEqual
  | notEqual => equal
  | less => greaterOrEqual
  | lessOrEqual => greater
  | greater => lessOrEqual
  | greaterOrEqual => less

/-- Does the operator ask for an order, rather than for equality? -/
def isOrdering : Comparison → Bool
  | equal | notEqual => false
  | _ => true

/-- Does the operator hold of two values that stand in the given order? -/
def admits : Comparison → Ordering → Bool
  | equal, o => o == .eq
  | notEqual, o => o != .eq
  | less, o => o == .lt
  | lessOrEqual, o => o != .gt
  | greater, o => o == .gt
  | greaterOrEqual, o => o != .lt

/-- **Comparing two values.** Equality is decided for all values; an ordering
operator fails if the values have no common order. -/
def apply (op : Comparison) (left right : Value) : Except EvalError Bool :=
  match op with
  | equal => .ok (left == right)
  | notEqual => .ok (left != right)
  | _ =>
    match left.order? right with
    | some o => .ok (op.admits o)
    | none => .error (.typeMismatch op left.kind right.kind)

end Comparison

/-- The message of an evaluation error. -/
def EvalError.message : EvalError → String
  | typeMismatch op left right =>
    s!"Evaluation error: cannot compare {left} with {right} using '{op}'"

end Specificity
