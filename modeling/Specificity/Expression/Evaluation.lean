import Specificity.Expression
import Specificity.Memory

/-!
# Evaluation

Conjunctions and disjunctions are evaluated from left to right and stop at
the first operand that settles them, so an operand after it is never asked and
cannot fail. An optional part is true without being asked; an ignored part is
what it contains.
-/

namespace Specificity

namespace Expression

mutual

/-- **The value of an expression** in a memory, or why it has none. -/
def eval (m : Memory) : Expression → Except EvalError Value
  | constant v => .ok v
  | accessor x => .ok (m.get x)
  | not e => (eval m e).map fun v => .bool !v.truthy
  | and es => (evalAll m es).map .bool
  | or es => (evalAny m es).map .bool
  | optional _ => .ok (.bool true)
  | ignore e => eval m e
  | present e => (eval m e).map fun v => .bool !v.isNull
  | compare op l r =>
    (eval m l).bind fun left => (eval m r).bind fun right => (op.apply left right).map .bool

/-- Are all of these true? The first one that is not ends the question. -/
def evalAll (m : Memory) : List Expression → Except EvalError Bool
  | [] => .ok true
  | e :: es => (eval m e).bind fun v => if v.truthy then evalAll m es else .ok false

/-- Is one of these true? The first one that is ends the question. -/
def evalAny (m : Memory) : List Expression → Except EvalError Bool
  | [] => .ok false
  | e :: es => (eval m e).bind fun v => if v.truthy then .ok true else evalAny m es

end

/-- Is the value of the expression true? -/
def holds (m : Memory) (e : Expression) : Except EvalError Bool := (e.eval m).map Value.truthy

end Expression

end Specificity
