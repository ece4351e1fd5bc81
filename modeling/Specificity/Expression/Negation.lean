import Specificity.Expression

/-!
# Negation normal form

Negations are pushed down to the predicates. Under a negation a conjunction
becomes a disjunction and the other way round, a comparison takes the opposite
operator and a truth value flips; the markers for optional and ignored parts
let the negation through to what they mark. What remains negated is a name, a
test for a value, or a constant that is no truth value. Operands of such tests
and of comparisons are values rather than conditions and are left alone.
-/

namespace Specificity

namespace Expression

mutual

/-- The normal form of the expression, or of its negation if `negated`. -/
def nnf (negated : Bool) : Expression → Expression
  | constant (.bool b) => constant (.bool (b != negated))
  | constant v => if negated then not (constant v) else constant v
  | accessor x => if negated then not (accessor x) else accessor x
  | not e => nnf (!negated) e
  | and es => if negated then or (nnfAll negated es) else and (nnfAll negated es)
  | or es => if negated then and (nnfAll negated es) else or (nnfAll negated es)
  | optional e => optional (nnf negated e)
  | ignore e => ignore (nnf negated e)
  | present e => if negated then not (present e) else present e
  | compare op l r => compare (if negated then op.negate else op) l r

/-- The normal forms of a list of expressions. -/
def nnfAll (negated : Bool) : List Expression → List Expression
  | [] => []
  | e :: es => nnf negated e :: nnfAll negated es

end

/-- **Negation normal form.** -/
def negationNormal (e : Expression) : Expression := e.nnf false

theorem nnfAll_eq_map (negated : Bool) (es : List Expression) :
    nnfAll negated es = es.map (nnf negated) := by
  induction es with
  | nil => rfl
  | cons e es ih => rw [nnfAll, ih, List.map_cons]

end Expression

end Specificity
