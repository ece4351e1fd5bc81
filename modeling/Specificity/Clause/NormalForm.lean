import Specificity.Clause

/-!
# Disjunctive normal form

A condition in negation normal form is read as a list of clauses of which at
least one must hold. A disjunction lists the clauses of its operands one after
the other; a conjunction combines every clause of one operand with every
clause of the others, those of the first operand changing slowest.
-/

namespace Specificity

/-- The clauses that hold if a clause of `left` and one of `right` do. -/
def Clause.product (left right : List Clause) : List Clause :=
  left.flatMap fun c => right.map fun d => .ofConjuncts (c.conjuncts ++ d.conjuncts)

namespace Expression

mutual

/-- **Disjunctive normal form** of an expression in negation normal form. An
optional part adds an alternative without it. A conjunction with an operand
that has no clause has none. -/
def clauses : Expression → List Clause
  | and es => clausesOfAll es
  | or es => clausesOfAny es
  | optional e => Clause.empty :: clauses e
  | constant (.bool true) => [Clause.empty]
  | constant (.bool false) => []
  | e => [.ofConjuncts [e]]

/-- The clauses of a conjunction. An operand without clauses settles it, so the
operands after that one are not looked at. -/
def clausesOfAll : List Expression → List Clause
  | [] => [Clause.empty]
  | e :: es =>
    match clauses e with
    | [] => []
    | cs => Clause.product cs (clausesOfAll es)

/-- The clauses of a disjunction. -/
def clausesOfAny : List Expression → List Clause
  | [] => []
  | e :: es => clauses e ++ clausesOfAny es

end

theorem clausesOfAll_cons (e : Expression) (es : List Expression) :
    clausesOfAll (e :: es) = Clause.product (clauses e) (clausesOfAll es) := by
  rw [clausesOfAll]
  split
  · next h => rw [h]; rfl
  · rfl

theorem clausesOfAny_eq_flatMap (es : List Expression) : clausesOfAny es = es.flatMap clauses := by
  induction es with
  | nil => rfl
  | cons e es ih => rw [clausesOfAny, ih, List.flatMap_cons]

end Expression

end Specificity
