import Specificity.Clause.Distinct
import Specificity.Clause.NormalForm
import Specificity.Clause.Subsumption
import Specificity.Expression.Negation
import Specificity.Quantifier

/-!
# Triggers

A trigger pairs a condition with an action. Its condition is brought into the
form the tree works with, a list of clauses of which at least one must hold:

* negations are pushed down, and the disjunctive normal form is read off;
* each clause loses its repeated predicates and passes the optimizers;
* the quantifiers expand the clauses, one quantifier after the other;
* repeated predicates and repeated clauses are dropped;
* clauses that a wider clause makes superfluous are marked as subsumed;
* ignored predicates are moved out of the conjunctions.

The clauses that are not subsumed are the *active* ones.
-/

namespace Specificity

/-- The handle of a trigger within one tree; it is never given twice. -/
structure TriggerId where
  /-- How many handles were given before. -/
  index : Nat
deriving DecidableEq, Inhabited

instance : ToString TriggerId := ⟨fun t => "t" ++ toString t.index⟩

/-- A change made to the predicates of freshly generated clauses. A clause that was just
generated consists of nothing else, so this is all there is to see. It is not all that there is
to change: putting a foreign clause in its place, with bindings or an ignored part of its own,
is not covered. -/
abbrev Optimizer := List Expression → List Expression

/-! ## Triggers -/

/-- A condition in clausal form, paired with an action of type `α`. -/
structure Trigger (α : Type) where
  /-- The handle of the trigger. -/
  id : TriggerId
  /-- The condition as it was given. -/
  expression : Expression
  /-- What is to be done when the condition holds. -/
  action : α
  /-- The quantifiers over the condition. -/
  quantifiers : List Quantifier
  /-- The clauses of the condition, the subsumed ones included. -/
  clauses : List Clause

namespace Trigger

variable {α : Type}

/-- **The clauses of a condition.** -/
def clausesOf (cs : Comparers) (optimizers : List Optimizer) (expression : Expression)
    (quantifiers : List Quantifier) : List Clause :=
  let generated := expression.negationNormal.clauses.map fun c =>
    let c := c.distinct .standard
    { c with conjuncts := optimizers.foldl (fun ps optimize => optimize ps) c.conjuncts }
  let expanded := quantifiers.foldl (fun clauses q => clauses.flatMap q.expand) generated
  let distinct := Clause.distinctAll .standard (expanded.map (Clause.distinct .standard))
  (Clause.subsume cs distinct).map Clause.withdrawIgnored

/-- The trigger of a condition and an action. -/
def build (cs : Comparers) (optimizers : List Optimizer) (id : TriggerId)
    (expression : Expression) (action : α) (quantifiers : List Quantifier) : Trigger α :=
  { id, expression, action, quantifiers,
    clauses := clausesOf cs optimizers expression quantifiers }

/-- The clauses that are not subsumed. -/
def active (t : Trigger α) : List Clause := t.clauses.filter fun c => !c.subsumed

/-- The written form of a trigger: its handle and all of its clauses. -/
def print (t : Trigger α) : String :=
  toString t.id ++ ": " ++
    if t.clauses.isEmpty then "<empty>" else " || ".intercalate (t.clauses.map Clause.print)

instance : ToString (Trigger α) := ⟨print⟩

/-! ## How triggers relate -/

/-- The first relationship of `c` to a clause of `ds` by which it is at most as wide. -/
def shelter? (cs : Comparers) (c : Clause) (ds : List Clause) : Option Relationship :=
  ds.findSome? fun d =>
    let r := c.relate cs d
    if r.isCovered then some r else none

/-- How far the clauses `ds` cover all of the clauses `cs`: not at all
(`incomparable`, also if there are none), each by an equal one, or each by one
at least as wide and some by a wider one. The first clause that is not covered
settles it. -/
def coverage (comparers : Comparers) (cs ds : List Clause) : Relationship :=
  match cs.mapM fun c => shelter? comparers c ds with
  | none => .incomparable
  | some shelters =>
    if shelters.isEmpty then .incomparable
    else if shelters.contains .specializes then .specializes
    else .equal

/-- **The relationship of two triggers**: a trigger specializes another one if
each of its active clauses is at most as wide as some active clause of the
other. -/
def relate (cs : Comparers) (t u : Trigger α) : Relationship :=
  let first := coverage cs t.active u.active
  let second := coverage cs u.active t.active
  if first = .equal ∧ second = .equal then .equal
  else if first.isCovered then .specializes
  else if second.isCovered then .generalizes
  else .incomparable

/-- **Does a trigger fire at a node?** One of its active clauses must. -/
def firesAt (cs : Comparers) (m : Memory) (node : Clause) (t : Trigger α) : Bool :=
  t.active.any fun c => c.firesAt cs m node

end Trigger

end Specificity
