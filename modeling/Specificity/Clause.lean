import Specificity.Comparers
import Specificity.Expression.Evaluation
import Specificity.Expression.Text
import Specificity.Fingerprint

/-!
# Clauses

A clause is a conjunction of predicates. It also records which name was bound
to each quantified variable on the way to it, and may carry a condition that
is *ignored* when clauses are compared and asked only when one fires. A clause
of a trigger that a wider clause of the same trigger makes superfluous is
marked as *subsumed*.
-/

namespace Specificity

/-- A conjunction of predicates. -/
structure Clause where
  /-- The predicates. -/
  conjuncts : List Expression
  /-- The names that quantified variables were bound to. -/
  bindings : NameMap String
  /-- The condition asked only when the clause fires. -/
  ignored : Option Expression
  /-- Does a wider clause make this one superfluous? -/
  subsumed : Bool
deriving DecidableEq

namespace Clause

/-- The clause of the given predicates, with nothing bound or ignored. -/
def ofConjuncts (conjuncts : List Expression) : Clause := ⟨conjuncts, .empty, none, false⟩

/-- **The empty clause**, which always holds. -/
def empty : Clause := ofConjuncts []

instance : Inhabited Clause := ⟨empty⟩

/-- The number of predicates. -/
def size (c : Clause) : Nat := c.conjuncts.length

/-- Are there no predicates? -/
def isEmpty (c : Clause) : Bool := c.conjuncts.isEmpty

/-- The predicates and bindings alone, as a node of a tree keeps them. -/
def core (c : Clause) : Clause := { c with ignored := none, subsumed := false }

/-- The clause with a quantified variable bound to a name. -/
def withBinding (c : Clause) (variableName binding : String) : Clause :=
  { c with bindings := c.bindings.set variableName binding }

/-- **Does the clause hold?** Its predicates are asked in order, up to the
first that is not true; the ignored condition is not asked. -/
def eval (m : Memory) (c : Clause) : Except EvalError Bool := Expression.evalAll m c.conjuncts

/-- **Likeness of clauses**: the same bindings and the same bag of predicates. -/
def alike (c d : Clause) : Bool :=
  decide (c.bindings = d.bindings) && Expression.sameBag c.conjuncts d.conjuncts

/-- **The fingerprint of a clause**: alike clauses have equal ones. -/
def fingerprint (digest : Digest) (c : Clause) : UInt64 :=
  digest (.clause (digest.ofBag (.name "clause") (digest.ofAll c.conjuncts)) c.bindings)

/-- **The written form of a clause**: an asterisk if it is subsumed, the
predicates in brackets, then the ignored condition and the bindings. -/
def print (c : Clause) : String :=
  let mark := if c.subsumed then "*" else ""
  let body := "(" ++ " && ".intercalate (c.conjuncts.map Expression.print) ++ ")"
  let ignored :=
    match c.ignored with
    | some e => " ignored(" ++ e.print ++ ")"
    | none => ""
  let bindings := c.bindings.entries.map fun e => " " ++ e.1 ++ "->" ++ e.2
  mark ++ body ++ ignored ++ String.join bindings

instance : ToString Clause := ⟨print⟩

/-- The clause with its ignored predicates moved out of the conjunction: one
alone becomes the ignored condition, several become it together. -/
def withdrawIgnored (c : Clause) : Clause :=
  let ignored := c.conjuncts.filterMap fun
    | .ignore e => some e
    | _ => none
  { c with
    conjuncts := c.conjuncts.filter fun e => e.kind ≠ .ignore
    ignored :=
      match ignored with
      | [] => none
      | [e] => some e
      | es => some (.and es) }

end Clause

end Specificity
