import Specificity.Clause
import Specificity.Expression.Renaming

/-!
# Quantifiers

A quantifier turns a clause that mentions a variable into clauses about the
names the variable may be bound to. Under *all*, every predicate that mentions
the variable is repeated for each binding within the one clause. Under *any*,
the clause itself is repeated, once for each binding, and each copy records
which binding it is about. What does not mention the variable is not repeated.

Without bindings, *all* holds vacuously and the predicates about the variable
disappear, while *any* cannot hold and a clause about the variable disappears.
-/

namespace Specificity

/-- A quantified variable and the names it may be bound to. -/
structure Quantifier where
  /-- The variable. -/
  subject : String
  /-- Must every binding satisfy the condition, rather than any one? -/
  universal : Bool
  /-- The names the variable may be bound to. -/
  bindings : List String
deriving DecidableEq

namespace Quantifier

/-- The word a quantifier is written with. -/
def word (q : Quantifier) : String := if q.universal then "all" else "any"

/-- The written form of a quantifier. -/
def print (q : Quantifier) : String :=
  q.word ++ " " ++ q.subject ++ " [" ++ ", ".intercalate q.bindings ++ "]"

instance : ToString Quantifier := ⟨print⟩

/-- The predicate for each binding of `x` in turn; only once if it does not
mention `x`. -/
def instances (x : String) (p : Expression) : List String → List Expression
  | [] => []
  | b :: bs =>
    let (p', met) := p.rename x b
    if met then p' :: instances x p bs else [p']

/-- **Universal expansion** of a clause. -/
def expandUniversal (x : String) (bindings : List String) (c : Clause) : Clause :=
  if bindings.isEmpty then
    { c with conjuncts := c.conjuncts.filter fun p => !p.mentions x }
  else
    { c with conjuncts := c.conjuncts.flatMap fun p => instances x p bindings }

/-- The clause for each binding of `x` in turn, recording the binding; only
once, and without a record, if it does not mention `x`. -/
def copies (x : String) (c : Clause) : List String → List Clause
  | [] => []
  | b :: bs =>
    let (conjuncts, met) := Expression.renameAll x b c.conjuncts
    if met then { c with conjuncts }.withBinding x b :: copies x c bs else [{ c with conjuncts }]

/-- **Existential expansion** of a clause. -/
def expandExistential (x : String) (bindings : List String) (c : Clause) : List Clause :=
  if bindings.isEmpty then
    if Expression.mentionsAny x c.conjuncts then [] else [c]
  else copies x c bindings

/-- **Expansion** of a clause by a quantifier. -/
def expand (q : Quantifier) (c : Clause) : List Clause :=
  if q.universal then [expandUniversal q.subject q.bindings c]
  else expandExistential q.subject q.bindings c

end Quantifier

end Specificity
