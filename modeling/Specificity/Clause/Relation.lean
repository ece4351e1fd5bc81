import Specificity.Clause

/-!
# How clauses relate

One clause *covers* another if each of its predicates is at least as wide as
some predicate of the other. Clauses that cover each other are equal, and if
only one covers the other it is the wider. Length has a say as well: clauses of
different lengths are never equal, and the longer is never the wider.

Clauses that are equal so far are told apart by their bindings: the smaller
set of bindings must be part of the larger, and belongs to the narrower clause.
-/

namespace Specificity

namespace Clause

/-- Is each predicate of `c` at least as wide as some predicate of `d`? -/
def coversAll (cs : Comparers) (c d : Clause) : Bool :=
  c.conjuncts.all fun p => d.conjuncts.any fun q => (cs.relate p q).covers

/-- Are all bindings of `c` among those of `d`? -/
def boundWithin (c d : Clause) : Bool :=
  c.bindings.entries.all fun e => d.bindings.get? e.1 == some e.2

/-- The relationship of two clauses by their bindings alone. -/
def relateBindings (c d : Clause) : Relationship :=
  if d.bindings.size < c.bindings.size then
    if d.boundWithin c then .generalizes else .incomparable
  else if c.boundWithin d then
    if c.bindings.size < d.bindings.size then .specializes else .equal
  else .incomparable

/-- The relationship of two clauses by their predicates alone, `c` being at
most as long as `d`. -/
def relatePredicates (cs : Comparers) (c d : Clause) : Relationship :=
  let up := coversAll cs c d
  let down := coversAll cs d c
  if c.size = d.size then
    match up, down with
    | true, true => .equal
    | true, false => .generalizes
    | false, true => .specializes
    | false, false => .incomparable
  else if up then .generalizes
  else .incomparable

/-- The relationship of `c` to `d`, `c` being at most as long as `d`. -/
def relateShorter (cs : Comparers) (c d : Clause) : Relationship :=
  match relatePredicates cs c d with
  | .equal => relateBindings c d
  | r => r

/-- **The relationship of two clauses.** -/
def relate (cs : Comparers) (c d : Clause) : Relationship :=
  if d.size < c.size then (relateShorter cs d c).swap else relateShorter cs c d

/-- **Does a clause of a trigger fire at a node?** The clause must be the one
the node stands for, and its ignored condition must be true. -/
def firesAt (cs : Comparers) (m : Memory) (c node : Clause) : Bool :=
  (c.alike node || c.relate cs node == .equal) &&
    match c.ignored with
    | none => true
    | some e => match e.holds m with
      | .ok b => b
      | .error _ => false

end Clause

end Specificity
