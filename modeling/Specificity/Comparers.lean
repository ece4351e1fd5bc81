import Specificity.Expression.Likeness
import Specificity.Relationship

/-!
# Comparers

How two predicates relate is a matter of the domain, so it is left to
*comparers*, one for each kind of predicate. Where no comparer is registered,
or the two predicates are of different kinds, they are equal if they are alike
and incomparable otherwise. Two negations are compared through what they
negate, with the answer turned round: the negation of the narrower condition
is the wider one.

The only comparer of the library itself is `integerBounds`, which orders
integer bounds on one name.
-/

namespace Specificity

/-- A judgement on two predicates of one kind. -/
abbrev Comparer := Expression → Expression → Relationship

namespace Comparer

/-- Predicates are equal if alike, and incomparable otherwise. -/
def byLikeness : Comparer := fun p q => if p.alike q then .equal else .incomparable

/-! ## Integer bounds -/

/-- A predicate of the form: name, operator, integer. -/
structure Bound where
  /-- The operator between the name and the integer. -/
  op : Comparison
  /-- The name that is bounded. -/
  name : String
  /-- The integer that bounds it. -/
  limit : Int64
deriving DecidableEq

/-- The bound that a predicate states, if it is one. -/
def bound? : Expression → Option Bound
  | .compare op (.accessor name) (.constant (.integer limit)) => some ⟨op, name, limit⟩
  | _ => none

/-- The relationship of `x op a` to `x op b`: the tighter bound specializes
the looser one. A lower bound is the tighter the larger it is, an upper bound
the tighter the smaller it is. -/
def ofLimits (op : Comparison) (a b : Int64) : Relationship :=
  let tightness :=
    match op with
    | .greater | .greaterOrEqual => compare a b
    | _ => compare b a
  match tightness with
  | .eq => .equal
  | .gt => .specializes
  | .lt => .generalizes

/-- **The comparer of integer bounds**: bounds on the same name under the same
ordering operator are compared by their limits, all else by likeness. -/
def integerBounds : Comparer := fun p q =>
  match bound? p, bound? q with
  | some a, some b =>
    if a.op = b.op ∧ a.name = b.name ∧ a.op.isOrdering then ofLimits a.op a.limit b.limit
    else byLikeness p q
  | _, _ => byLikeness p q

end Comparer

/-- A registry of comparers: at most one for each kind of predicate. -/
structure Comparers where
  /-- The comparer registered for a kind. -/
  find? : Expression.Kind → Option Comparer

namespace Comparers

/-- The registry without comparers. -/
def empty : Comparers := ⟨fun _ => none⟩

instance : Inhabited Comparers := ⟨empty⟩

/-- The registry with `comparer` in charge of `kind`, whichever was before. -/
def register (cs : Comparers) (kind : Expression.Kind) (comparer : Comparer) : Comparers :=
  ⟨fun k => if k = kind then some comparer else cs.find? k⟩

/-- The registry with the comparer of integer bounds in charge of all ordering
operators. -/
def registerBounds (cs : Comparers) : Comparers :=
  [Comparison.less, .lessOrEqual, .greater, .greaterOrEqual].foldl
    (fun cs op => cs.register (.compare op) .integerBounds) cs

/-- The kinds that have a comparer, in their customary order. -/
def kinds (cs : Comparers) : List Expression.Kind :=
  Expression.Kind.all.filter fun k => (cs.find? k).isSome

/-- The number of kinds that have a comparer. -/
def size (cs : Comparers) : Nat := cs.kinds.length

/-- A summary of the registry: the kinds that have a comparer. -/
def summary (cs : Comparers) : String :=
  "Comparers \x7b types: [" ++ ", ".intercalate (cs.kinds.map Expression.Kind.name) ++ "] \x7d"

/-- The relationship of two predicates that are not both negations. -/
def relateAtoms (cs : Comparers) (p q : Expression) : Relationship :=
  if p.kind = q.kind then
    match cs.find? p.kind with
    | some comparer => comparer p q
    | none => Comparer.byLikeness p q
  else Comparer.byLikeness p q

/-- **The relationship of two predicates.** -/
def relate (cs : Comparers) : Expression → Expression → Relationship
  | .not p, .not q => (relate cs p q).swap
  | p, q => cs.relateAtoms p q

end Comparers

end Specificity
