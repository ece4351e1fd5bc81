/-!
# Settings of a workload

What a workload is made of: how many triggers of each family, how large they
are, and where the random numbers come from. Numbers are words of 64 bits, and
sums of them wrap around.
-/

namespace Specificity

/-- The settings of a workload. -/
structure Settings where
  /-- What the random numbers start from. -/
  seed : UInt64 := 0
  /-- The number of base predicates. -/
  predicates : UInt64 := 100
  /-- The number of triggers with a base predicate alone. -/
  singletons : UInt64 := 50
  /-- The number of conjunctions. -/
  conjunctions : UInt64 := 100
  /-- The number of disjunctions. -/
  disjunctions : UInt64 := 100
  /-- The number of conjunctions that start with an optional part. -/
  optionals : UInt64 := 100
  /-- The number of quantified conditions. -/
  quantifiers : UInt64 := 100
  /-- The number of negations. -/
  nots : UInt64 := 100
  /-- The least number of operands. -/
  leastOperands : UInt64 := 2
  /-- What the number of operands stays below. -/
  operandLimit : UInt64 := 4
  /-- The largest number of bindings of a quantifier. -/
  mostBindings : UInt64 := 3
  /-- The largest number of quantifiers of a condition. -/
  mostQuantifiers : UInt64 := 3
  /-- Are integer bounds on the same name compared? -/
  orderBounds : Bool := false
  /-- Where to write the graph description to. -/
  dot : Option String := none
  /-- Which lines of the log are wanted. -/
  log : String := "info"
deriving DecidableEq, Inhabited

namespace Settings

/-- The number of triggers a workload adds. -/
def total (s : Settings) : UInt64 :=
  s.singletons + s.conjunctions + s.disjunctions + s.optionals + s.quantifiers + s.nots

/-- **The bounds on the number of operands**: at least one, and the upper bound
above the lower one. -/
def operandRange (s : Settings) : UInt64 × UInt64 :=
  let least := max s.leastOperands 1
  (least, max s.operandLimit (least + 1))

end Settings

end Specificity
