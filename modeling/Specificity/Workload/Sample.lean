import Specificity.Expression.Text
import Specificity.Quantifier
import Specificity.Workload.Source

/-!
# Random conditions

Samples are random conditions that come with an assignment under which they
hold: comparisons of a name with a number, tests for a value, and conjunctions
and disjunctions of those. Three further families derive from a pool of
samples conditions of which no assignment is known to satisfy them: those that
start with an optional part, quantified ones and negations.
-/

namespace Specificity

/-- A condition and an assignment that goes with it. -/
structure Sample where
  /-- The condition. -/
  expression : Expression
  /-- The assignment. -/
  memory : Memory
  /-- The quantifiers over the condition. -/
  quantifiers : List Quantifier
deriving Inhabited

namespace Sample

/-- A sample without quantifiers. -/
def plain (expression : Expression) (memory : Memory) : Sample := ⟨expression, memory, []⟩

/-- **The assignments of several samples together**; a later one wins. -/
def merge (samples : List Sample) : Memory :=
  samples.foldl (fun m s => m.overlay s.memory) .empty

/-! ## Single predicates -/

/-- The operators of random comparisons. The operator `!=` is left out, since
it holds of every name without a value. -/
def comparisons : List Comparison := [.less, .lessOrEqual, .equal, .greaterOrEqual, .greater]

/-- A number that stands to `value` as the operator asks of it. -/
def limitFor (op : Comparison) (value : Int64) : Int64 :=
  match op with
  | .less => value + 1
  | .greater => value - 1
  | _ => value

/-- **A comparison** of a name with a number. -/
def comparison (name : String) : Draw Sample := do
  let op := (← Draw.oneOf comparisons).getD .equal
  let value : Int64 := .ofInt (Int.ofNat (← Draw.below 2000) - 1000)
  let limit := limitFor op value
  return plain (.compare op (.accessor name) (.constant (.integer limit)))
    (Memory.empty.set name (.integer value))

/-- A text of lower case letters. -/
def letters (length : Nat) : Draw String := do
  let cs ← (List.range length).mapM fun _ => do
    return Char.ofNat ('a'.toNat + (← Draw.below 26))
  return .ofList cs

/-- **A test for a value**: a name is present, or is not equal to null. -/
def presence (name : String) : Draw Sample := do
  if ← Draw.onceIn 2 then
    let value ← Draw.word
    return plain (.present (.accessor name)) (Memory.empty.set name (.integer value.toInt64))
  else
    let value ← letters 5
    return plain (.compare .notEqual (.accessor name) (.constant .null))
      (Memory.empty.set name (.text value))

/-- **Predicates over numbered names**, one for each. -/
def predicates (n : Nat) (stem : String) : Draw (List Sample) :=
  (List.range n).mapM fun i => do
    let name := stem ++ toString i
    if ← Draw.onceIn 2 then comparison name else presence name

/-! ## Compound conditions -/

/-- Between `least` and `limit` members of the pool, or all if there are fewer. -/
def parts (pool : List Sample) (least limit : Nat) : Draw (List Sample) := do
  let count ← Draw.between least limit
  Draw.several count pool

/-- The samples in `parts` as the operands of one condition. -/
def combine (build : List Expression → Expression) (parts : List Sample) : Sample :=
  plain (build (parts.map expression)) (merge parts)

/-- **Conjunctions** of members of the pool. -/
def conjunctions (pool : List Sample) (n least limit : Nat) : Draw (List Sample) :=
  (List.range n).mapM fun _ => do
    return combine .and (← parts pool least limit)

/-- **Disjunctions** of members of the pool. -/
def disjunctions (pool : List Sample) (n least limit : Nat) : Draw (List Sample) :=
  (List.range n).mapM fun _ => do
    return combine .or (← parts pool least limit)

/-- **Conjunctions that start with an optional part**, every fourth of which is
negated. -/
def optionals (pool : List Sample) (n least limit : Nat) : Draw (List Sample) :=
  (List.range n).mapM fun _ => do
    let parts ← parts pool least limit
    let operands : List Expression ←
      match parts.map expression with
      | [] => pure []
      | e :: es =>
        let negated ← Draw.onceIn 4
        pure ((if negated then .not (.optional e) else .optional e) :: es)
    return plain (.and operands) (merge parts)

/-- **Negations** of members of the pool, under the same quantifiers. An empty pool
yields none. -/
def negations (pool : List Sample) (n : Nat) : Draw (List Sample) := do
  if pool.isEmpty then return []
  let chosen ← (List.range n).mapM fun _ => Draw.oneOf pool
  return (chosen.filterMap id).map fun s => ⟨.not s.expression, .empty, s.quantifiers⟩

/-! ## Quantified conditions -/

/-- The names in `all` whose values are of the same kind as `value`. -/
def likeNames (all : Memory) (value : Value) : List String :=
  (all.values.entries.filter fun e => e.2.kind = value.kind).map Prod.fst

/-- `bindings`, joined by up to `count` further names, none twice. -/
def extend (candidates : List String) : Nat → List String → Draw (List String)
  | 0, bindings => return bindings
  | count + 1, bindings => do
    match ← Draw.oneOf candidates with
    | none => extend candidates count bindings
    | some name =>
      extend candidates count (if bindings.contains name then bindings else bindings ++ [name])

/-- `memory` with each of `names` set to `value` unless it is set already. -/
def setMissing (memory : Memory) (names : List String) (value : Value) : Memory :=
  names.foldl
    (fun m name => if (m.values.get? name).isSome then m else m.set name value) memory

/-- One more quantifier over the variable `name`, which has the value `value`. -/
def quantify (all : Memory) (mostBindings : Nat) (s : Sample) (name : String) (value : Value) :
    Draw Sample := do
  let further ← Draw.below (max mostBindings 1)
  let bindings ← extend (likeNames all value) further [name]
  if ← Draw.onceIn 2 then
    let chosen ← Draw.oneOf bindings
    return { s with
      memory := setMissing s.memory chosen.toList value
      quantifiers := s.quantifiers ++ [⟨name, false, bindings⟩] }
  else
    return { s with
      memory := setMissing s.memory bindings value
      quantifiers := s.quantifiers ++ [⟨name, true, bindings⟩] }

/-- **Quantified conditions** from the pool, over some of the names they are
about. A variable ranges over itself and names with values of the same kind. An
empty pool yields none. -/
def quantified (pool : List Sample) (n mostBindings mostQuantifiers : Nat) :
    Draw (List Sample) := do
  if pool.isEmpty then return []
  let all := merge pool
  let made ← (List.range n).mapM fun _ => do
    match ← Draw.oneOf pool with
    | none => return none
    | some base =>
      let wanted := 1 + (← Draw.below (max mostQuantifiers 1))
      let names ← Draw.several wanted base.memory.values.names
      let made ← names.foldlM
        (fun s name => quantify all mostBindings s name (base.memory.get name))
        (plain base.expression .empty)
      return some made
  return made.filterMap id

end Sample

end Specificity
