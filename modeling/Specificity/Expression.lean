import Specificity.Comparison

/-!
# Expressions

A condition over the names of a memory. Two markers have no meaning of their
own to an evaluator but steer how a condition is filed and fired: an
*optional* part may hold or not, and an *ignored* part is left out when
conditions are compared with each other and is only asked at the moment of
firing.

Equality of expressions (`=`) is strict; `Expression.alike`, elsewhere, is
equality up to the order of conjuncts and disjuncts.
-/

namespace Specificity

/-- A condition over the names of a memory. -/
inductive Expression where
  /-- A fixed value. -/
  | constant (value : Value)
  /-- The value of a name. -/
  | accessor (name : String)
  /-- Negation. -/
  | not (operand : Expression)
  /-- Conjunction, read from left to right. -/
  | and (operands : List Expression)
  /-- Disjunction, read from left to right. -/
  | or (operands : List Expression)
  /-- A part that may hold or not. -/
  | optional (operand : Expression)
  /-- A part that is asked only when firing. -/
  | ignore (operand : Expression)
  /-- Is the value of the operand other than null? -/
  | present (operand : Expression)
  /-- A comparison of two values. -/
  | compare (op : Comparison) (left right : Expression)

namespace Expression

instance : Inhabited Expression := ⟨.constant .null⟩

/-! ## Kinds -/

/-- The kinds of expression; comparisons are told apart by their operator. -/
inductive Kind where
  /-- Fixed values. -/
  | constant
  /-- Names. -/
  | accessor
  /-- Negations. -/
  | not
  /-- Conjunctions. -/
  | and
  /-- Disjunctions. -/
  | or
  /-- Optional parts. -/
  | optional
  /-- Ignored parts. -/
  | ignore
  /-- Tests for a value. -/
  | present
  /-- Comparisons with one operator. -/
  | compare (op : Comparison)
deriving DecidableEq

namespace Kind

/-- All kinds, in their customary order. -/
def all : List Kind :=
  [constant, accessor, not, and, or, optional, ignore, present] ++ Comparison.all.map compare

/-- The name of a kind. -/
def name : Kind → String
  | constant => "Constant"
  | accessor => "Accessor"
  | not => "Not"
  | and => "And"
  | or => "Or"
  | optional => "Optional"
  | ignore => "Ignore"
  | present => "Exists"
  | compare .equal => "Equal"
  | compare .notEqual => "NotEqual"
  | compare .less => "LessThan"
  | compare .lessOrEqual => "LessThanOrEqual"
  | compare .greater => "GreaterThan"
  | compare .greaterOrEqual => "GreaterThanOrEqual"

instance : ToString Kind := ⟨name⟩

end Kind

/-- The kind of an expression. -/
def kind : Expression → Kind
  | constant _ => .constant
  | accessor _ => .accessor
  | not _ => .not
  | and _ => .and
  | or _ => .or
  | optional _ => .optional
  | ignore _ => .ignore
  | present _ => .present
  | compare op _ _ => .compare op

/-! ## Operands -/

/-- The direct operands, from left to right. -/
def operands : Expression → List Expression
  | constant _ | accessor _ => []
  | not e | optional e | ignore e | present e => [e]
  | and es | or es => es
  | compare _ l r => [l, r]

/-- The expression with `f` applied to each direct operand. -/
def mapOperands (f : Expression → Expression) : Expression → Expression
  | constant v => constant v
  | accessor x => accessor x
  | not e => not (f e)
  | and es => and (es.map f)
  | or es => or (es.map f)
  | optional e => optional (f e)
  | ignore e => ignore (f e)
  | present e => present (f e)
  | compare op l r => compare op (f l) (f r)

/-- The truth value that an expression states outright. -/
def asBool? : Expression → Option Bool
  | constant v => v.asBool?
  | _ => none

theorem operands_mapOperands (f : Expression → Expression) (e : Expression) :
    (e.mapOperands f).operands = e.operands.map f := by
  cases e <;> rfl

theorem kind_mapOperands (f : Expression → Expression) (e : Expression) :
    (e.mapOperands f).kind = e.kind := by
  cases e <;> rfl

/-! ## Equality -/

mutual

/-- Strict equality as a computation. -/
def same : Expression → Expression → Bool
  | constant v, constant w => v == w
  | accessor x, accessor y => x == y
  | not a, not b => same a b
  | and as, and bs => sameAll as bs
  | or as, or bs => sameAll as bs
  | optional a, optional b => same a b
  | ignore a, ignore b => same a b
  | present a, present b => same a b
  | compare o l r, compare o' l' r' => o == o' && same l l' && same r r'
  | _, _ => false

/-- Strict equality of two lists, member by member. -/
def sameAll : List Expression → List Expression → Bool
  | [], [] => true
  | a :: as, b :: bs => same a b && sameAll as bs
  | _, _ => false

end

mutual

theorem same_iff : ∀ a b : Expression, same a b = true ↔ a = b := by
  intro a b
  cases a with
  | constant v => cases b <;> simp [same]
  | accessor x => cases b <;> simp [same]
  | not a => cases b <;> simp [same, same_iff a]
  | and as => cases b <;> simp [same, sameAll_iff as]
  | or as => cases b <;> simp [same, sameAll_iff as]
  | optional a => cases b <;> simp [same, same_iff a]
  | ignore a => cases b <;> simp [same, same_iff a]
  | present a => cases b <;> simp [same, same_iff a]
  | compare o l r => cases b <;> simp [same, same_iff l, same_iff r, and_assoc]

theorem sameAll_iff : ∀ as bs : List Expression, sameAll as bs = true ↔ as = bs := by
  intro as bs
  cases as with
  | nil => cases bs <;> simp [sameAll]
  | cons a as => cases bs <;> simp [sameAll, same_iff a, sameAll_iff as]

end

instance : DecidableEq Expression := fun a b => decidable_of_iff _ (same_iff a b)

end Expression

end Specificity
