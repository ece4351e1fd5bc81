import Mathlib.Data.Set.Basic
import Mathlib.Logic.Function.Iterate
import Specificity.Proofs.Evaluation

/-!
# Bounds are as wide as what they admit

The judgement on two bounds on one name looks at the limits and never at a memory. It is
exact all the same: the wider bound is the one that is true in more memories
(`Comparers.measures_bounds`). One limit is looser than the other if it admits every
integer that the other one admits, and to see the converse no integer beyond the two
limits is needed, since one of them tells the bounds apart (`Comparison.looser_iff`). So
the smallest and the largest integer are limits like all others.

Under a negation a bound is true where it was false, which is not everywhere else: where
the name has no integer, both fail. As this happens to two bounds on one name in the same
memories, the one that is true in more memories is false in fewer, and so the judgement
on negated bounds, which is turned round, is exact as well. Both inclusions are carried
through the negations (`Comparers.Measures.iterate_not`).
-/

namespace Specificity

open Comparer (Bound Looser ofLimits)

/-! ## Limits and what they admit -/

/-- **A limit is looser** if it admits every integer that the other limit admits. -/
theorem Comparison.looser_iff {op : Comparison} (horder : op.isOrdering = true) (a b : Int64) :
    Looser op a b ↔
      ∀ x : Int64, op.admits (compare x b) = true → op.admits (compare x a) = true := by
  constructor
  · intro hloose x hx
    have happly := (apply_integer horder (.integer x) b).mpr ⟨x, rfl, hx⟩
    obtain ⟨y, hy, hadmits⟩ := (apply_integer horder _ a).mp (apply_of_looser horder hloose happly)
    rwa [Value.integer.inj hy]
  · intro h
    cases op with
    | equal | notEqual => exact absurd horder Bool.false_ne_true
    | less =>
      -- strictly below `b` but not below `a` would be `a` itself
      show b ≤ a
      simp only [admits_less] at h
      exact Int64.not_lt.mp fun hab => Int64.lt_irrefl (h a hab)
    | lessOrEqual =>
      show b ≤ a
      simp only [admits_lessOrEqual] at h
      exact h b (Int64.le_refl b)
    | greater =>
      show a ≤ b
      simp only [admits_greater] at h
      exact Int64.not_lt.mp fun hba => Int64.lt_irrefl (h a hba)
    | greaterOrEqual =>
      show a ≤ b
      simp only [admits_greaterOrEqual] at h
      exact h b (Int64.le_refl b)

theorem Comparer.ofLimits_ne_incomparable (op : Comparison) (a b : Int64) :
    ofLimits op a b ≠ .incomparable := by
  unfold ofLimits
  dsimp only
  split <;> exact Relationship.noConfusion

/-! ## Memories in which a predicate is true -/

namespace Expression

/-- The memories in which the expression has the truth value `b`. -/
def answers (b : Bool) (e : Expression) : Set Memory := {m | e.holds m = .ok b}

/-- **The memories in which the expression is true.** -/
def truths (e : Expression) : Set Memory := e.answers true

theorem answers_not (b : Bool) (e : Expression) : (not e).answers b = e.answers !b :=
  Set.ext fun m => holds_not_iff m e b

end Expression

theorem Comparer.Bound.mem_answers {a : Bound} (horder : a.op.isOrdering = true) (m : Memory)
    (b : Bool) : m ∈ a.expression.answers b ↔
      ∃ x, m.get a.name = .integer x ∧ a.op.admits (compare x a.limit) = b :=
  (a.holds_expression m b).trans (Comparison.apply_integer horder _ _)

/-- Bounds on one name have an answer in the same memories, so they are compared by what
they say of integers. -/
theorem Comparer.Bound.answers_subset_iff {op : Comparison} (horder : op.isOrdering = true)
    (name : String) (a b : Int64) (answer : Bool) :
    (Bound.mk op name a).expression.answers answer ⊆
        (Bound.mk op name b).expression.answers answer ↔
      ∀ x : Int64, op.admits (compare x a) = answer → op.admits (compare x b) = answer := by
  constructor
  · intro h x hx
    have hread : (Memory.empty.set name (.integer x)).get name = .integer x := by
      rw [Memory.get_set, if_pos rfl]
    obtain ⟨y, hy, hadmits⟩ := (mem_answers horder _ _).mp
      (h ((mem_answers horder _ _).mpr ⟨x, hread, hx⟩))
    rwa [Value.integer.inj (hread.symm.trans hy)]
  · intro h m hm
    obtain ⟨x, hread, hadmits⟩ := (mem_answers horder m answer).mp hm
    exact (mem_answers horder m answer).mpr ⟨x, hread, h x hadmits⟩

/-- **The looser limit** makes the bound true in more memories. -/
theorem Comparer.Bound.true_subset_iff {op : Comparison} (horder : op.isOrdering = true)
    (name : String) (a b : Int64) :
    (Bound.mk op name b).expression.answers true ⊆ (Bound.mk op name a).expression.answers true ↔
      Looser op a b := by
  rw [answers_subset_iff horder, Comparison.looser_iff horder]

/-- The looser limit makes the bound false in fewer memories. -/
theorem Comparer.Bound.false_subset_iff {op : Comparison} (horder : op.isOrdering = true)
    (name : String) (a b : Int64) :
    (Bound.mk op name a).expression.answers false ⊆ (Bound.mk op name b).expression.answers false ↔
      Looser op a b := by
  rw [answers_subset_iff horder, Comparison.looser_iff horder]
  refine forall_congr' fun x => ?_
  rw [← Bool.not_eq_true, ← Bool.not_eq_true, not_imp_not]

/-! ## Judgements that measure -/

namespace Comparers

variable {cs : Comparers} {p q : Expression}

/-- **The judgement on two predicates measures them**: they are comparable, and at least
as wide is what is true in all the memories in which the other one is, which is then
false only where the other one is. -/
structure Measures (cs : Comparers) (p q : Expression) : Prop where
  /-- The predicates are comparable. -/
  comparable : cs.relate p q ≠ .incomparable
  /-- At least as wide is true where the other one is. -/
  covers_true : (cs.relate p q).covers = true ↔ q.answers true ⊆ p.answers true
  /-- At least as wide is false only where the other one is. -/
  covers_false : (cs.relate p q).covers = true ↔ p.answers false ⊆ q.answers false
  /-- At most as wide is true only where the other one is. -/
  isCovered_true : (cs.relate p q).isCovered = true ↔ p.answers true ⊆ q.answers true
  /-- At most as wide is false where the other one is. -/
  isCovered_false : (cs.relate p q).isCovered = true ↔ q.answers false ⊆ p.answers false

/-- **Negations are measured** if what they negate is: the judgement is turned round, and
true and false change places. -/
theorem Measures.not (h : cs.Measures p q) : cs.Measures (.not p) (.not q) where
  comparable := by
    rw [relate_not, ne_eq, Relationship.swap_eq_iff]
    exact h.comparable
  covers_true := by
    rw [relate_not, Relationship.covers_swap, Expression.answers_not, Expression.answers_not]
    exact h.isCovered_false
  covers_false := by
    rw [relate_not, Relationship.covers_swap, Expression.answers_not, Expression.answers_not]
    exact h.isCovered_true
  isCovered_true := by
    rw [relate_not, Relationship.isCovered_swap, Expression.answers_not, Expression.answers_not]
    exact h.covers_false
  isCovered_false := by
    rw [relate_not, Relationship.isCovered_swap, Expression.answers_not, Expression.answers_not]
    exact h.covers_true

/-- Any number of negations. -/
theorem Measures.iterate_not (h : cs.Measures p q) (n : ℕ) :
    cs.Measures (Expression.not^[n] p) (Expression.not^[n] q) := by
  induction n with
  | zero => exact h
  | succ n ih =>
    rw [Function.iterate_succ_apply', Function.iterate_succ_apply']
    exact ih.not

/-- **What a measuring judgement says**: equal predicates are true in the same memories, of
the others the narrower one is true in some of those of the wider one and not in all. -/
theorem Measures.exact (h : cs.Measures p q) :
    (cs.relate p q = .equal ↔ p.truths = q.truths) ∧
      (cs.relate p q = .specializes ↔ p.truths ⊆ q.truths ∧ ¬ q.truths ⊆ p.truths) ∧
      (cs.relate p q = .generalizes ↔ q.truths ⊆ p.truths ∧ ¬ p.truths ⊆ q.truths) ∧
      cs.relate p q ≠ .incomparable := by
  refine ⟨?_, ?_, ?_, h.comparable⟩
  · rw [Relationship.eq_equal_iff, h.isCovered_true, h.covers_true]
    exact Set.Subset.antisymm_iff.symm
  · rw [Relationship.eq_specializes_iff, h.isCovered_true, h.covers_true]
    rfl
  · rw [Relationship.eq_generalizes_iff, h.isCovered_true, h.covers_true]
    rfl

/-! ## Bounds -/

theorem find?_registerBounds (cs : Comparers) {op : Comparison} (horder : op.isOrdering = true) :
    cs.registerBounds.find? (.compare op) = some .integerBounds := by
  cases op with
  | equal | notEqual => exact absurd horder Bool.false_ne_true
  | _ => rfl

/-- **The judgement on bounds** of one name by one operator is that on their limits,
whichever comparers there are besides. -/
theorem relate_registerBounds (cs : Comparers) {op : Comparison} (horder : op.isOrdering = true)
    (name : String) (a b : Int64) :
    cs.registerBounds.relate (Bound.mk op name a).expression (Bound.mk op name b).expression =
      ofLimits op a b := by
  have hkind : ∀ limit, (Bound.mk op name limit).expression.kind = .compare op := fun _ => rfl
  rw [relate_atoms _ fun _ _ h => Expression.noConfusion h, relateAtoms, hkind, hkind, if_pos rfl,
    find?_registerBounds cs horder]
  exact if_pos ⟨rfl, rfl, horder⟩

/-- **Bounds are measured** under the comparer of integer bounds. -/
theorem measures_bounds (cs : Comparers) {op : Comparison} (horder : op.isOrdering = true)
    (name : String) (a b : Int64) :
    cs.registerBounds.Measures (Bound.mk op name a).expression (Bound.mk op name b).expression := by
  have hcovered : (ofLimits op a b).isCovered = (ofLimits op b a).covers := by
    rw [Comparer.ofLimits_swap op a b, Relationship.covers_swap]
  constructor
  · rw [relate_registerBounds cs horder]
    exact Comparer.ofLimits_ne_incomparable op a b
  · rw [relate_registerBounds cs horder, Comparer.covers_ofLimits, Bound.true_subset_iff horder]
  · rw [relate_registerBounds cs horder, Comparer.covers_ofLimits, Bound.false_subset_iff horder]
  · rw [relate_registerBounds cs horder, hcovered, Comparer.covers_ofLimits,
      Bound.true_subset_iff horder]
  · rw [relate_registerBounds cs horder, hcovered, Comparer.covers_ofLimits,
      Bound.false_subset_iff horder]

/-- **Integer bounds are ordered exactly**: two bounds on one name by one ordering operator,
negated equally often, are equal if they are true in the same memories, and otherwise the
one that is true in fewer memories is the narrower. They are never incomparable. -/
theorem bounds_ordered_by_truths (cs : Comparers) {op : Comparison}
    (horder : op.isOrdering = true) (name : String) (a b : Int64) (n : ℕ) :
    let p := Expression.not^[n] (Bound.mk op name a).expression
    let q := Expression.not^[n] (Bound.mk op name b).expression
    (cs.registerBounds.relate p q = .equal ↔ p.truths = q.truths) ∧
      (cs.registerBounds.relate p q = .specializes ↔
        p.truths ⊆ q.truths ∧ ¬ q.truths ⊆ p.truths) ∧
      (cs.registerBounds.relate p q = .generalizes ↔
        q.truths ⊆ p.truths ∧ ¬ p.truths ⊆ q.truths) ∧
      cs.registerBounds.relate p q ≠ .incomparable :=
  ((cs.measures_bounds horder name a b).iterate_not n).exact

/-- Nothing is less than the smallest integer. Negated three times this is true of all
integers, and one limit further up it is not true of the smallest one any more. -/
theorem bounds_ordered_by_truths_smallest :
    let cs := Comparers.empty.registerBounds
    let p := Expression.not^[3] (Bound.mk .less "x" Int64.minValue).expression
    let q := Expression.not^[3] (Bound.mk .less "x" (Int64.minValue + 1)).expression
    let m := Memory.ofList [("x", .integer Int64.minValue)]
    Comparison.isOrdering .less = true ∧ cs.relate p q = .generalizes ∧ q.truths ⊆ p.truths ∧
      m ∈ p.truths ∧ m ∉ q.truths := by
  intro cs p q m
  have horder : Comparison.isOrdering .less = true := rfl
  obtain ⟨-, -, hwider, -⟩ := bounds_ordered_by_truths empty horder "x" Int64.minValue
    (Int64.minValue + 1) 3
  have hrelate : cs.relate p q = .generalizes := by decide +kernel
  have hp : p.holds m = .ok true := by decide +kernel
  have hq : q.holds m = .ok false := by decide +kernel
  refine ⟨horder, hrelate, (hwider.mp hrelate).1, hp, fun h => ?_⟩
  exact Bool.false_ne_true (Except.ok.inj (hq.symm.trans h))

end Comparers

end Specificity
