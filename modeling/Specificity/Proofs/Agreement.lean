import Mathlib.Logic.Relation
import Specificity.Proofs.Certainty
import Specificity.Proofs.Renaming

/-!
# Alike expressions agree

Likeness forgets the order of operands, and evaluation goes by it: where one of two alike
expressions stops at a true disjunct, the other may meet a comparison that fails. So they
need not have a value together. If both have one it is the same, whatever either of them
skipped (`Expression.steady`).

They have one together as soon as no comparison in one of them fails. Which comparisons
the other one asks is of no concern then, since none of its own fails either: each of its
operands is alike to an operand of the first expression, in another place perhaps, and
what a comparison applies its operator to are the values of its operands
(`Expression.unfailing_of_alike`). The comparisons meant are all that an expression
*contains*, at any depth, also where the evaluation never gets to.
-/

namespace Specificity

namespace Expression

variable {m : Memory} {a b o : Expression}

/-! ## What an expression contains -/

/-- **What an expression contains**: itself, and what its operands contain. -/
def Contains : Expression → Expression → Prop := Relation.ReflTransGen fun e o => o ∈ e.operands

theorem contains_iff (e f : Expression) :
    e.Contains f ↔ e = f ∨ ∃ o ∈ e.operands, o.Contains f := by
  rw [Contains, Relation.ReflTransGen.cases_head_iff]

/-- Nothing fails in an expression if nothing does in its operands, nor in the expression
itself should it be a comparison. -/
theorem unfailing_iff_operands (m : Memory) (e : Expression) :
    e.unfailing m = true ↔
      (∀ op l r, e = compare op l r → ∃ v, e.eval m = .ok v) ∧
        ∀ o ∈ e.operands, o.unfailing m = true := by
  cases e with
  | constant v | accessor x => simp [unfailing, operands]
  | not e | optional e | ignore e | present e => simp [unfailing, operands]
  | and es | or es => simp [unfailing, operands, unfailingAll_iff]
  | compare op l r =>
    rw [unfailing, Bool.and_eq_true, Bool.and_eq_true, isOk_iff, and_comm]
    simp [operands]

/-- **Unfailing** are the expressions of which each comparison they contain has a value. -/
theorem unfailing_iff_contains (m : Memory) (e : Expression) :
    e.unfailing m = true ↔
      ∀ op l r, e.Contains (compare op l r) → ∃ v, (compare op l r).eval m = .ok v := by
  induction e using operandInduction with
  | step e ih =>
    rw [unfailing_iff_operands]
    constructor
    · rintro ⟨hself, hoperands⟩ op l r hcontains
      rcases (contains_iff _ _).mp hcontains with rfl | ⟨o, ho, hcontains⟩
      · exact hself op l r rfl
      · exact (ih o ho).mp (hoperands o ho) op l r hcontains
    · intro h
      refine ⟨?_, fun o ho => (ih o ho).mpr fun op l r hcontains => ?_⟩
      · rintro op l r rfl
        exact h op l r .refl
      · exact h op l r (.head ho hcontains)

/-! ## Agreement -/

/-- **Each operand has its like** among the operands of an alike expression. -/
theorem exists_alike_operand (hab : alike a b = true) (ho : o ∈ a.operands) :
    ∃ p ∈ b.operands, alike o p = true := by
  cases a with
  | constant v | accessor x => exact absurd ho List.not_mem_nil
  | not a | optional a | ignore a | present a =>
    cases b <;> simp only [alike, Bool.false_eq_true] at hab
    exact ⟨_, List.mem_singleton_self _, List.mem_singleton.mp ho ▸ hab⟩
  | and as | or as =>
    cases b <;> first
      | rw [alike_and] at hab
      | rw [alike_or] at hab
      | simp only [alike, Bool.false_eq_true] at hab
    exact exists_alike_of_sameBag hab ho
  | compare op l r =>
    cases b <;> simp only [alike, Bool.false_eq_true, Bool.and_eq_true] at hab
    obtain ⟨⟨-, hl⟩, hr⟩ := hab
    rcases List.mem_pair.mp ho with rfl | rfl
    · exact ⟨_, .head _, hl⟩
    · exact ⟨_, .tail _ (.head _), hr⟩

/-- An unfailing expression has the value of whatever is alike to it. -/
theorem eval_of_alike_of_unfailing (hab : alike a b = true) (hb : b.unfailing m = true)
    {v : Value} (ha : a.eval m = .ok v) : b.eval m = .ok v := by
  obtain ⟨w, hw⟩ := exists_eval_of_unfailing m b hb
  rw [steady m a b hab v w ha hw]
  exact hw

/-- A comparison has the value of one alike to it, if its operands cannot fail. -/
theorem exists_eval_compare_of_alike {op : Comparison} {l r : Expression}
    (hab : alike a (compare op l r) = true) (hl : l.unfailing m = true)
    (hr : r.unfailing m = true) (ha : a.unfailing m = true) :
    ∃ v, (compare op l r).eval m = .ok v := by
  obtain ⟨v, hv⟩ := exists_eval_of_unfailing m a ha
  cases a <;> simp only [alike, Bool.false_eq_true, Bool.and_eq_true, beq_iff_eq] at hab
  obtain ⟨⟨rfl, hll⟩, hrr⟩ := hab
  obtain ⟨x, hx, y, hy, hvalue⟩ := (eval_compare_eq_ok_iff m _ _ _ v).mp hv
  exact ⟨v, (eval_compare_eq_ok_iff m _ l r v).mpr
    ⟨x, eval_of_alike_of_unfailing hll hl hx, y, eval_of_alike_of_unfailing hrr hr hy, hvalue⟩⟩

/-- **What is alike to an unfailing expression is unfailing.** -/
theorem unfailing_of_alike (a : Expression) :
    ∀ b, alike a b = true → a.unfailing m = true → b.unfailing m = true := by
  induction a using operandInduction with
  | step a ih =>
    intro b hab ha
    -- the operands of `b` follow those of `a` they are matched with, wherever these stand
    have hoperands : ∀ p ∈ b.operands, p.unfailing m = true := by
      intro p hp
      obtain ⟨o, ho, hpo⟩ := exists_alike_operand (alike_symm hab) hp
      exact ih o ho p (alike_symm hpo) (((unfailing_iff_operands m a).mp ha).2 o ho)
    refine (unfailing_iff_operands m b).mpr ⟨?_, hoperands⟩
    rintro op l r rfl
    exact exists_eval_compare_of_alike hab (hoperands l (.head _))
      (hoperands r (.tail _ (.head _))) ha

/-- **Alike expressions never contradict each other.** If both have a value in a memory it
is the same one; and if no comparison that one of them contains fails there, then both
have a value. -/
theorem eval_agree_of_alike (a b : Expression) (hab : a.alike b = true) (m : Memory) :
    (∀ v w, a.eval m = .ok v → b.eval m = .ok w → v = w) ∧
      ((∀ op l r, a.Contains (compare op l r) → ∃ v, (compare op l r).eval m = .ok v) →
        ∃ v, a.eval m = .ok v ∧ b.eval m = .ok v) := by
  refine ⟨steady m a b hab, fun hcomparisons => ?_⟩
  have ha : a.unfailing m = true := (unfailing_iff_contains m a).mpr hcomparisons
  obtain ⟨v, hv⟩ := exists_eval_of_unfailing m a ha
  exact ⟨v, hv, eval_of_alike_of_unfailing hab (unfailing_of_alike a b hab ha) hv⟩

/-- Operands change places below a negation and below a comparison. In the first pair both
expressions skip a comparison that fails and have the same value all the same; the second
pair contains none that fails. The disjunction in the first pair skips the failing
comparison only in the one order, so in the other order it has no value. -/
theorem eval_agree_of_alike_reordered :
    let m : Memory := Memory.empty.set "x" (.integer 3)
    let small := compare .less (accessor "x") (constant (.integer 5))
    let fails := compare .less (accessor "y") (constant (.integer 5))
    let a := not (and [small, or [small, fails]])
    let a' := not (and [or [small, fails], small])
    let b := compare .lessOrEqual (or [accessor "y", small]) (present (accessor "x"))
    let b' := compare .lessOrEqual (or [small, accessor "y"]) (present (accessor "x"))
    (a.alike a' = true ∧ a.Contains fails ∧ (∃ err, fails.eval m = .error err) ∧
        ∃ v, a.eval m = .ok v ∧ a'.eval m = .ok v) ∧
      (b.alike b' = true ∧
        (∀ op l r, b.Contains (compare op l r) → ∃ v, (compare op l r).eval m = .ok v) ∧
        ∃ v, b.eval m = .ok v ∧ b'.eval m = .ok v) ∧
      (or [small, fails]).alike (or [fails, small]) = true ∧
        (or [small, fails]).eval m = .ok (.bool true) ∧
        ∃ err, (or [fails, small]).eval m = .error err := by
  intro m small fails a a' b b'
  have ha : a.alike a' = true := by decide +kernel
  have hb : b.alike b' = true := by decide +kernel
  have hcontains : a.Contains fails :=
    .head (List.mem_singleton_self _) (.head (.tail _ (.head _)) (.single (.tail _ (.head _))))
  obtain ⟨v, hv⟩ : ∃ v, a.eval m = .ok v := ⟨_, rfl⟩
  obtain ⟨w, hw⟩ : ∃ w, a'.eval m = .ok w := ⟨_, rfl⟩
  have hcomparisons : ∀ op l r, b.Contains (compare op l r) →
      ∃ v, (compare op l r).eval m = .ok v :=
    (unfailing_iff_contains m b).mp (by decide +kernel)
  obtain ⟨hsame, -⟩ := eval_agree_of_alike a a' ha m
  obtain ⟨-, hvalues⟩ := eval_agree_of_alike b b' hb m
  exact ⟨⟨ha, hcontains, ⟨_, rfl⟩, v, hv, hsame v w hv hw ▸ hw⟩,
    ⟨hb, hcomparisons, hvalues hcomparisons⟩, by decide +kernel, rfl, ⟨_, rfl⟩⟩

end Expression

end Specificity
