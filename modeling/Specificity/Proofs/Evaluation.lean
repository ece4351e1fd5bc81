import Specificity.Expression.Evaluation
import Specificity.Proofs.Bounds

/-!
# Truth across comparisons

Evaluation can fail, and where it does depends on the order of operands, which
likeness ignores. So what the judgement on predicates promises about truth is
weak: alike expressions that both have a value have the same one, and under a
registry of integer bounds a predicate at least as wide as a true one is not
false (`Comparers.not_false_of_covers`). It may still fail.
-/

namespace Specificity

namespace Expression

variable {m : Memory} {a b e : Expression} {as bs es : List Expression}

/-! ## Truth of an expression -/

/-- What a mapped computation answers. -/
theorem map_eq_ok_iff {ε β γ : Type} (x : Except ε β) (f : β → γ) (c : γ) :
    x.map f = .ok c ↔ ∃ b, x = .ok b ∧ f b = c := by
  cases x <;> simp [Except.map]

/-- What two computations in a row answer. -/
theorem bind_eq_ok_iff {ε β γ : Type} (x : Except ε β) (f : β → Except ε γ) (c : γ) :
    x.bind f = .ok c ↔ ∃ b, x = .ok b ∧ f b = .ok c := by
  cases x <;> simp [Except.bind]

theorem holds_eq_ok_iff (m : Memory) (e : Expression) (b : Bool) :
    e.holds m = .ok b ↔ ∃ v, e.eval m = .ok v ∧ v.truthy = b := map_eq_ok_iff _ _ _

theorem holds_not (m : Memory) (e : Expression) : (not e).holds m = (e.holds m).map (! ·) := by
  rw [holds, eval, holds]
  cases e.eval m <;> rfl

theorem holds_not_iff (m : Memory) (e : Expression) (b : Bool) :
    (not e).holds m = .ok b ↔ e.holds m = .ok !b := by
  rw [holds_not]
  cases e.holds m <;> simp [Except.map]

theorem holds_and (m : Memory) (es : List Expression) :
    (and es).holds m = evalAll m es := by
  rw [holds, eval]
  cases evalAll m es <;> rfl

theorem holds_or (m : Memory) (es : List Expression) :
    (or es).holds m = evalAny m es := by
  rw [holds, eval]
  cases evalAny m es <;> rfl

theorem holds_ignore (m : Memory) (e : Expression) : (ignore e).holds m = e.holds m := by
  rw [holds, eval, holds]

theorem eval_compare_eq_ok_iff (m : Memory) (op : Comparison) (l r : Expression) (v : Value) :
    (compare op l r).eval m = .ok v ↔ ∃ a, l.eval m = .ok a ∧ ∃ b, r.eval m = .ok b ∧
      ∃ c, op.apply a b = .ok c ∧ .bool c = v := by
  rw [eval]
  simp only [bind_eq_ok_iff, map_eq_ok_iff]

theorem holds_compare (m : Memory) (op : Comparison) (l r : Expression) :
    (compare op l r).holds m =
      (l.eval m).bind fun v => (r.eval m).bind fun w => op.apply v w := by
  rw [holds, eval]
  cases l.eval m with
  | error err => rfl
  | ok v =>
    cases r.eval m with
    | error err => rfl
    | ok w =>
      simp only [Except.bind]
      cases op.apply v w <;> rfl

theorem holds_compare_eq_ok_iff (m : Memory) (op : Comparison) (l r : Expression) (b : Bool) :
    (compare op l r).holds m = .ok b ↔ ∃ v, l.eval m = .ok v ∧ ∃ w, r.eval m = .ok w ∧
      op.apply v w = .ok b := by
  rw [holds_compare]
  simp only [bind_eq_ok_iff]

theorem evalAll_cons (m : Memory) (e : Expression) (es : List Expression) :
    evalAll m (e :: es) = (e.holds m).bind fun b => if b then evalAll m es else .ok false := by
  rw [evalAll, holds]
  cases e.eval m <;> rfl

/-- A conjunction has a value if its head has, and if that is true the rest has. -/
theorem evalAll_cons_eq_ok_iff (m : Memory) (e : Expression) (es : List Expression) (b : Bool) :
    evalAll m (e :: es) = .ok b ↔ ∃ c, e.holds m = .ok c ∧
      (if c then evalAll m es else .ok false) = .ok b := by
  rw [evalAll_cons, bind_eq_ok_iff]

theorem evalAny_cons (m : Memory) (e : Expression) (es : List Expression) :
    evalAny m (e :: es) = (e.holds m).bind fun b => if b then .ok true else evalAny m es := by
  rw [evalAny, holds]
  cases e.eval m <;> rfl

/-- A disjunction has a value if its head has, and if that is false the rest has. -/
theorem evalAny_cons_eq_ok_iff (m : Memory) (e : Expression) (es : List Expression) (b : Bool) :
    evalAny m (e :: es) = .ok b ↔ ∃ c, e.holds m = .ok c ∧
      (if c then .ok true else evalAny m es) = .ok b := by
  rw [evalAny_cons, bind_eq_ok_iff]

/-! ## Truth of conjunctions and disjunctions -/

/-- All are true if each is. -/
theorem evalAll_eq_true_iff (m : Memory) (es : List Expression) :
    evalAll m es = .ok true ↔ ∀ e ∈ es, e.holds m = .ok true := by
  induction es with
  | nil => simp [evalAll]
  | cons e es ih =>
    rw [evalAll_cons, List.forall_mem_cons, ← ih]
    cases e.holds m with
    | error err => simp [Except.bind]
    | ok b => cases b <;> simp [Except.bind]

/-- Not all are true only if one of them is false. -/
theorem exists_false_of_evalAll (h : evalAll m es = .ok false) :
    ∃ e ∈ es, e.holds m = .ok false := by
  induction es with
  | nil => simp [evalAll] at h
  | cons e es ih =>
    obtain ⟨b, he, hrest⟩ := (evalAll_cons_eq_ok_iff m e es false).mp h
    cases b with
    | false => exact ⟨e, List.mem_cons_self, he⟩
    | true =>
      obtain ⟨e', he', hfalse⟩ := ih hrest
      exact ⟨e', List.mem_cons_of_mem _ he', hfalse⟩

/-- None is true if each is false. -/
theorem evalAny_eq_false_iff (m : Memory) (es : List Expression) :
    evalAny m es = .ok false ↔ ∀ e ∈ es, e.holds m = .ok false := by
  induction es with
  | nil => simp [evalAny]
  | cons e es ih =>
    rw [evalAny_cons, List.forall_mem_cons, ← ih]
    cases e.holds m with
    | error err => simp [Except.bind]
    | ok b => cases b <;> simp [Except.bind]

/-- One is true only if there is one that is. -/
theorem exists_true_of_evalAny (h : evalAny m es = .ok true) :
    ∃ e ∈ es, e.holds m = .ok true := by
  induction es with
  | nil => simp [evalAny] at h
  | cons e es ih =>
    obtain ⟨b, he, hrest⟩ := (evalAny_cons_eq_ok_iff m e es true).mp h
    cases b with
    | true => exact ⟨e, List.mem_cons_self, he⟩
    | false =>
      obtain ⟨e', he', htrue⟩ := ih hrest
      exact ⟨e', List.mem_cons_of_mem _ he', htrue⟩

/-! ## Likeness and values -/

/-- Does whatever is like `a` have the same value, if both have one? -/
def Steady (m : Memory) (a : Expression) : Prop :=
  ∀ b, alike a b = true → ∀ v w, a.eval m = .ok v → b.eval m = .ok w → v = w

theorem Steady.holds (h : Steady m a) (hab : alike a b = true) {x y : Bool}
    (ha : a.holds m = .ok x) (hb : b.holds m = .ok y) : x = y := by
  obtain ⟨v, hv, rfl⟩ := (holds_eq_ok_iff m a x).mp ha
  obtain ⟨w, hw, rfl⟩ := (holds_eq_ok_iff m b y).mp hb
  rw [h b hab v w hv hw]

/-- **Like bags** of conjuncts that both have a truth value have the same. -/
theorem evalAll_eq_of_sameBag (has : ∀ a ∈ as, Steady m a) (h : sameBag as bs = true)
    {x y : Bool} (ha : evalAll m as = .ok x) (hb : evalAll m bs = .ok y) : x = y := by
  cases x with
  | true =>
    cases y with
    | true => rfl
    | false =>
      -- the false conjunct of one bag is like a true one of the other
      obtain ⟨b, hbs, hfalse⟩ := exists_false_of_evalAll hb
      obtain ⟨a, ha', hba⟩ := exists_alike_of_sameBag (sameBag_comm as bs ▸ h) hbs
      exact (has a ha').holds (alike_symm hba) ((evalAll_eq_true_iff m as).mp ha a ha') hfalse
  | false =>
    cases y with
    | false => rfl
    | true =>
      obtain ⟨a, ha', hfalse⟩ := exists_false_of_evalAll ha
      obtain ⟨b, hbs, hab⟩ := exists_alike_of_sameBag h ha'
      exact (has a ha').holds hab hfalse ((evalAll_eq_true_iff m bs).mp hb b hbs)

/-- Like bags of disjuncts that both have a truth value have the same. -/
theorem evalAny_eq_of_sameBag (has : ∀ a ∈ as, Steady m a) (h : sameBag as bs = true)
    {x y : Bool} (ha : evalAny m as = .ok x) (hb : evalAny m bs = .ok y) : x = y := by
  cases x with
  | false =>
    cases y with
    | false => rfl
    | true =>
      obtain ⟨b, hbs, htrue⟩ := exists_true_of_evalAny hb
      obtain ⟨a, ha', hba⟩ := exists_alike_of_sameBag (sameBag_comm as bs ▸ h) hbs
      exact (has a ha').holds (alike_symm hba) ((evalAny_eq_false_iff m as).mp ha a ha') htrue
  | true =>
    cases y with
    | true => rfl
    | false =>
      obtain ⟨a, ha', htrue⟩ := exists_true_of_evalAny ha
      obtain ⟨b, hbs, hab⟩ := exists_alike_of_sameBag h ha'
      exact (has a ha').holds hab htrue ((evalAny_eq_false_iff m bs).mp hb b hbs)

mutual

/-- **Alike expressions have the same value**, if both have one. -/
theorem steady (m : Memory) : ∀ a : Expression, Steady m a
  | constant v => by
    intro b hab x y hx hy
    cases b <;> simp only [alike, Bool.false_eq_true, beq_iff_eq] at hab
    subst hab
    exact Except.ok.inj (hx.symm.trans hy)
  | accessor n => by
    intro b hab x y hx hy
    cases b <;> simp only [alike, Bool.false_eq_true, beq_iff_eq] at hab
    subst hab
    exact Except.ok.inj (hx.symm.trans hy)
  | not a => by
    have ha := steady m a
    intro b hab x y hx hy
    cases b <;> simp only [alike, Bool.false_eq_true] at hab
    rw [eval, map_eq_ok_iff] at hx hy
    obtain ⟨v, hv, rfl⟩ := hx
    obtain ⟨w, hw, rfl⟩ := hy
    rw [ha _ hab v w hv hw]
  | and as => by
    have has := steadyAll m as
    intro b hab x y hx hy
    cases b <;> first | rw [alike_and] at hab | simp only [alike, Bool.false_eq_true] at hab
    rw [eval, map_eq_ok_iff] at hx hy
    obtain ⟨v, hv, rfl⟩ := hx
    obtain ⟨w, hw, rfl⟩ := hy
    rw [evalAll_eq_of_sameBag has hab hv hw]
  | or as => by
    have has := steadyAll m as
    intro b hab x y hx hy
    cases b <;> first | rw [alike_or] at hab | simp only [alike, Bool.false_eq_true] at hab
    rw [eval, map_eq_ok_iff] at hx hy
    obtain ⟨v, hv, rfl⟩ := hx
    obtain ⟨w, hw, rfl⟩ := hy
    rw [evalAny_eq_of_sameBag has hab hv hw]
  | optional a => by
    intro b hab x y hx hy
    cases b <;> simp only [alike, Bool.false_eq_true] at hab
    rw [eval] at hx hy
    exact Except.ok.inj (hx.symm.trans hy)
  | ignore a => by
    have ha := steady m a
    intro b hab x y hx hy
    cases b <;> simp only [alike, Bool.false_eq_true] at hab
    rw [eval] at hx hy
    exact ha _ hab x y hx hy
  | present a => by
    have ha := steady m a
    intro b hab x y hx hy
    cases b <;> simp only [alike, Bool.false_eq_true] at hab
    rw [eval, map_eq_ok_iff] at hx hy
    obtain ⟨v, hv, rfl⟩ := hx
    obtain ⟨w, hw, rfl⟩ := hy
    rw [ha _ hab v w hv hw]
  | compare o l r => by
    have hl := steady m l
    have hr := steady m r
    intro b hab x y hx hy
    cases b <;> simp only [alike, Bool.false_eq_true, Bool.and_eq_true, beq_iff_eq] at hab
    next o' l' r' =>
    obtain ⟨⟨rfl, hll⟩, hrr⟩ := hab
    obtain ⟨v, hv, v', hv', c, hc, rfl⟩ := (eval_compare_eq_ok_iff m o l r x).mp hx
    obtain ⟨w, hw, w', hw', d, hd, rfl⟩ := (eval_compare_eq_ok_iff m o l' r' y).mp hy
    -- the operands have the same values, so the operator has the same answer
    rw [hl l' hll v w hv hw, hr r' hrr v' w' hv' hw', hd] at hc
    rw [Except.ok.inj hc]

/-- Every member of a list is steady. -/
theorem steadyAll (m : Memory) : ∀ as : List Expression, ∀ a ∈ as, Steady m a
  | [] => fun a ha => absurd ha List.not_mem_nil
  | b :: bs => fun a ha => by
    have hb := steady m b
    rcases List.mem_cons.mp ha with rfl | ha
    · exact hb
    · exact steadyAll m bs a ha

end

/-- **What is like something true is not false.** -/
theorem not_false_of_alike (hab : alike a b = true) (hb : b.holds m = .ok true) :
    a.holds m ≠ .ok false := fun ha =>
  Bool.false_ne_true ((steady m a).holds hab ha hb)

end Expression

/-! ## Looser limits -/

namespace Comparison

/-- What an ordering operator says of an integer. -/
theorem apply_integer {op : Comparison} (horder : op.isOrdering = true) (v : Value) (a : Int64)
    {b : Bool} :
    op.apply v (.integer a) = .ok b ↔ ∃ x, v = .integer x ∧ op.admits (compare x a) = b := by
  cases op with
  | equal | notEqual => exact absurd horder Bool.false_ne_true
  | _ => cases v <;> simp [Comparison.apply, Value.order?]

theorem admits_less (x a : Int64) : less.admits (compare x a) = true ↔ x < a := by
  rw [admits, beq_iff_eq, Std.compare_eq_lt]

theorem admits_lessOrEqual (x a : Int64) : lessOrEqual.admits (compare x a) = true ↔ x ≤ a := by
  rw [admits, bne_iff_ne, ne_eq, Std.compare_eq_gt, Int64.not_lt]

theorem admits_greater (x a : Int64) : greater.admits (compare x a) = true ↔ a < x := by
  rw [admits, beq_iff_eq, Std.compare_eq_gt]

theorem admits_greaterOrEqual (x a : Int64) :
    greaterOrEqual.admits (compare x a) = true ↔ a ≤ x := by
  rw [admits, bne_iff_ne, ne_eq, Std.compare_eq_lt, Int64.not_lt]

/-- **A looser limit is kept as well.** -/
theorem apply_of_looser {op : Comparison} (horder : op.isOrdering = true)
    {v : Value} {a b : Int64} (hloose : Comparer.Looser op a b)
    (h : op.apply v (.integer b) = .ok true) : op.apply v (.integer a) = .ok true := by
  obtain ⟨x, rfl, hx⟩ := (apply_integer horder v b).mp h
  refine (apply_integer horder _ a).mpr ⟨x, rfl, ?_⟩
  cases op with
  | equal | notEqual => exact absurd horder Bool.false_ne_true
  | less =>
    have hba : b ≤ a := hloose
    rw [admits_less] at *
    exact Int64.lt_of_lt_of_le hx hba
  | lessOrEqual =>
    have hba : b ≤ a := hloose
    rw [admits_lessOrEqual] at *
    exact Int64.le_trans hx hba
  | greater =>
    have hab : a ≤ b := hloose
    rw [admits_greater] at *
    exact Int64.lt_of_le_of_lt hab hx
  | greaterOrEqual =>
    have hab : a ≤ b := hloose
    rw [admits_greaterOrEqual] at *
    exact Int64.le_trans hab hx

end Comparison

/-- A bound is what its operator says of the value of its name. -/
theorem Comparer.Bound.holds_expression (m : Memory) (a : Comparer.Bound) (b : Bool) :
    a.expression.holds m = .ok b ↔ a.op.apply (m.get a.name) (.integer a.limit) = .ok b := by
  rw [Comparer.Bound.expression, Expression.holds_compare_eq_ok_iff, Expression.eval,
    Expression.eval]
  simp only [Except.ok.injEq, exists_eq_left']

namespace Comparers

variable {cs : Comparers} {m : Memory} {p q : Expression}

/-- A looser bound holds where a tighter one does. -/
theorem holds_of_widens (h : cs.Widens p q) (hq : q.holds m = .ok true) :
    p.holds m = .ok true := by
  obtain ⟨a, b, ⟨hop, hname, horder⟩, -, rfl, rfl, hloose⟩ := h
  rw [Comparer.Bound.holds_expression] at hq ⊢
  rw [← hop, ← hname] at hq
  exact Comparison.apply_of_looser horder hloose hq

/-- **Nothing at least as wide as a true predicate is false**, in both directions at
once, since a negation exchanges them. -/
theorem not_false_of_covers_both (hcs : cs.BoundsOnly) (m : Memory) (p q : Expression) :
    ((cs.relate p q).covers = true → q.holds m = .ok true → p.holds m ≠ .ok false) ∧
    ((cs.relate q p).covers = true → p.holds m = .ok true → q.holds m ≠ .ok false) := by
  have hatom : ∀ p q, (cs.relateAtoms p q).covers = true → q.holds m = .ok true →
      p.holds m ≠ .ok false := by
    intro p q hcovers hq
    rcases (covers_relateAtoms hcs p q).mp hcovers with halike | hwide
    · exact Expression.not_false_of_alike halike hq
    · rw [holds_of_widens hwide hq]
      exact fun h => Bool.false_ne_true (Except.ok.inj h).symm
  induction p, q using Comparers.relate.induct with
  | case1 p q ih =>
    simp only [relate_not, Relationship.covers_swap, ne_eq, Expression.holds_not_iff,
      Bool.not_true, Bool.not_false]
    rw [relate_swap hcs p q, Relationship.isCovered_swap]
    rw [relate_swap hcs p q, Relationship.covers_swap] at ih
    exact ⟨fun hcovers hq hp => ih.2 hcovers hp hq, fun hcovers hp hq => ih.1 hcovers hq hp⟩
  | case2 p q hatoms =>
    rw [relate_atoms cs hatoms, relate_atoms cs fun q' p' hq hp => hatoms p' q' hp hq]
    exact ⟨hatom p q, hatom q p⟩

/-- **Nothing at least as wide as a true predicate is false.** -/
theorem not_false_of_covers (hcs : cs.BoundsOnly) (h : (cs.relate p q).covers = true)
    (hq : q.holds m = .ok true) : p.holds m ≠ .ok false :=
  (not_false_of_covers_both hcs m p q).1 h hq

end Comparers

end Specificity
