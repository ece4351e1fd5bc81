import Specificity.Proofs.NormalForm

/-!
# Where truth carries over for certain

A predicate at least as wide as a true one is not false, but it may fail: likeness
reorders the operands of conjunctions and disjunctions, and in another order an
evaluation can meet an operand that it did not ask before. So the predicate is
true for certain in two cases, and each of them is a property that one can see on
the expression it comes from.

Either nothing in the predicate can fail. `Expression.unfailing` asks this of the
comparisons alone, since only an ordering operator ever fails, and it asks it of
all of them, also of those that the evaluation would skip: which ones it skips is
what reordering changes.

Or there is nothing in it to reorder. An expression without a conjunction or
disjunction is *simple* (`Expression.simple`); what is like it is the same
expression. The predicates of a normal form are simple if the expression is
*shallow* (`Expression.shallow`): its conjunctions and disjunctions are all on top,
where the normal form takes them apart.
-/

namespace Specificity

namespace Expression

variable {m : Memory} {a b e : Expression} {es : List Expression}

/-- **A property asked of every member** of a list holds of all of them. -/
theorem forall_of_asked {P : Expression → Bool} {all : List Expression → Bool}
    (hnil : all [] = true) (hcons : ∀ e es, all (e :: es) = (P e && all es))
    (es : List Expression) : all es = true ↔ ∀ e ∈ es, P e = true := by
  induction es with
  | nil => exact ⟨fun _ e he => absurd he List.not_mem_nil, fun _ => hnil⟩
  | cons e es ih => rw [hcons, Bool.and_eq_true, ih, List.forall_mem_cons]

/-! ## Nothing to reorder -/

/-- **Simple**: without conjunctions and disjunctions. -/
def simple : Expression → Bool
  | constant _ | accessor _ => true
  | not e | optional e | ignore e | present e => simple e
  | and _ | or _ => false
  | compare _ l r => simple l && simple r

/-- **What is like a simple expression** is that expression. -/
theorem eq_of_alike_of_simple (a : Expression) (ha : a.simple = true) (b : Expression)
    (hab : alike a b = true) : a = b := by
  cases a with
  | constant v =>
    cases b <;> simp only [alike, Bool.false_eq_true, beq_iff_eq] at hab
    rw [hab]
  | accessor x =>
    cases b <;> simp only [alike, Bool.false_eq_true, beq_iff_eq] at hab
    rw [hab]
  | not a =>
    cases b <;> simp only [alike, Bool.false_eq_true] at hab
    rw [eq_of_alike_of_simple a ha _ hab]
  | and as => exact absurd ha Bool.false_ne_true
  | or as => exact absurd ha Bool.false_ne_true
  | optional a =>
    cases b <;> simp only [alike, Bool.false_eq_true] at hab
    rw [eq_of_alike_of_simple a ha _ hab]
  | ignore a =>
    cases b <;> simp only [alike, Bool.false_eq_true] at hab
    rw [eq_of_alike_of_simple a ha _ hab]
  | present a =>
    cases b <;> simp only [alike, Bool.false_eq_true] at hab
    rw [eq_of_alike_of_simple a ha _ hab]
  | compare o l r =>
    rw [simple, Bool.and_eq_true] at ha
    cases b <;> simp only [alike, Bool.false_eq_true, Bool.and_eq_true, beq_iff_eq] at hab
    obtain ⟨⟨rfl, hl⟩, hr⟩ := hab
    rw [eq_of_alike_of_simple l ha.1 _ hl, eq_of_alike_of_simple r ha.2 _ hr]

mutual

/-- **Shallow**: no conjunction or disjunction stands below a test for a value, a
comparison or an ignored part. -/
def shallow : Expression → Bool
  | constant _ | accessor _ => true
  | not e | optional e => shallow e
  | and es | or es => shallowAll es
  | ignore e | present e => simple e
  | compare _ l r => simple l && simple r

/-- The same for all members of a list. -/
def shallowAll : List Expression → Bool
  | [] => true
  | e :: es => shallow e && shallowAll es

end

mutual

/-- **Crisp**: the predicates that conjunctions, disjunctions and optional parts lead
to are simple. -/
def crisp : Expression → Bool
  | and es | or es => crispAll es
  | optional e => crisp e
  | constant v => simple (constant v)
  | accessor x => simple (accessor x)
  | not e => simple (not e)
  | ignore e => simple (ignore e)
  | present e => simple (present e)
  | compare op l r => simple (compare op l r)

/-- The same for all members of a list. -/
def crispAll : List Expression → Bool
  | [] => true
  | e :: es => crisp e && crispAll es

end

theorem crispAll_iff (es : List Expression) :
    crispAll es = true ↔ ∀ e ∈ es, e.crisp = true :=
  forall_of_asked rfl (fun _ _ => rfl) es

theorem shallowAll_iff (es : List Expression) :
    shallowAll es = true ↔ ∀ e ∈ es, e.shallow = true :=
  forall_of_asked rfl (fun _ _ => rfl) es

/-- Pushing negations down makes no conjunction or disjunction. -/
theorem inherited_simple : Inherited (·.simple = true) (·.simple = true) where
  constant _ := ⟨rfl, fun _ => rfl⟩
  accessor _ := ⟨rfl, rfl⟩
  operand _ h := h
  operands _ h := absurd (or_self_iff.mp h) Bool.false_ne_true
  optional _ h := ⟨h, fun _ hf => hf⟩
  ignore _ _ h hnnf := hnnf h
  present _ h := ⟨h, h⟩
  compare _ _ _ h := ⟨h, h⟩

/-- **The normal form of a shallow expression is crisp.** -/
theorem inherited_crisp : Inherited (·.shallow = true) (·.crisp = true) where
  constant _ := ⟨rfl, fun _ => rfl⟩
  accessor _ := ⟨rfl, rfl⟩
  operand e h := by rwa [shallow] at h
  operands es h := by
    rw [shallow, shallow, or_self_iff, shallowAll_iff] at h
    refine ⟨h, fun fs hfs => ?_⟩
    rw [crisp, crisp, crispAll_iff]
    exact ⟨hfs, hfs⟩
  optional e h := ⟨by rwa [shallow] at h, fun f hf => by rwa [crisp]⟩
  ignore negated e h _ := by
    rw [shallow] at h
    rw [crisp, simple]
    exact inherited_simple.nnf negated e h
  present e h := by
    rw [shallow] at h
    exact ⟨h, h⟩
  compare op l r h := by
    rw [shallow] at h
    exact ⟨h, h⟩

theorem distributive_crisp : Distributive (·.crisp = true) where
  operands es h := by rwa [crisp, crisp, or_self_iff, crispAll_iff] at h
  optional e h := by rwa [crisp] at h

/-- A crisp atom is simple. -/
theorem simple_of_crisp (h : e.crisp = true) (hatom : e.isAtom = true) : e.simple = true := by
  cases e with
  | and | or | optional => exact absurd hatom Bool.false_ne_true
  | _ => exact h

/-! ## Nothing that fails -/

mutual

/-- **Unfailing**: every comparison in the expression has a value, those included that
the evaluation would not ask. -/
def unfailing (m : Memory) : Expression → Bool
  | constant _ | accessor _ => true
  | not e | optional e | ignore e | present e => unfailing m e
  | and es | or es => unfailingAll m es
  | compare op l r => unfailing m l && unfailing m r && ((compare op l r).eval m).isOk

/-- The same for all members of a list. -/
def unfailingAll (m : Memory) : List Expression → Bool
  | [] => true
  | e :: es => unfailing m e && unfailingAll m es

end

/-- A computation has a value if it is one that is `Ok`. -/
theorem isOk_iff {ε β : Type} (x : Except ε β) : x.isOk = true ↔ ∃ b, x = .ok b := by
  cases x <;> simp [Except.isOk, Except.toBool]

mutual

/-- **An unfailing expression has a value.** -/
theorem exists_eval_of_unfailing (m : Memory) : ∀ e : Expression, e.unfailing m = true →
    ∃ v, e.eval m = .ok v
  | constant v => fun _ => ⟨v, rfl⟩
  | accessor x => fun _ => ⟨m.get x, rfl⟩
  | not e => by
    intro h
    obtain ⟨v, hv⟩ := exists_eval_of_unfailing m e h
    exact ⟨_, by rw [eval, hv]; rfl⟩
  | and es => by
    intro h
    rw [unfailing] at h
    obtain ⟨b, hb⟩ := (exists_evalAll_of_unfailing m es h).1
    exact ⟨_, by rw [eval, hb]; rfl⟩
  | or es => by
    intro h
    rw [unfailing] at h
    obtain ⟨b, hb⟩ := (exists_evalAll_of_unfailing m es h).2
    exact ⟨_, by rw [eval, hb]; rfl⟩
  | optional e => fun _ => ⟨_, rfl⟩
  | ignore e => by
    intro h
    obtain ⟨v, hv⟩ := exists_eval_of_unfailing m e h
    exact ⟨v, by rw [eval, hv]⟩
  | present e => by
    intro h
    obtain ⟨v, hv⟩ := exists_eval_of_unfailing m e h
    exact ⟨_, by rw [eval, hv]; rfl⟩
  | compare op l r => by
    intro h
    rw [unfailing, Bool.and_eq_true] at h
    exact (isOk_iff _).mp h.2

/-- Unfailing expressions have a value together, as a conjunction and as a disjunction. -/
theorem exists_evalAll_of_unfailing (m : Memory) : ∀ es : List Expression,
    unfailingAll m es = true → (∃ b, evalAll m es = .ok b) ∧ ∃ b, evalAny m es = .ok b
  | [] => fun _ => ⟨⟨true, rfl⟩, ⟨false, rfl⟩⟩
  | e :: es => by
    intro h
    rw [unfailingAll, Bool.and_eq_true] at h
    obtain ⟨v, hv⟩ := exists_eval_of_unfailing m e h.1
    obtain ⟨hall, hany⟩ := exists_evalAll_of_unfailing m es h.2
    rw [evalAll, evalAny, hv]
    show (∃ b, (if v.truthy then evalAll m es else .ok false) = .ok b) ∧
      ∃ b, (if v.truthy then .ok true else evalAny m es) = .ok b
    cases v.truthy with
    | true => exact ⟨hall, true, rfl⟩
    | false => exact ⟨⟨false, rfl⟩, hany⟩

end

theorem exists_holds_of_unfailing (h : e.unfailing m = true) : ∃ b, e.holds m = .ok b := by
  obtain ⟨v, hv⟩ := exists_eval_of_unfailing m e h
  exact ⟨v.truthy, by rw [holds, hv]; rfl⟩

/-- The opposite comparison has a value as well. -/
theorem unfailing_negate {op : Comparison} {l r : Expression}
    (h : (compare op l r).unfailing m = true) : (compare op.negate l r).unfailing m = true := by
  rw [unfailing, Bool.and_eq_true] at h ⊢
  refine ⟨h.1, (isOk_iff _).mpr ?_⟩
  obtain ⟨v, hv⟩ := (isOk_iff _).mp h.2
  obtain ⟨x, hx, y, hy, c, hc, -⟩ := (eval_compare_eq_ok_iff m op l r v).mp hv
  exact ⟨_, (eval_compare_eq_ok_iff m op.negate l r _).mpr
    ⟨x, hx, y, hy, _, Comparison.apply_negate hc, rfl⟩⟩

theorem unfailingAll_iff (m : Memory) (es : List Expression) :
    unfailingAll m es = true ↔ ∀ e ∈ es, e.unfailing m = true :=
  forall_of_asked rfl (fun _ _ => rfl) es

/-- **The normal form of an unfailing expression is unfailing.** -/
theorem inherited_unfailing (m : Memory) :
    Inherited (·.unfailing m = true) (·.unfailing m = true) where
  constant _ := ⟨rfl, fun _ => rfl⟩
  accessor _ := ⟨rfl, rfl⟩
  operand e h := by rwa [unfailing] at h
  operands es h := by
    rw [unfailing, unfailing, or_self_iff, unfailingAll_iff] at h
    refine ⟨h, fun fs hfs => ?_⟩
    rw [unfailing, unfailing, unfailingAll_iff]
    exact ⟨hfs, hfs⟩
  optional e h := ⟨by rwa [unfailing] at h, fun f hf => by rwa [unfailing]⟩
  ignore negated e h hnnf := by
    rw [unfailing] at h ⊢
    exact hnnf h
  present e h := ⟨h, h⟩
  compare op l r h := ⟨h, unfailing_negate h⟩

theorem distributive_unfailing (m : Memory) : Distributive (·.unfailing m = true) where
  operands es h := by rwa [unfailing, unfailing, or_self_iff, unfailingAll_iff] at h
  optional e h := by rwa [unfailing] at h

end Expression

/-! ## Carrying truth over -/

namespace Comparison

/-- **A tighter limit is missed as well** where a looser one is. -/
theorem apply_of_tighter {op : Comparison} (horder : op.isOrdering = true)
    {v : Value} {a b : Int64} (hloose : Comparer.Looser op a b)
    (h : op.apply v (.integer a) = .ok false) : op.apply v (.integer b) = .ok false := by
  have hvalue : ∃ c, op.apply v (.integer b) = .ok c := by
    cases op with
    | equal | notEqual => exact absurd horder Bool.false_ne_true
    | _ => cases v <;> simp_all [Comparison.apply, Value.order?]
  obtain ⟨c, hc⟩ := hvalue
  cases c with
  | false => exact hc
  | true =>
    rw [apply_of_looser horder hloose hc] at h
    exact absurd (Except.ok.inj h).symm Bool.false_ne_true

end Comparison

namespace Comparers

variable {cs : Comparers} {m : Memory} {p q : Expression}

/-- A tighter bound is false where a looser one is. -/
theorem false_of_widens (h : cs.Widens p q) (hp : p.holds m = .ok false) :
    q.holds m = .ok false := by
  obtain ⟨a, b, ⟨hop, hname, horder⟩, -, rfl, rfl, hloose⟩ := h
  rw [Comparer.Bound.holds_expression] at hp ⊢
  rw [← hop, ← hname]
  exact Comparison.apply_of_tighter horder hloose hp

/-- **What is at least as wide as a true predicate is true**, if it is simple; and what
is at most as wide as a false one is false. A negation exchanges the two. -/
theorem holds_of_covers_of_simple_both (hcs : cs.BoundsOnly) (m : Memory) (p q : Expression) :
    (p.simple = true → (cs.relate p q).covers = true → q.holds m = .ok true →
      p.holds m = .ok true) ∧
    (p.simple = true → (cs.relate q p).covers = true → q.holds m = .ok false →
      p.holds m = .ok false) := by
  induction p, q using Comparers.relate.induct with
  | case1 p q ih =>
    simp only [relate_not, Relationship.covers_swap, Expression.holds_not_iff, Bool.not_true,
      Bool.not_false, Expression.simple]
    rw [relate_swap hcs p q, Relationship.isCovered_swap]
    rw [relate_swap hcs p q, Relationship.covers_swap] at ih
    exact ⟨ih.2, ih.1⟩
  | case2 p q hatoms =>
    rw [relate_atoms cs hatoms, relate_atoms cs fun q' p' hq hp => hatoms p' q' hp hq,
      covers_relateAtoms hcs, covers_relateAtoms hcs]
    constructor
    · rintro hsimple (halike | hwide) hq
      · rw [Expression.eq_of_alike_of_simple p hsimple q halike]
        exact hq
      · exact holds_of_widens hwide hq
    · rintro hsimple (halike | hwide) hq
      · rw [Expression.eq_of_alike_of_simple p hsimple q (Expression.alike_symm halike)]
        exact hq
      · exact false_of_widens hwide hq

/-- **A simple predicate at least as wide as a true one is true.** -/
theorem holds_of_covers_of_simple (hcs : cs.BoundsOnly) (hp : p.simple = true)
    (h : (cs.relate p q).covers = true) (hq : q.holds m = .ok true) : p.holds m = .ok true :=
  (holds_of_covers_of_simple_both hcs m p q).1 hp h hq

/-- **An unfailing predicate at least as wide as a true one is true.** -/
theorem holds_of_covers_of_unfailing (hcs : cs.BoundsOnly) (hp : p.unfailing m = true)
    (h : (cs.relate p q).covers = true) (hq : q.holds m = .ok true) : p.holds m = .ok true := by
  obtain ⟨b, hb⟩ := Expression.exists_holds_of_unfailing hp
  cases b with
  | true => exact hb
  | false => exact absurd hb (not_false_of_covers hcs h hq)

end Comparers

end Specificity
