import Specificity.Clause.NormalForm
import Specificity.Expression.Negation
import Specificity.Proofs.Evaluation

/-!
# Truth and normal forms

Pushing negations down keeps answers, but for optional parts: those count
as true whether they are negated or not. If no optional part stands under an odd
number of negations (`Expression.upright`), an expression and its normal form
have the same truth value or fail over the same kinds of values
(`Expression.holds_negationNormal`). The two short-circuit at the same operand,
so neither meets an error that the other skips; but it may be the opposite
operator that fails.

The disjunctive normal form is read in two directions, and both hold of every
expression: where no predicate of a clause is false, neither is the expression, and
where the expression is true, all predicates of some clause are. The two are not each
other's converse, since what is not false may fail.

Which properties of an expression its normal forms inherit is a question that comes
up for one property after the other, so the two recursions are done once: for a
property and what becomes of it under pushed-down negations (`Expression.Inherited`),
and for a property that passes to operands (`Expression.Distributive`).
-/

namespace Specificity

/-! ## Opposite answers -/

/-- **The same answer, or the opposite one** if `negated`. Two failures are over values of
the same kinds, and the operator that met them is the same one or its opposite. -/
inductive Mirrors (negated : Bool) : Except EvalError Bool → Except EvalError Bool → Prop where
  /-- A truth value, or the opposite one. -/
  | ok (b : Bool) : Mirrors negated (.ok b) (.ok (b != negated))
  /-- A failure over the same kinds of values. -/
  | error {op op' : Comparison} (left right : Value.Kind) (h : op' = op ∨ op' = op.negate) :
      Mirrors negated (.error (.typeMismatch op left right)) (.error (.typeMismatch op' left right))

namespace Mirrors

variable {negated b : Bool} {x y : Except EvalError Bool}

theorem refl (x : Except EvalError Bool) : Mirrors false x x := by
  cases x with
  | ok b => simpa using (.ok b : Mirrors false (.ok b) _)
  | error err => exact .error _ _ (.inl rfl)

theorem eq_ok (h : Mirrors negated (.ok b) y) : y = .ok (b != negated) := by
  cases h
  rfl

/-- An answer turned round is the opposite one. -/
theorem not_right (x : Except EvalError Bool) : Mirrors true x (x.map (! ·)) := by
  cases x with
  | ok b => simpa [Except.map] using (.ok b : Mirrors true (.ok b) _)
  | error err => exact .error _ _ (.inl rfl)

/-- What mirrors an answer mirrors the answer turned round, the other way. -/
theorem not_left (h : Mirrors (!negated) x y) : Mirrors negated (x.map (! ·)) y := by
  cases h with
  | ok b =>
    have hturned : (b != !negated) = ((!b) != negated) := by cases b <;> cases negated <;> rfl
    rw [hturned]
    exact .ok (!b)
  | error left right h => exact .error left right h

/-- **Two evaluations in a row**: the second depends on the first answer. -/
theorem bind {k k' : Bool → Except EvalError Bool} (h : Mirrors negated x y)
    (hk : ∀ b, Mirrors negated (k b) (k' (b != negated))) :
    Mirrors negated (x.bind k) (y.bind k') := by
  cases h with
  | ok b => exact hk b
  | error left right h => exact .error left right h

/-- The second of two evaluations, where the first is the same. -/
theorem bind_same {β : Type} {k k' : β → Except EvalError Bool} (x : Except EvalError β)
    (hk : ∀ v, Mirrors negated (k v) (k' v)) : Mirrors negated (x.bind k) (x.bind k') := by
  cases x with
  | ok v => exact hk v
  | error err => exact .error _ _ (.inl rfl)

end Mirrors

/-- **The opposite operator** has the opposite answer. -/
theorem Comparison.mirrors_negate (op : Comparison) (v w : Value) :
    Mirrors true (op.apply v w) (op.negate.apply v w) := by
  cases op with
  | equal => simpa [negate, apply, bne] using (.ok (v == w) : Mirrors true (.ok (v == w)) _)
  | notEqual => simpa [negate, apply, bne] using (.ok (v != w) : Mirrors true (.ok (v != w)) _)
  | _ =>
    unfold apply
    cases v.order? w with
    | none => exact .error _ _ (.inr rfl)
    | some o => cases o <;> exact .ok _

theorem Comparison.apply_negate {op : Comparison} {v w : Value} {b : Bool}
    (h : op.apply v w = .ok b) : op.negate.apply v w = .ok !b := by
  have hmirrors := op.mirrors_negate v w
  rw [h] at hmirrors
  simpa using hmirrors.eq_ok

namespace Expression

variable {m : Memory} {e : Expression} {es : List Expression} {f : Expression → Expression}
  {negated b : Bool}

/-! ## Optional parts -/

mutual

/-- **No optional part is negated**: none that is reached through negations,
conjunctions, disjunctions and ignored parts stands under an odd number of
negations, counting one more if `negated`. -/
def upright (negated : Bool) : Expression → Bool
  | not e => upright (!negated) e
  | and es => uprightAll negated es
  | or es => uprightAll negated es
  | ignore e => upright negated e
  | optional _ => !negated
  | constant _ | accessor _ | present _ | compare _ _ _ => true

/-- The same for all members of a list. -/
def uprightAll (negated : Bool) : List Expression → Bool
  | [] => true
  | e :: es => upright negated e && uprightAll negated es

end

/-! ## Negation normal form -/

/-- **Conjunctions under a map** that keeps answers, or turns all of them round and the
conjunction into a disjunction. Both sides stop at the same operand. -/
theorem evalAll_map (hf : ∀ e ∈ es, Mirrors negated (e.holds m) ((f e).holds m)) :
    Mirrors negated (evalAll m es)
      (if negated then evalAny m (es.map f) else evalAll m (es.map f)) := by
  induction es with
  | nil => cases negated <;> exact .ok true
  | cons e es ih =>
    obtain ⟨hhead, htail⟩ := List.forall_mem_cons.mp hf
    have ih := ih htail
    rw [List.map_cons, evalAny_cons, evalAll_cons, evalAll_cons]
    cases negated with
    | false => exact hhead.bind fun b => by cases b; exacts [.refl _, ih]
    | true => exact hhead.bind fun b => by cases b; exacts [.ok false, ih]

/-- Disjunctions under such a map. -/
theorem evalAny_map (hf : ∀ e ∈ es, Mirrors negated (e.holds m) ((f e).holds m)) :
    Mirrors negated (evalAny m es)
      (if negated then evalAll m (es.map f) else evalAny m (es.map f)) := by
  induction es with
  | nil => cases negated <;> exact .ok false
  | cons e es ih =>
    obtain ⟨hhead, htail⟩ := List.forall_mem_cons.mp hf
    have ih := ih htail
    rw [List.map_cons, evalAny_cons, evalAll_cons, evalAny_cons]
    cases negated with
    | false => exact hhead.bind fun b => by cases b; exacts [ih, .refl _]
    | true => exact hhead.bind fun b => by cases b; exacts [ih, .ok true]

/-- An atom, negated or not. -/
theorem mirrors_atom (negated : Bool) (m : Memory) (e : Expression) :
    Mirrors negated (e.holds m) ((if negated then not e else e).holds m) := by
  cases negated with
  | false => exact .refl _
  | true => exact holds_not m e ▸ Mirrors.not_right _

mutual

/-- **The normal form of an upright expression mirrors it**: it has the same answer, or
the opposite one if `negated`. -/
theorem mirrors_nnf (m : Memory) (negated : Bool) : ∀ e : Expression,
    upright negated e = true → Mirrors negated (e.holds m) ((e.nnf negated).holds m)
  | constant v => by
    intro _
    cases v with
    | bool b => exact .ok b
    | null | integer n | text s =>
      rw [nnf]
      · exact mirrors_atom negated m _
      · exact fun _ => Value.noConfusion
  | accessor x => fun _ => mirrors_atom negated m (accessor x)
  | not e => by
    intro hup
    rw [upright] at hup
    rw [nnf, holds_not]
    exact (mirrors_nnf m (!negated) e hup).not_left
  | and es => by
    intro hup
    rw [upright] at hup
    have hmap := evalAll_map (mirrors_nnfAll m negated es hup)
    rw [nnf, nnfAll_eq_map, holds_and]
    cases negated with
    | false => exact (holds_and m _).symm ▸ hmap
    | true => exact (holds_or m _).symm ▸ hmap
  | or es => by
    intro hup
    rw [upright] at hup
    have hmap := evalAny_map (mirrors_nnfAll m negated es hup)
    rw [nnf, nnfAll_eq_map, holds_or]
    cases negated with
    | false => exact (holds_or m _).symm ▸ hmap
    | true => exact (holds_and m _).symm ▸ hmap
  | optional e => by
    -- an optional part is true whatever it contains, so it must not be negated
    intro hup
    rw [upright, Bool.not_eq_true'] at hup
    subst hup
    exact .refl (.ok true)
  | ignore e => by
    intro hup
    rw [upright] at hup
    rw [nnf, holds_ignore, holds_ignore]
    exact mirrors_nnf m negated e hup
  | present e => fun _ => mirrors_atom negated m (present e)
  | compare op l r => by
    intro _
    rw [nnf]
    cases negated with
    | false => exact .refl _
    | true =>
      -- a negated comparison is the comparison by the opposite operator
      rw [holds_compare, holds_compare]
      exact .bind_same _ fun v => .bind_same _ fun w => op.mirrors_negate v w

/-- The same for every member of a list. -/
theorem mirrors_nnfAll (m : Memory) (negated : Bool) : ∀ es : List Expression,
    uprightAll negated es = true → ∀ e ∈ es, Mirrors negated (e.holds m) ((e.nnf negated).holds m)
  | [] => fun _ e he => absurd he List.not_mem_nil
  | e' :: es => fun hup e he => by
    rw [uprightAll, Bool.and_eq_true] at hup
    have hhead := mirrors_nnf m negated e' hup.1
    rcases List.mem_cons.mp he with rfl | he
    · exact hhead
    · exact mirrors_nnfAll m negated es hup.2 e he

end

/-- **The normal form of an upright expression has its truth value**, or the
opposite one if `negated`. -/
theorem holds_nnf (m : Memory) (negated : Bool) (e : Expression) (hup : upright negated e = true)
    (b : Bool) (h : e.holds m = .ok b) : (e.nnf negated).holds m = .ok (b != negated) := by
  have hmirrors := mirrors_nnf m negated e hup
  rw [h] at hmirrors
  exact hmirrors.eq_ok

/-- **Negation normal form keeps the answer** of an upright expression: the two have the
same truth value, or both meet values of the same kinds that they cannot compare, by the
same operator or by opposite ones. -/
theorem holds_negationNormal (hup : e.upright false = true) (m : Memory) :
    (∃ b, e.holds m = .ok b ∧ e.negationNormal.holds m = .ok b) ∨
    ∃ op op' left right, e.holds m = .error (.typeMismatch op left right) ∧
      e.negationNormal.holds m = .error (.typeMismatch op' left right) ∧
      (op' = op ∨ op' = op.negate) := by
  have hmirrors := mirrors_nnf m false e hup
  unfold negationNormal
  generalize e.holds m = x at hmirrors ⊢
  generalize (e.nnf false).holds m = y at hmirrors ⊢
  cases hmirrors with
  | ok b => exact .inl ⟨b, rfl, by rw [Bool.bne_false]⟩
  | error left right h => exact .inr ⟨_, _, left, right, rfl, rfl, h⟩

/-- A negated disjunction with an optional part under a second negation, in a memory where
the comparison fails and in one where it holds. -/
theorem holds_negationNormal_optional :
    let e : Expression := .not (.or [.not (.optional (.accessor "o")),
      .compare .less (.accessor "x") (.constant (.integer 3))])
    let m := Memory.ofList [("x", .integer 7)]
    e.upright false = true ∧ e.holds m = .ok true ∧ e.negationNormal.holds m = .ok true ∧
      e.holds .empty = .error (.typeMismatch .less .null .integer) ∧
      e.negationNormal.holds .empty = .error (.typeMismatch .greaterOrEqual .null .integer) := by
  intro e m
  have hup : e.upright false = true := by decide
  have htrue : e.holds m = .ok true := by rfl
  have hfails : e.holds .empty = .error (.typeMismatch .less .null .integer) := by rfl
  refine ⟨hup, htrue, ?_, hfails, by rfl⟩
  obtain ⟨b, hb, hnormal⟩ | ⟨_, _, _, _, herror, -⟩ := holds_negationNormal hup m
  · rwa [← Except.ok.inj (htrue.symm.trans hb)] at hnormal
  · cases htrue.symm.trans herror

end Expression

/-! ## Disjunctive normal form -/

namespace Clause

variable {m : Memory} {c d : Clause}

/-- Is no predicate of the clause false? -/
def Unrefuted (m : Memory) (c : Clause) : Prop :=
  ∀ q ∈ c.conjuncts, q.holds m ≠ .ok false

theorem unrefuted_singleton (e : Expression) :
    (ofConjuncts [e]).Unrefuted m ↔ e.holds m ≠ .ok false := by
  unfold Unrefuted ofConjuncts
  simp

theorem mem_product_iff {left right : List Clause} :
    c ∈ product left right ↔
      ∃ a ∈ left, ∃ b ∈ right, c = ofConjuncts (a.conjuncts ++ b.conjuncts) := by
  unfold product
  simp only [List.mem_flatMap, List.mem_map, eq_comm (a := c)]

/-- A product of clauses consists of a clause of each side. -/
theorem exists_of_mem_product {left right : List Clause} (h : c ∈ product left right)
    (hc : c.Unrefuted m) :
    (∃ a ∈ left, a.Unrefuted m) ∧ ∃ b ∈ right, b.Unrefuted m := by
  obtain ⟨a, ha, b, hb, rfl⟩ := mem_product_iff.mp h
  exact ⟨⟨a, ha, fun q hq => hc q (List.mem_append_left _ hq)⟩,
    ⟨b, hb, fun q hq => hc q (List.mem_append_right _ hq)⟩⟩

end Clause

namespace Expression

variable {m : Memory}

/-- A predicate that is a clause of its own. -/
theorem not_false_of_atom {e : Expression} (hatom : clauses e = [.ofConjuncts [e]])
    (h : ∃ c ∈ clauses e, c.Unrefuted m) : e.holds m ≠ .ok false := by
  obtain ⟨c, hc, hunrefuted⟩ := h
  rw [hatom] at hc
  rw [List.mem_singleton.mp hc] at hunrefuted
  exact (Clause.unrefuted_singleton e).mp hunrefuted

theorem exists_clause_of_atom {e : Expression} (hatom : clauses e = [.ofConjuncts [e]])
    (h : e.holds m = .ok true) :
    ∃ c ∈ clauses e, ∀ q ∈ c.conjuncts, q.holds m = .ok true := by
  rw [hatom]
  refine ⟨_, List.mem_singleton_self _, fun q hq => ?_⟩
  rw [List.mem_singleton.mp hq]
  exact h

mutual

/-- **Where no predicate of a clause is false, the expression is not.** -/
theorem not_false_of_clause (m : Memory) : ∀ e : Expression,
    (∃ c ∈ clauses e, c.Unrefuted m) → e.holds m ≠ .ok false
  | constant v => by
    intro h
    cases v with
    | bool b =>
      cases b with
      | false =>
        obtain ⟨c, hc, -⟩ := h
        exact absurd hc List.not_mem_nil
      | true => exact fun h => Bool.false_ne_true (Except.ok.inj h).symm
    | null | integer n | text s => exact not_false_of_atom rfl h
  | and es => by
    rintro ⟨c, hc, hunrefuted⟩
    rw [clauses] at hc
    rw [holds_and]
    exact not_false_of_clauseOfAll m es ⟨c, hc, hunrefuted⟩
  | or es => by
    rintro ⟨c, hc, hunrefuted⟩
    rw [clauses] at hc
    rw [holds_or]
    exact not_false_of_clauseOfAny m es ⟨c, hc, hunrefuted⟩
  | optional e => fun _ h => Bool.false_ne_true (Except.ok.inj h).symm
  | accessor x => fun h => not_false_of_atom rfl h
  | not e => fun h => not_false_of_atom rfl h
  | ignore e => fun h => not_false_of_atom rfl h
  | present e => fun h => not_false_of_atom rfl h
  | compare op l r => fun h => not_false_of_atom rfl h

/-- Where no predicate of a clause of a conjunction is false, the conjunction is not. -/
theorem not_false_of_clauseOfAll (m : Memory) : ∀ es : List Expression,
    (∃ c ∈ clausesOfAll es, c.Unrefuted m) → evalAll m es ≠ .ok false
  | [] => fun _ h => Bool.false_ne_true (Except.ok.inj h).symm
  | e :: es => by
    rintro ⟨c, hc, hunrefuted⟩ h
    rw [clausesOfAll_cons] at hc
    obtain ⟨hleft, hright⟩ := Clause.exists_of_mem_product hc hunrefuted
    have hhead := not_false_of_clause m e hleft
    have htail := not_false_of_clauseOfAll m es hright
    obtain ⟨b, he, hrest⟩ := (evalAll_cons_eq_ok_iff m e es false).mp h
    cases b with
    | false => exact hhead he
    | true => exact htail hrest

/-- Where no predicate of a clause of a disjunction is false, the disjunction is not. -/
theorem not_false_of_clauseOfAny (m : Memory) : ∀ es : List Expression,
    (∃ c ∈ clausesOfAny es, c.Unrefuted m) → evalAny m es ≠ .ok false
  | [] => by
    rintro ⟨c, hc, -⟩
    exact absurd hc List.not_mem_nil
  | e :: es => by
    rintro ⟨c, hc, hunrefuted⟩ h
    rw [clausesOfAny, List.mem_append] at hc
    rw [evalAny_eq_false_iff, List.forall_mem_cons, ← evalAny_eq_false_iff] at h
    rcases hc with hc | hc
    · exact not_false_of_clause m e ⟨c, hc, hunrefuted⟩ h.1
    · exact not_false_of_clauseOfAny m es ⟨c, hc, hunrefuted⟩ h.2

end

mutual

/-- **Where an expression is true, a clause of it is.** -/
theorem exists_clause_of_holds (m : Memory) : ∀ e : Expression, e.holds m = .ok true →
    ∃ c ∈ clauses e, ∀ q ∈ c.conjuncts, q.holds m = .ok true
  | constant v => by
    intro h
    cases v with
    | bool b =>
      obtain rfl := Except.ok.inj h
      exact ⟨.empty, List.mem_singleton_self _, fun q hq => absurd hq List.not_mem_nil⟩
    | null | integer n | text s => exact exists_clause_of_atom rfl h
  | and es => by
    intro h
    rw [holds_and, evalAll_eq_true_iff] at h
    rw [clauses]
    exact exists_clauseOfAll_of_holds m es h
  | or es => by
    intro h
    rw [holds_or] at h
    rw [clauses]
    exact exists_clauseOfAny_of_holds m es (exists_true_of_evalAny h)
  | optional e => fun _ =>
    ⟨.empty, by rw [clauses]; exact List.mem_cons_self, fun q hq => absurd hq List.not_mem_nil⟩
  | accessor x => fun h => exists_clause_of_atom rfl h
  | not e => fun h => exists_clause_of_atom rfl h
  | ignore e => fun h => exists_clause_of_atom rfl h
  | present e => fun h => exists_clause_of_atom rfl h
  | compare op l r => fun h => exists_clause_of_atom rfl h

/-- Where all of these are true, a clause of their conjunction is. -/
theorem exists_clauseOfAll_of_holds (m : Memory) : ∀ es : List Expression,
    (∀ e ∈ es, e.holds m = .ok true) →
      ∃ c ∈ clausesOfAll es, ∀ q ∈ c.conjuncts, q.holds m = .ok true
  | [] => fun _ =>
    ⟨.empty, List.mem_singleton_self _, fun q hq => absurd hq List.not_mem_nil⟩
  | e :: es => by
    intro h
    rw [List.forall_mem_cons] at h
    obtain ⟨a, ha, hatrue⟩ := exists_clause_of_holds m e h.1
    obtain ⟨b, hb, hbtrue⟩ := exists_clauseOfAll_of_holds m es h.2
    rw [clausesOfAll_cons]
    refine ⟨_, Clause.mem_product_iff.mpr ⟨a, ha, b, hb, rfl⟩, fun q hq => ?_⟩
    exact (List.mem_append.mp hq).elim (hatrue q) (hbtrue q)

/-- Where one of these is true, a clause of their disjunction is. -/
theorem exists_clauseOfAny_of_holds (m : Memory) : ∀ es : List Expression,
    (∃ e ∈ es, e.holds m = .ok true) →
      ∃ c ∈ clausesOfAny es, ∀ q ∈ c.conjuncts, q.holds m = .ok true
  | [] => by
    rintro ⟨e, he, -⟩
    exact absurd he List.not_mem_nil
  | e' :: es => by
    have hhead := exists_clause_of_holds m e'
    have htail := exists_clauseOfAny_of_holds m es
    rintro ⟨e, he, htrue⟩
    rw [clausesOfAny]
    rcases List.mem_cons.mp he with rfl | he
    · obtain ⟨c, hc, hctrue⟩ := hhead htrue
      exact ⟨c, List.mem_append_left _ hc, hctrue⟩
    · obtain ⟨c, hc, hctrue⟩ := htail ⟨e, he, htrue⟩
      exact ⟨c, List.mem_append_right _ hc, hctrue⟩

end

/-- **An upright expression is not false** where no predicate of a clause of its
normal form is. -/
theorem not_false_of_clause_negationNormal {e : Expression} (hup : upright false e = true)
    (h : ∃ c ∈ e.negationNormal.clauses, c.Unrefuted m) : e.holds m ≠ .ok false := fun he =>
  not_false_of_clause m e.negationNormal h (holds_nnf m false e hup false he)

/-- **Where an upright expression is true, a clause of its normal form is.** -/
theorem exists_clause_negationNormal {e : Expression} (hup : upright false e = true)
    (h : e.holds m = .ok true) :
    ∃ c ∈ e.negationNormal.clauses, ∀ q ∈ c.conjuncts, q.holds m = .ok true :=
  exists_clause_of_holds m e.negationNormal (holds_nnf m false e hup true h)

/-! ## What the normal forms inherit -/

/-- **A property of an expression and what becomes of it** when negations are pushed
down: `S` passes to the operands that a negation is pushed to, and `T` is had by the
predicates that it ends at and passes from operands to what is made of them. -/
structure Inherited (S T : Expression → Prop) : Prop where
  /-- A constant, which is negated only if it is no truth value. -/
  constant : ∀ v, T (constant v) ∧ (v.asBool? = none → T (not (constant v)))
  /-- A name, negated or not. -/
  accessor : ∀ x, T (accessor x) ∧ T (not (accessor x))
  /-- A negation is pushed down. -/
  operand : ∀ e, S (not e) → S e
  /-- Conjunctions and disjunctions may be exchanged. -/
  operands : ∀ es, S (and es) ∨ S (or es) →
    (∀ e ∈ es, S e) ∧ ∀ fs, (∀ f ∈ fs, T f) → T (and fs) ∧ T (or fs)
  /-- An optional part. -/
  optional : ∀ e, S (optional e) → S e ∧ ∀ f, T f → T (optional f)
  /-- An ignored part. -/
  ignore : ∀ negated e, S (ignore e) → (S e → T (e.nnf negated)) → T (ignore (e.nnf negated))
  /-- A test for a value, negated or not. -/
  present : ∀ e, S (present e) → T (present e) ∧ T (not (present e))
  /-- A comparison, which may take the opposite operator. -/
  compare : ∀ op l r, S (compare op l r) → T (compare op l r) ∧ T (compare op.negate l r)

mutual

/-- **What an expression hands on to its negation normal form.** -/
theorem Inherited.nnf {S T : Expression → Prop} (h : Inherited S T) (negated : Bool) :
    ∀ e : Expression, S e → T (e.nnf negated)
  | .constant v => by
    intro _
    cases v with
    | bool b => exact (h.constant _).1
    | null | integer n | text s =>
      cases negated with
      | false => exact (h.constant _).1
      | true => exact (h.constant _).2 rfl
  | .accessor x => by
    intro _
    cases negated with
    | false => exact (h.accessor x).1
    | true => exact (h.accessor x).2
  | .not e => by
    intro he
    rw [Expression.nnf]
    exact h.nnf (!negated) e (h.operand e he)
  | .and es => by
    intro he
    obtain ⟨hes, hmade⟩ := h.operands es (.inl he)
    have hall := hmade _ (h.nnfAll negated es hes)
    rw [Expression.nnf]
    cases negated with
    | false => exact hall.1
    | true => exact hall.2
  | .or es => by
    intro he
    obtain ⟨hes, hmade⟩ := h.operands es (.inr he)
    have hall := hmade _ (h.nnfAll negated es hes)
    rw [Expression.nnf]
    cases negated with
    | false => exact hall.2
    | true => exact hall.1
  | .optional e => by
    intro he
    rw [Expression.nnf]
    exact (h.optional e he).2 _ (h.nnf negated e (h.optional e he).1)
  | .ignore e => by
    intro he
    rw [Expression.nnf]
    exact h.ignore negated e he (h.nnf negated e)
  | .present e => by
    intro he
    cases negated with
    | false => exact (h.present e he).1
    | true => exact (h.present e he).2
  | .compare op l r => by
    intro he
    cases negated with
    | false => exact (h.compare op l r he).1
    | true => exact (h.compare op l r he).2

/-- The same for all members of a list. -/
theorem Inherited.nnfAll {S T : Expression → Prop} (h : Inherited S T) (negated : Bool) :
    ∀ es : List Expression, (∀ e ∈ es, S e) → ∀ f ∈ Expression.nnfAll negated es, T f
  | [] => fun _ f hf => absurd hf List.not_mem_nil
  | e :: es => by
    intro hes f hf
    rw [List.forall_mem_cons] at hes
    rw [Expression.nnfAll] at hf
    rcases List.mem_cons.mp hf with rfl | hf
    · exact h.nnf negated e hes.1
    · exact h.nnfAll negated es hes.2 f hf

end

/-- **A property that passes to operands** of conjunctions, disjunctions and optional
parts. -/
structure Distributive (P : Expression → Prop) : Prop where
  /-- It passes to the operands of conjunctions and disjunctions. -/
  operands : ∀ es, P (and es) ∨ P (or es) → ∀ e ∈ es, P e
  /-- It passes to an optional part. -/
  optional : ∀ e, P (optional e) → P e

/-- **An atom**: a predicate that is not taken apart into clauses. -/
def isAtom : Expression → Bool
  | and _ | or _ | optional _ | constant (.bool _) => false
  | _ => true

/-- **A clause made of atoms** that have a property, with nothing bound, ignored or
marked. -/
structure MadeOf (P : Expression → Prop) (c : Clause) : Prop where
  /-- There is nothing but predicates to the clause. -/
  plain : c = .ofConjuncts c.conjuncts
  /-- The predicates have the property. -/
  property : ∀ q ∈ c.conjuncts, P q
  /-- They are atoms. -/
  atom : ∀ q ∈ c.conjuncts, q.isAtom = true

theorem madeOf_empty (P : Expression → Prop) : MadeOf P Clause.empty :=
  ⟨rfl, fun _ hq => absurd hq List.not_mem_nil, fun _ hq => absurd hq List.not_mem_nil⟩

/-- The clause of an atom. -/
theorem madeOf_of_atom {P : Expression → Prop} {e : Expression} {c : Clause}
    (hclauses : clauses e = [.ofConjuncts [e]]) (hatom : e.isAtom = true) (he : P e)
    (hc : c ∈ clauses e) : MadeOf P c := by
  rw [hclauses] at hc
  obtain rfl := List.mem_singleton.mp hc
  refine ⟨rfl, fun q hq => ?_, fun q hq => ?_⟩ <;> rw [List.mem_singleton.mp hq]
  · exact he
  · exact hatom

theorem MadeOf.append {P : Expression → Prop} {a b : Clause} (ha : MadeOf P a) (hb : MadeOf P b) :
    MadeOf P (.ofConjuncts (a.conjuncts ++ b.conjuncts)) where
  plain := rfl
  property q hq := (List.mem_append.mp hq).elim (ha.property q) (hb.property q)
  atom q hq := (List.mem_append.mp hq).elim (ha.atom q) (hb.atom q)

mutual

/-- **The clauses of an expression** are made of atoms that have every property of the
expression that passes to operands. -/
theorem Distributive.clauses {P : Expression → Prop} (h : Distributive P) :
    ∀ e : Expression, P e → ∀ c ∈ e.clauses, MadeOf P c
  | .constant v => by
    intro he c hc
    cases v with
    | bool b =>
      cases b with
      | false => exact absurd hc List.not_mem_nil
      | true =>
        rw [List.mem_singleton.mp hc]
        exact madeOf_empty P
    | null | integer n | text s => exact madeOf_of_atom rfl rfl he hc
  | .and es => by
    intro he c hc
    rw [Expression.clauses] at hc
    exact h.clausesOfAll es (h.operands es (.inl he)) c hc
  | .or es => by
    intro he c hc
    rw [Expression.clauses] at hc
    exact h.clausesOfAny es (h.operands es (.inr he)) c hc
  | .optional e => by
    intro he c hc
    rw [Expression.clauses] at hc
    rcases List.mem_cons.mp hc with rfl | hc
    · exact madeOf_empty P
    · exact h.clauses e (h.optional e he) c hc
  | .accessor x => fun he c hc => madeOf_of_atom rfl rfl he hc
  | .not e => fun he c hc => madeOf_of_atom rfl rfl he hc
  | .ignore e => fun he c hc => madeOf_of_atom rfl rfl he hc
  | .present e => fun he c hc => madeOf_of_atom rfl rfl he hc
  | .compare op l r => fun he c hc => madeOf_of_atom rfl rfl he hc

/-- The same for the clauses of a conjunction. -/
theorem Distributive.clausesOfAll {P : Expression → Prop} (h : Distributive P) :
    ∀ es : List Expression, (∀ e ∈ es, P e) → ∀ c ∈ Expression.clausesOfAll es, MadeOf P c
  | [] => by
    intro _ c hc
    rw [List.mem_singleton.mp hc]
    exact madeOf_empty P
  | e :: es => by
    intro hes c hc
    rw [List.forall_mem_cons] at hes
    rw [clausesOfAll_cons] at hc
    obtain ⟨a, ha, b, hb, rfl⟩ := Clause.mem_product_iff.mp hc
    exact (h.clauses e hes.1 a ha).append (h.clausesOfAll es hes.2 b hb)

/-- The same for the clauses of a disjunction. -/
theorem Distributive.clausesOfAny {P : Expression → Prop} (h : Distributive P) :
    ∀ es : List Expression, (∀ e ∈ es, P e) → ∀ c ∈ Expression.clausesOfAny es, MadeOf P c
  | [] => fun _ c hc => absurd hc List.not_mem_nil
  | e :: es => by
    intro hes c hc
    rw [List.forall_mem_cons] at hes
    rw [Expression.clausesOfAny, List.mem_append] at hc
    rcases hc with hc | hc
    · exact h.clauses e hes.1 c hc
    · exact h.clausesOfAny es hes.2 c hc

end

/-- **Every clause of an expression is plain.** -/
theorem eq_ofConjuncts_of_mem_clauses {e : Expression} {c : Clause} (hc : c ∈ e.clauses) :
    c = .ofConjuncts c.conjuncts := by
  have htrivial : Distributive fun _ => True := ⟨fun _ _ _ _ => trivial, fun _ _ => trivial⟩
  exact (htrivial.clauses e trivial c hc).plain

end Expression

end Specificity
