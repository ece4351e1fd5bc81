import Specificity.Proofs.Fingerprints
import Specificity.Proofs.Negations
import Specificity.Proofs.Predicates

/-!
# The form of the clauses of a trigger

However a condition was written, the clauses of its trigger are conjunctions of literals:
predicates that are neither connectives nor markers nor truth values, negated only where a
negation can go no further. No two literals of a clause are equal to each other, and what
a clause records as bound was offered by a quantifier.

The passes do not establish this one after the other. That predicates are literals is
settled by the normal forms, and quantifiers, which put names in the place of names, leave
it so (`Expression.stable_isLiteral`). But they can make predicates alike that were not, and
repeat them, so that the first dropping of repetitions is in vain; it is the second one, past
the quantifiers, that tells the predicates of a clause apart. Nothing after it changes a
predicate. Under a registry of bounds alike is as much as equal, so being told apart by
likeness suffices.
-/

namespace Specificity

/-! ## Literals -/

namespace Expression

variable {p f : Expression}

/-- **A literal**: a predicate that is not taken apart into clauses, and whose negation,
if it is one, has ended. -/
def IsLiteral (p : Expression) : Prop :=
  p.isAtom = true ∧ ∀ f, p = not f → f.staysNegated = true

/-- Renaming leaves atoms atoms. -/
theorem isAtom_rename (x y : String) (p : Expression) : (p.rename x y).1.isAtom = p.isAtom := by
  cases p with
  | accessor z =>
    rw [rename]
    split <;> rfl
  | _ => rfl

/-- Renaming does not let a negation go on. -/
theorem staysNegated_rename (x y : String) (f : Expression) :
    (f.rename x y).1.staysNegated = f.staysNegated := by
  cases f with
  | accessor z =>
    rw [rename]
    split <;> rfl
  | _ => rfl

/-- What is a negation after a renaming was one before. -/
theorem exists_not_of_rename {x y : String} (h : (p.rename x y).1 = not f) :
    ∃ g, p = not g ∧ f = (g.rename x y).1 := by
  have hkind : p.kind = .not := by rw [← kind_rename x y p, h, kind]
  cases p with
  | not g => exact ⟨g, rfl, (not.inj h).symm⟩
  | _ => exact Kind.noConfusion hkind

/-- **Renaming leaves literals literals.** -/
theorem stable_isLiteral : Stable IsLiteral := by
  rintro x y p ⟨hatom, hends⟩
  refine ⟨(isAtom_rename x y p).trans hatom, fun f hf => ?_⟩
  obtain ⟨g, rfl, rfl⟩ := exists_not_of_rename hf
  exact (staysNegated_rename x y g).trans (hends g rfl)

/-- That negations have ended passes to operands. -/
theorem distributive_negationsEnd : Distributive NegationsEnd where
  operands _ h e he := h.elim (fun h => ((negationsEnd_iff _).mp h).2 rfl e he)
    fun h => ((negationsEnd_iff _).mp h).2 rfl e he
  optional e h := ((negationsEnd_iff _).mp h).2 rfl e List.mem_cons_self

/-- **The clauses of a normal form consist of literals.** -/
theorem allConjuncts_isLiteral {e : Expression} {c : Clause}
    (hc : c ∈ e.negationNormal.clauses) : c.AllConjuncts IsLiteral := by
  have hmade := distributive_negationsEnd.clauses _ (negationsEnd_negationNormal e) c hc
  exact fun p hp => ⟨hmade.atom p hp, ((negationsEnd_iff p).mp (hmade.property p hp)).1⟩

/-- What a literal is not, kind by kind. -/
theorem IsLiteral.kind_notMem (h : p.IsLiteral) :
    p.kind ∉ [Kind.and, .or, .optional] ∧ p.asBool? = none := by
  obtain ⟨hatom, -⟩ := h
  cases p with
  | constant v =>
    cases v with
    | bool b => exact absurd hatom Bool.false_ne_true
    | null | integer n | text s => exact ⟨by simp [kind], rfl⟩
  | and es | or es | optional e => exact absurd hatom Bool.false_ne_true
  | accessor x | not f | ignore e | present e | compare op l r => exact ⟨by simp [kind], rfl⟩

end Expression

/-! ## Predicates told apart -/

/-- **Kept members are told apart**: none is the same as an earlier one. -/
theorem pairwise_keepFirst {α : Type} (same : α → α → Bool) (items : List α) :
    (keepFirst same items).Pairwise fun x y => same x y = false := by
  suffices hfold : ∀ kept : List α, (kept.Pairwise fun x y => same x y = false) →
      (items.foldl (fun kept x => if kept.any fun y => same y x then kept else kept ++ [x])
        kept).Pairwise fun x y => same x y = false from hfold [] .nil
  induction items with
  | nil => exact fun _ hkept => hkept
  | cons x items ih =>
    intro kept hkept
    rw [List.foldl_cons]
    refine ih _ ?_
    split
    · exact hkept
    · next hnone =>
      refine List.pairwise_append.mpr ⟨hkept, List.pairwise_singleton _ _, fun y hy z hz => ?_⟩
      rw [List.mem_singleton.mp hz]
      exact Bool.eq_false_iff.mpr fun hsame => hnone (List.any_eq_true.mpr ⟨y, hy, hsame⟩)

namespace Clause

variable {cs : Comparers} {c d : Clause} {qs : List Quantifier} {x b : String}

/-- **After repetitions were dropped** no two predicates of a clause are alike. -/
theorem pairwise_distinct (digest : Digest) (c : Clause) :
    (c.distinct digest).conjuncts.Pairwise fun p q => p.alike q = false := by
  rw [distinct, keepFirstBy_eq_keepFirst fun p q h => digest.ofExpression_eq_of_alike h]
  exact pairwise_keepFirst _ _

/-! ## Recorded bindings -/

/-- **What a clause records as bound** is a name that some *any* of the list offers for the
variable. -/
def BoundBy (qs : List Quantifier) (c : Clause) : Prop :=
  ∀ x b, c.bindings.get? x = some b →
    ∃ q ∈ qs, q.universal = false ∧ q.subject = x ∧ b ∈ q.bindings

/-- An expansion records nothing but what its own quantifier offers. -/
theorem get?_bindings_of_mem_expand {q : Quantifier} (hd : d ∈ q.expand c)
    (hb : d.bindings.get? x = some b) :
    c.bindings.get? x = some b ∨ q.universal = false ∧ q.subject = x ∧ b ∈ q.bindings := by
  by_cases hx : x = q.subject
  · subst hx
    unfold Quantifier.expand at hd
    split at hd
    · rw [List.mem_singleton.mp hd, Quantifier.expandUniversal] at hb
      left
      split at hb <;> exact hb
    · next hany =>
      unfold Quantifier.expandExistential at hd
      split at hd
      · split at hd
        · exact absurd hd List.not_mem_nil
        · rw [List.mem_singleton.mp hd] at hb
          exact .inl hb
      · obtain ⟨offered, hoffered, ⟨rfl, -⟩ | rfl⟩ := Quantifier.exists_of_mem_copies hd
        · have hbound := (NameMap.get?_set _ _ _ _).symm.trans hb
          rw [if_pos rfl] at hbound
          rw [← Option.some.inj hbound]
          exact .inr ⟨Bool.eq_false_iff.mpr hany, rfl, hoffered⟩
        · exact .inl hb
  · rw [(Quantifier.kept_of_mem_expand hd).1 x hx] at hb
    exact .inl hb

/-- Expanding by a quantifier of the list keeps the bindings those of the list. -/
theorem BoundBy.expand (h : c.BoundBy qs) {q : Quantifier} (hq : q ∈ qs) :
    ∀ d ∈ q.expand c, d.BoundBy qs := fun _ hd x b hb => by
  rcases get?_bindings_of_mem_expand hd hb with hb | hoffered
  · exact h x b hb
  · exact ⟨q, hq, hoffered⟩

/-- Where nothing is bound there is nothing to ask. -/
theorem boundBy_of_mem_clauses {e : Expression} (hc : c ∈ e.clauses) (digest : Digest) :
    (c.distinct digest).BoundBy qs := fun x b hb => by
  have hnone : c.bindings.get? x = none := by
    rw [Expression.eq_ofConjuncts_of_mem_clauses hc]
    rfl
  exact (Option.some_ne_none b (hb.symm.trans hnone)).elim

/-! ## Clausal form -/

/-- **A clause in clausal form**, as a trigger under the quantifiers `qs` should have it. -/
structure Normal (cs : Comparers) (qs : List Quantifier) (c : Clause) : Prop where
  /-- The predicates are no connectives, markers or truth values. -/
  kinds : ∀ p ∈ c.conjuncts, p.kind ∉ [.and, .or, .optional, .ignore] ∧ p.asBool? = none
  /-- Negations stand above names, tests for values, and constants that are no truth values. -/
  negations : ∀ p ∈ c.conjuncts, ∀ f, p = .not f → f.staysNegated = true
  /-- No two predicates are equal. -/
  apart : c.conjuncts.Pairwise fun p q => cs.relate p q ≠ .equal ∧ cs.relate q p ≠ .equal
  /-- What is recorded as bound was offered by a quantifier. -/
  bound : c.BoundBy qs

end Clause

namespace Trigger

variable {α : Type} {cs : Comparers}

/-- **All clauses of a built trigger are in clausal form**, the subsumed ones included. -/
theorem build_in_clausal_form (hcs : cs.BoundsOnly) (id : TriggerId) (e : Expression)
    (action : α) (qs : List Quantifier) :
    ∀ c ∈ (build cs [] id e action qs).clauses, c.Normal cs qs := by
  intro c hc
  obtain ⟨d, hd, marked, rfl⟩ := exists_expanded_of_mem_clausesOf hc
  have hgenerated : ∀ d ∈ e.negationNormal.clauses.map (Clause.distinct .standard),
      d.AllConjuncts Expression.IsLiteral ∧ d.BoundBy qs :=
    List.forall_mem_map.mpr fun c hc =>
      ⟨(Expression.allConjuncts_isLiteral hc).distinct .standard,
        Clause.boundBy_of_mem_clauses hc .standard⟩
  have hexpanded : d.AllConjuncts Expression.IsLiteral ∧ d.BoundBy qs :=
    Clause.forall_mem_expandAll (fun q hq c hc d hd =>
      ⟨hc.1.expand Expression.stable_isLiteral q d hd, hc.2.expand hq d hd⟩) hgenerated d hd
  have hkept : ∀ p ∈ ({ d.distinct .standard with subsumed := marked } : Clause).withdrawIgnored
      |>.conjuncts, p ∈ (d.distinct .standard).conjuncts ∧ p.kind ≠ .ignore := fun p hp => by
    obtain ⟨hp, hkind⟩ := List.mem_filter.mp hp
    exact ⟨hp, of_decide_eq_true hkind⟩
  have hliteral := hexpanded.1.distinct .standard
  refine ⟨fun p hp => ?_, fun p hp => (hliteral p (hkept p hp).1).2, ?_, hexpanded.2⟩
  · obtain ⟨hp, hignore⟩ := hkept p hp
    obtain ⟨hkind, hbool⟩ := (hliteral p hp).kind_notMem
    refine ⟨fun hmem => ?_, hbool⟩
    rcases List.mem_append (s := [Expression.Kind.and, .or, .optional]).mp hmem with hmem | hmem
    · exact hkind hmem
    · exact hignore (List.mem_singleton.mp hmem)
  · -- equal is as much as alike, and setting predicates aside only drops some
    refine ((d.pairwise_distinct .standard).filter _).imp fun {p q} hpq => ?_
    rw [Ne, Ne, Comparers.relate_eq_equal_iff hcs, Comparers.relate_eq_equal_iff hcs,
      Expression.alike_comm q p, hpq]
    exact ⟨Bool.false_ne_true, Bool.false_ne_true⟩

/-- A bound on `x` beside the same one on `y`, which a quantifier puts in the place of `x`:
the two become one predicate, and the test that was negated with them stays negated. The
clause is subsumed by that of the bound on `y` alone. -/
theorem build_in_clausal_form_renamed :
    let cs := Comparers.empty.registerBounds
    let below (name : String) := Expression.compare .less (.accessor name) (.constant (.integer 3))
    let e : Expression := .or [.and [below "x",
      .not (.or [.not (below "y"), .present (.accessor "x")])], below "y"]
    let qs : List Quantifier := [⟨"x", false, ["y"]⟩]
    let narrow : Clause := ⟨[below "y", .not (.present (.accessor "y"))],
      NameMap.empty.set "x" "y", none, true⟩
    cs.BoundsOnly ∧
      (build cs [] default e 1 qs).clauses = [narrow, .ofConjuncts [below "y"]] ∧
      narrow.Normal cs qs := by
  intro cs below e qs narrow
  have hcs : cs.BoundsOnly := Comparers.boundsOnly_registerBounds
  have hclauses : (build cs [] default e 1 qs).clauses = [narrow, .ofConjuncts [below "y"]] := by
    decide +kernel
  refine ⟨hcs, hclauses, build_in_clausal_form hcs default e 1 qs narrow ?_⟩
  rw [hclauses]
  exact List.mem_cons_self

end Trigger

end Specificity
