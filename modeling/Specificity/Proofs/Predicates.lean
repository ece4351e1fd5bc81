import Specificity.Proofs.Antichain
import Specificity.Proofs.Certainty
import Specificity.Proofs.Expansion

/-!
# Where the predicates of a clause come from

Every predicate of a trigger's clauses is one of the normal form of its condition, but
for the names that quantifiers put in the place of others. No other pass changes a
predicate; they only drop, mark and set aside. So a property that renaming keeps needs
to be shown of the normal form alone (`Trigger.exists_of_mem_clausesOf`).

Two such properties are used: of an expression without ignored parts no clause carries
an ignored condition, and of a shallow one all predicates are simple.
-/

namespace Specificity

namespace Expression

variable {e : Expression} {es : List Expression}

/-! ## Renaming -/

/-- Renaming makes no conjunction or disjunction. -/
theorem simple_rename (x y : String) (e : Expression) (h : e.simple = true) :
    (e.rename x y).1.simple = true := by
  cases e with
  | constant v => exact h
  | accessor z =>
    rw [rename]
    split <;> rfl
  | and es => exact absurd h Bool.false_ne_true
  | or es => exact absurd h Bool.false_ne_true
  | not e => exact simple_rename x y e h
  | optional e => exact simple_rename x y e h
  | ignore e => exact simple_rename x y e h
  | present e => exact simple_rename x y e h
  | compare op l r =>
    rw [simple, Bool.and_eq_true] at h
    show ((l.rename x y).1.simple && (r.rename x y).1.simple) = true
    rw [simple_rename x y l h.1, simple_rename x y r h.2]
    rfl

/-! ## Ignored parts -/

mutual

/-- **Nothing is ignored**: negations, conjunctions, disjunctions and optional parts lead
to no ignored part. -/
def heedsAll : Expression → Bool
  | ignore _ => false
  | not e | optional e => heedsAll e
  | and es | or es => heedsAllOf es
  | constant _ | accessor _ | present _ | compare _ _ _ => true

/-- The same for all members of a list. -/
def heedsAllOf : List Expression → Bool
  | [] => true
  | e :: es => heedsAll e && heedsAllOf es

end

theorem heedsAllOf_iff (es : List Expression) :
    heedsAllOf es = true ↔ ∀ e ∈ es, e.heedsAll = true :=
  forall_of_asked rfl (fun _ _ => rfl) es

/-- Pushing negations down ignores nothing. -/
theorem inherited_heedsAll : Inherited (·.heedsAll = true) (·.heedsAll = true) where
  constant _ := ⟨rfl, fun _ => rfl⟩
  accessor _ := ⟨rfl, rfl⟩
  operand e h := by rwa [heedsAll] at h
  operands es h := by
    rw [heedsAll, heedsAll, or_self_iff, heedsAllOf_iff] at h
    refine ⟨h, fun fs hfs => ?_⟩
    rw [heedsAll, heedsAll, heedsAllOf_iff]
    exact ⟨hfs, hfs⟩
  optional e h := ⟨by rwa [heedsAll] at h, fun f hf => by rwa [heedsAll]⟩
  ignore _ _ h := absurd h Bool.false_ne_true
  present _ _ := ⟨rfl, rfl⟩
  compare _ _ _ _ := ⟨rfl, rfl⟩

theorem distributive_heedsAll : Distributive (·.heedsAll = true) where
  operands es h := by rwa [heedsAll, heedsAll, or_self_iff, heedsAllOf_iff] at h
  optional e h := by rwa [heedsAll] at h

/-- An expression that ignores nothing is no ignored part. -/
theorem kind_ne_ignore (h : e.heedsAll = true) : e.kind ≠ .ignore := by
  cases e with
  | ignore e => exact absurd h Bool.false_ne_true
  | _ => exact Kind.noConfusion

end Expression

/-! ## Through the passes -/

/-- **A property that renaming keeps.** -/
def Expression.Stable (P : Expression → Prop) : Prop := ∀ x y p, P p → P (p.rename x y).1

namespace Clause

variable {P : Expression → Prop} {c d : Clause}

/-- Do all predicates of the clause have the property? -/
def AllConjuncts (P : Expression → Prop) (c : Clause) : Prop := ∀ p ∈ c.conjuncts, P p

theorem AllConjuncts.mono (h : c.AllConjuncts P) (hsub : d.conjuncts ⊆ c.conjuncts) :
    d.AllConjuncts P := fun p hp => h p (hsub hp)

theorem AllConjuncts.distinct (digest : Digest) (h : c.AllConjuncts P) :
    (c.distinct digest).AllConjuncts P := fun p hp => h p (mem_of_mem_keepFirstBy hp)

/-- The clause for each binding renames the predicates. -/
theorem AllConjuncts.copies (hP : Expression.Stable P) (h : c.AllConjuncts P) (x : String)
    (bindings : List String) : ∀ d ∈ Quantifier.copies x c bindings, d.AllConjuncts P := by
  intro d hd
  obtain ⟨b, -, ⟨rfl, -⟩ | rfl⟩ := Quantifier.exists_of_mem_copies hd
  · intro p hp
    have hp : p ∈ (Expression.renameAll x b c.conjuncts).1 := hp
    rw [Expression.fst_renameAll] at hp
    obtain ⟨q, hq, rfl⟩ := List.mem_map.mp hp
    exact hP x b q (h q hq)
  · exact h

/-- The predicate for each binding is renamed. -/
theorem of_mem_instances (hP : Expression.Stable P) {p : Expression} (hp : P p) (x : String)
    (bindings : List String) : ∀ q ∈ Quantifier.instances x p bindings, P q := by
  intro q hq
  obtain ⟨b, -, rfl⟩ := Quantifier.exists_of_mem_instances hq
  exact hP x b p hp

/-- **Expanding a clause** by a quantifier renames its predicates at most. -/
theorem AllConjuncts.expand (hP : Expression.Stable P) (h : c.AllConjuncts P) (q : Quantifier) :
    ∀ d ∈ q.expand c, d.AllConjuncts P := by
  intro d hd
  unfold Quantifier.expand at hd
  split at hd
  · rw [List.mem_singleton.mp hd]
    unfold Quantifier.expandUniversal
    split
    · exact h.mono (List.filter_subset_self _)
    · intro p hp
      obtain ⟨p', hp', hmem⟩ := List.mem_flatMap.mp hp
      exact of_mem_instances hP (h p' hp') _ _ p hmem
  · unfold Quantifier.expandExistential at hd
    split at hd
    · split at hd
      · exact absurd hd List.not_mem_nil
      · rw [List.mem_singleton.mp hd]
        exact h
    · exact h.copies hP _ _ d hd

/-- **What every expansion keeps** of a clause, expanding by several quantifiers keeps. -/
theorem forall_mem_expandAll {K : Clause → Prop} {qs : List Quantifier} {ds : List Clause}
    (hexpand : ∀ q ∈ qs, ∀ c, K c → ∀ d ∈ q.expand c, K d) (h : ∀ d ∈ ds, K d) :
    ∀ d ∈ qs.foldl (fun clauses q => clauses.flatMap q.expand) ds, K d := by
  induction qs generalizing ds with
  | nil => exact h
  | cons q qs ih =>
    rw [List.forall_mem_cons] at hexpand
    refine ih hexpand.2 fun d hd => ?_
    obtain ⟨c, hc, hd⟩ := List.mem_flatMap.mp hd
    exact hexpand.1 c (h c hc) d hd

end Clause

namespace Trigger

variable {α : Type} {cs : Comparers} {e : Expression} {qs : List Quantifier} {c : Clause}

/-- **The passes of a clause**: it was generated from the normal form, lost its repeated
predicates, was expanded, lost its repeated predicates again, and was perhaps marked. -/
theorem exists_expanded_of_mem_clausesOf (hc : c ∈ clausesOf cs [] e qs) :
    ∃ d ∈ qs.foldl (fun clauses q => clauses.flatMap q.expand)
        (e.negationNormal.clauses.map (Clause.distinct .standard)),
      ∃ marked, c = { d.distinct .standard with subsumed := marked }.withdrawIgnored := by
  unfold clausesOf at hc
  obtain ⟨c₁, hc₁, rfl⟩ := List.mem_map.mp hc
  obtain ⟨c₂, hc₂, heq⟩ := Clause.mem_of_mem_subsume hc₁
  obtain ⟨d, hd, rfl⟩ := List.mem_map.mp (mem_of_mem_keepFirstBy hc₂)
  exact ⟨d, hd, c₁.subsumed, by rw [← heq]⟩

/-- **What the predicates of the normal form have in common** and renaming keeps, those
of every clause have in common, before ignored predicates are set aside. -/
theorem exists_of_mem_clausesOf {P : Expression → Prop} (hP : Expression.Stable P)
    (h : ∀ d ∈ e.negationNormal.clauses, d.AllConjuncts P) (hc : c ∈ clausesOf cs [] e qs) :
    ∃ d : Clause, c = d.withdrawIgnored ∧ d.AllConjuncts P := by
  obtain ⟨d, hd, marked, rfl⟩ := exists_expanded_of_mem_clausesOf hc
  have hexpanded : d.AllConjuncts P := by
    refine Clause.forall_mem_expandAll (fun q _ c hc => hc.expand hP q) (fun d hd => ?_) d hd
    obtain ⟨d', hd', rfl⟩ := List.mem_map.mp hd
    exact (h d' hd').distinct .standard
  exact ⟨_, rfl, hexpanded.distinct .standard⟩

/-- **Of an expression that ignores nothing** no clause has an ignored condition. -/
theorem unconditional_build (he : e.heedsAll = true) (id : TriggerId) (action : α) :
    (build cs [] id e action qs).Unconditional := by
  intro c hc
  have hgenerated : ∀ d ∈ e.negationNormal.clauses,
      d.AllConjuncts fun p => p.kind ≠ .ignore := fun d hd p hp =>
    Expression.kind_ne_ignore ((Expression.distributive_heedsAll.clauses _
      (Expression.inherited_heedsAll.nnf false e he) d hd).property p hp)
  obtain ⟨d, rfl, hd⟩ := exists_of_mem_clausesOf
    (fun x y p hp => by rwa [Expression.kind_rename]) hgenerated (List.mem_filter.mp hc).1
  exact (Clause.ignored_withdrawIgnored_eq_none_iff d).mpr hd

/-- **Of a shallow expression** all clauses consist of simple predicates. -/
theorem simple_of_mem_build (he : e.shallow = true) (id : TriggerId) (action : α)
    (hc : c ∈ (build cs [] id e action qs).active) :
    c.AllConjuncts (·.simple = true) := by
  have hgenerated : ∀ d ∈ e.negationNormal.clauses, d.AllConjuncts (·.simple = true) :=
    fun d hd p hp => by
      have hmade := Expression.distributive_crisp.clauses _
        (Expression.inherited_crisp.nnf false e he) d hd
      exact Expression.simple_of_crisp (hmade.property p hp) (hmade.atom p hp)
  obtain ⟨d, rfl, hd⟩ := exists_of_mem_clausesOf Expression.simple_rename hgenerated
    (List.mem_filter.mp hc).1
  exact hd.mono fun p hp => (List.mem_filter.mp hp).1

end Trigger

end Specificity
