import Specificity.Proofs.Evaluation
import Specificity.Proofs.Renaming
import Specificity.Quantifier

/-!
# What quantifiers mean

A clause about a variable that is bound to a name is the clause in the memory where the
variable has the value of that name. So the copies of a clause that a quantifier makes,
one for each binding, are to be read as the one clause in as many memories: under *any*
a copy is true exactly if the clause is true in one of them, under *all* the one clause
that comes out is true exactly if the clause is true in each (`Quantifier.expand_means`).

Both expansions end as soon as a copy reports that it did not meet the variable. Whether
it does has nothing to do with the binding, so either all of them are made or the first
alone, and that one changed nothing (`Quantifier.copies_of_mentions`,
`Quantifier.copies_of_not_mentions`).
-/

namespace Specificity

/-! ## Clauses and lists of predicates in another memory -/

namespace Expression

variable {m : Memory} {e : Expression} {es : List Expression} {x y : String}

/-- Renaming in all members of a list reports whether one of them mentions the name. -/
theorem snd_renameAll_eq_mentionsAny (x y : String) (es : List Expression) :
    (renameAll x y es).2 = mentionsAny x es := by
  rw [snd_renameAll, mentionsAny_eq_any]
  exact List.any_congr rfl fun e => snd_rename x y e

/-- Members that do not mention the name are left as they are. -/
theorem renameAll_eq_self (h : mentionsAny x es = false) (y : String) :
    (renameAll x y es).1 = es := by
  rw [mentionsAny_eq_any, List.any_eq_false] at h
  rw [fst_renameAll, List.map_congr_left fun e he =>
    rename_eq_self (Bool.eq_false_iff.mpr (h e he)) y]
  exact List.map_id es

/-- **Renaming in a conjunction is setting the name.** -/
theorem evalAll_renameAll (m : Memory) (x y : String) (es : List Expression) :
    evalAll m (renameAll x y es).1 = evalAll (m.set x (m.get y)) es := by
  rw [fst_renameAll]
  exact evalAll_map_congr fun e _ => eval_rename m x y e

theorem holds_rename (m : Memory) (x y : String) (e : Expression) :
    (e.rename x y).1.holds m = e.holds (m.set x (m.get y)) := by
  rw [holds, holds, eval_rename]

/-- The value of a name that is not mentioned does not matter. -/
theorem holds_set_of_not_mentions (h : e.mentions x = false) (m : Memory) (y : String) :
    e.holds (m.set x (m.get y)) = e.holds m := by
  rw [← holds_rename, rename_eq_self h]

theorem evalAll_set_of_not_mentions (h : mentionsAny x es = false) (m : Memory) (y : String) :
    evalAll (m.set x (m.get y)) es = evalAll m es := by
  rw [← evalAll_renameAll, renameAll_eq_self h]

end Expression

namespace Quantifier

variable {m : Memory} {c d : Clause} {p q : Expression} {x : String} {bindings : List String}

/-! ## All copies, or the first alone -/

/-- The clause with `x` renamed in its predicates. -/
def renamed (x b : String) (c : Clause) : Clause :=
  { c with conjuncts := (Expression.renameAll x b c.conjuncts).1 }

theorem copies_cons (x b : String) (c : Clause) (bindings : List String) :
    copies x c (b :: bindings) =
      if Expression.mentionsAny x c.conjuncts
      then (renamed x b c).withBinding x b :: copies x c bindings else [renamed x b c] := by
  rw [← Expression.snd_renameAll_eq_mentionsAny x b]
  rfl

theorem instances_cons (x b : String) (p : Expression) (bindings : List String) :
    instances x p (b :: bindings) =
      if p.mentions x then (p.rename x b).1 :: instances x p bindings else [(p.rename x b).1] := by
  rw [← Expression.snd_rename x b]
  rfl

/-- **A clause about the variable** is copied for each binding. -/
theorem copies_of_mentions (h : Expression.mentionsAny x c.conjuncts = true)
    (bindings : List String) :
    copies x c bindings = bindings.map fun b => (renamed x b c).withBinding x b := by
  induction bindings with
  | nil => rfl
  | cons b bindings ih => rw [copies_cons, if_pos h, ih, List.map_cons]

/-- A clause that is not about the variable stays as it is. -/
theorem copies_of_not_mentions (h : Expression.mentionsAny x c.conjuncts = false)
    (hne : bindings ≠ []) : copies x c bindings = [c] := by
  obtain ⟨b, bindings, rfl⟩ := List.exists_cons_of_ne_nil hne
  rw [copies_cons, if_neg (Bool.eq_false_iff.mp h), renamed, Expression.renameAll_eq_self h]

/-- **A predicate about the variable** is repeated for each binding. -/
theorem instances_of_mentions (h : p.mentions x = true) (bindings : List String) :
    instances x p bindings = bindings.map fun b => (p.rename x b).1 := by
  induction bindings with
  | nil => rfl
  | cons b bindings ih => rw [instances_cons, if_pos h, ih, List.map_cons]

/-- A predicate that is not about the variable stays as it is. -/
theorem instances_of_not_mentions (h : p.mentions x = false) (hne : bindings ≠ []) :
    instances x p bindings = [p] := by
  obtain ⟨b, bindings, rfl⟩ := List.exists_cons_of_ne_nil hne
  rw [instances_cons, if_neg (Bool.eq_false_iff.mp h), Expression.rename_eq_self h]

/-- **A copy** has renamed predicates, and the binding on record only if the clause is
about the variable. -/
theorem exists_of_mem_copies (h : d ∈ copies x c bindings) :
    ∃ b ∈ bindings, d = (renamed x b c).withBinding x b ∧
      Expression.mentionsAny x c.conjuncts = true ∨ d = c := by
  cases hmentions : Expression.mentionsAny x c.conjuncts with
  | true =>
    rw [copies_of_mentions hmentions] at h
    obtain ⟨b, hb, rfl⟩ := List.mem_map.mp h
    exact ⟨b, hb, .inl ⟨rfl, rfl⟩⟩
  | false =>
    cases bindings with
    | nil => exact absurd h List.not_mem_nil
    | cons b bindings =>
      rw [copies_of_not_mentions hmentions (List.cons_ne_nil _ _)] at h
      exact ⟨b, List.mem_cons_self, .inr (List.mem_singleton.mp h)⟩

/-- An instance is a renamed predicate. -/
theorem exists_of_mem_instances (h : q ∈ instances x p bindings) :
    ∃ b ∈ bindings, q = (p.rename x b).1 := by
  induction bindings with
  | nil => exact absurd h List.not_mem_nil
  | cons b bindings ih =>
    rw [instances_cons] at h
    split at h
    · rcases List.mem_cons.mp h with rfl | h
      · exact ⟨b, List.mem_cons_self, rfl⟩
      · obtain ⟨b', hb', heq⟩ := ih h
        exact ⟨b', List.mem_cons_of_mem _ hb', heq⟩
    · exact ⟨b, List.mem_cons_self, List.mem_singleton.mp h⟩

/-! ## Truth of the expansions -/

/-- **A copy is true** where the clause is with the variable set to the value of the
binding. -/
theorem eval_renamed (m : Memory) (x b : String) (c : Clause) :
    (renamed x b c).eval m = c.eval (m.set x (m.get b)) :=
  Expression.evalAll_renameAll m x b c.conjuncts

/-- **Some copy is true** exactly if the clause is for some binding. -/
theorem exists_copies_iff (hne : bindings ≠ []) (m : Memory) (x : String) (c : Clause) :
    (∃ d ∈ copies x c bindings, d.eval m = .ok true) ↔
      ∃ b ∈ bindings, c.eval (m.set x (m.get b)) = .ok true := by
  cases hmentions : Expression.mentionsAny x c.conjuncts with
  | true =>
    rw [copies_of_mentions hmentions]
    constructor
    · rintro ⟨d, hd, htrue⟩
      obtain ⟨b, hb, rfl⟩ := List.mem_map.mp hd
      exact ⟨b, hb, (eval_renamed m x b c).symm.trans htrue⟩
    · rintro ⟨b, hb, htrue⟩
      exact ⟨_, List.mem_map_of_mem hb, (eval_renamed m x b c).trans htrue⟩
  | false =>
    have hsame : ∀ b, c.eval (m.set x (m.get b)) = c.eval m := fun b =>
      Expression.evalAll_set_of_not_mentions hmentions m b
    obtain ⟨b, hb⟩ := List.exists_mem_of_ne_nil _ hne
    rw [copies_of_not_mentions hmentions hne]
    simp only [hsame, List.mem_singleton, exists_eq_left]
    exact ⟨fun h => ⟨b, hb, h⟩, fun ⟨_, _, h⟩ => h⟩

/-- **All instances are true** exactly if the predicate is for each binding. -/
theorem forall_instances_iff (hne : bindings ≠ []) (m : Memory) (x : String) (p : Expression) :
    (∀ q ∈ instances x p bindings, q.holds m = .ok true) ↔
      ∀ b ∈ bindings, p.holds (m.set x (m.get b)) = .ok true := by
  cases hmentions : p.mentions x with
  | true =>
    rw [instances_of_mentions hmentions, List.forall_mem_map]
    exact forall₂_congr fun b _ => by rw [Expression.holds_rename]
  | false =>
    obtain ⟨b, hb⟩ := List.exists_mem_of_ne_nil _ hne
    rw [instances_of_not_mentions hmentions hne]
    simp only [Expression.holds_set_of_not_mentions hmentions, List.forall_mem_singleton]
    exact ⟨fun h _ _ => h, fun h => h b hb⟩

/-- **The universal expansion is true** exactly if the clause is for each binding. -/
theorem eval_expandUniversal_iff (hne : bindings ≠ []) (m : Memory) (x : String) (c : Clause) :
    (expandUniversal x bindings c).eval m = .ok true ↔
      ∀ b ∈ bindings, c.eval (m.set x (m.get b)) = .ok true := by
  rw [expandUniversal, if_neg fun hempty => hne (List.isEmpty_iff.mp hempty)]
  simp only [Clause.eval, Expression.evalAll_eq_true_iff, List.forall_mem_flatMap,
    forall_instances_iff hne]
  exact ⟨fun h b hb p hp => h p hp b hb, fun h p hp b hb => h b hb p hp⟩

/-- Existential expansion with bindings. -/
theorem expand_existential_of_ne_nil (hne : bindings ≠ []) (x : String) (c : Clause) :
    expand ⟨x, false, bindings⟩ c = copies x c bindings :=
  if_neg fun hempty => hne (List.isEmpty_iff.mp hempty)

/-! ## What the expansions leave alone -/

/-- **Bindings of other variables and the ignored condition** are left alone. -/
theorem kept_of_mem_expand {quantifier : Quantifier} (h : d ∈ quantifier.expand c) :
    (∀ y, y ≠ quantifier.subject → d.bindings.get? y = c.bindings.get? y) ∧
      d.ignored = c.ignored := by
  unfold expand at h
  split at h
  · rw [List.mem_singleton.mp h, expandUniversal]
    split <;> exact ⟨fun _ _ => rfl, rfl⟩
  · unfold expandExistential at h
    split at h
    · split at h
      · exact absurd h List.not_mem_nil
      · rw [List.mem_singleton.mp h]
        exact ⟨fun _ _ => rfl, rfl⟩
    · obtain ⟨b, -, ⟨rfl, -⟩ | rfl⟩ := exists_of_mem_copies h
      · exact ⟨fun y hy => (NameMap.get?_set _ _ _ _).trans (if_neg hy), rfl⟩
      · exact ⟨fun _ _ => rfl, rfl⟩

/-- **What a quantifier makes of a clause** about the variable `x`. -/
structure Meaning (x : String) (bindings : List String) (c : Clause) : Prop where
  /-- With bindings, *any* gives a true clause exactly where the clause is true for one
  of them. -/
  any_iff : bindings ≠ [] → ∀ m,
    (∃ d ∈ expand ⟨x, false, bindings⟩ c, d.eval m = .ok true) ↔
      ∃ b ∈ bindings, c.eval (m.set x (m.get b)) = .ok true
  /-- With bindings, *all* gives one clause, true exactly where the clause is true for
  each of them. -/
  all_iff : bindings ≠ [] → ∃ d, expand ⟨x, true, bindings⟩ c = [d] ∧ ∀ m,
    d.eval m = .ok true ↔ ∀ b ∈ bindings, c.eval (m.set x (m.get b)) = .ok true
  /-- Without bindings, *any* gives a true clause exactly where the clause is true, and not
  about the variable. -/
  any_nil_iff : bindings = [] → ∀ m,
    (∃ d ∈ expand ⟨x, false, bindings⟩ c, d.eval m = .ok true) ↔
      (∀ p ∈ c.conjuncts, p.mentions x = false) ∧ c.eval m = .ok true
  /-- Without bindings, *all* gives one clause, true exactly where the predicates not about
  the variable are. -/
  all_nil_iff : bindings = [] → ∃ d, expand ⟨x, true, bindings⟩ c = [d] ∧ ∀ m,
    d.eval m = .ok true ↔ ∀ p ∈ c.conjuncts, p.mentions x = false → p.holds m = .ok true
  /-- Of a clause about the variable *any* makes one clause for each binding, in their
  order, with the binding on record. -/
  records : (∃ p ∈ c.conjuncts, p.mentions x = true) →
    (expand ⟨x, false, bindings⟩ c).map (fun d => d.bindings.get? x) = bindings.map some
  /-- Other bindings and the ignored condition are left alone. -/
  kept : ∀ universal, ∀ d ∈ expand ⟨x, universal, bindings⟩ c,
    (∀ y, y ≠ x → d.bindings.get? y = c.bindings.get? y) ∧ d.ignored = c.ignored

/-- **Expanding a clause means what the quantifier says.** -/
theorem expand_means (x : String) (bindings : List String) (c : Clause) :
    Meaning x bindings c where
  any_iff hne m := by
    rw [expand_existential_of_ne_nil hne]
    exact exists_copies_iff hne m x c
  all_iff hne := ⟨_, rfl, fun m => eval_expandUniversal_iff hne m x c⟩
  any_nil_iff hnil m := by
    subst hnil
    have hexpand : expand ⟨x, false, []⟩ c =
        if Expression.mentionsAny x c.conjuncts then [] else [c] := rfl
    rw [hexpand]
    cases hmentions : Expression.mentionsAny x c.conjuncts with
    | true =>
      rw [Expression.mentionsAny_eq_any, List.any_eq_true] at hmentions
      obtain ⟨p, hp, hpx⟩ := hmentions
      refine ⟨fun ⟨d, hd, _⟩ => absurd hd List.not_mem_nil, fun h => ?_⟩
      exact absurd ((h.1 p hp).symm.trans hpx) Bool.false_ne_true
    | false =>
      rw [Expression.mentionsAny_eq_any, List.any_eq_false] at hmentions
      simp only [Bool.false_eq_true, if_false, List.mem_singleton, exists_eq_left]
      exact ⟨fun h => ⟨fun p hp => Bool.eq_false_iff.mpr (hmentions p hp), h⟩, And.right⟩
  all_nil_iff hnil := by
    subst hnil
    refine ⟨_, rfl, fun m => ?_⟩
    show Expression.evalAll m (c.conjuncts.filter fun p => !p.mentions x) = .ok true ↔ _
    simp only [Expression.evalAll_eq_true_iff, List.mem_filter, Bool.not_eq_true', and_imp]
  records h := by
    have hmentions : Expression.mentionsAny x c.conjuncts = true := by
      rw [Expression.mentionsAny_eq_any, List.any_eq_true]
      exact h
    cases bindings with
    | nil =>
      show List.map _ (if Expression.mentionsAny x c.conjuncts then [] else [c]) = []
      rw [if_pos hmentions, List.map_nil]
    | cons b bindings =>
      rw [expand_existential_of_ne_nil (List.cons_ne_nil _ _), copies_of_mentions hmentions,
        List.map_map]
      exact List.map_congr_left fun b _ => (NameMap.get?_set _ _ _ _).trans (if_pos rfl)
  kept _ _ hd := kept_of_mem_expand hd

end Quantifier

end Specificity
