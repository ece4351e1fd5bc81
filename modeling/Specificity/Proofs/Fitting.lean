import Specificity.Proofs.Bounds
import Specificity.Proofs.Predicates

/-!
# Conditions that find a place

An active clause fits below the root if it has a predicate or nothing is bound in it. A
condition may be left without such a clause in three ways: its normal form has no clause,
because a truth value settles it or a disjunction is empty; a quantifier without bindings
expands a clause away, or all its predicates; or the predicates are set aside as ignored.

Where none of these can happen every active clause fits, and there is one
(`Trigger.fits_of_undecided`). Expanding a clause renames predicates and may repeat them,
and it binds a variable only where a predicate mentions it, so a clause of bindings alone
does not come up.
-/

namespace Specificity

/-! ## Normal forms with a clause -/

theorem Clause.product_ne_nil {left right : List Clause} (hleft : left ≠ [])
    (hright : right ≠ []) : product left right ≠ [] := by
  obtain ⟨c, hc⟩ := List.exists_mem_of_ne_nil _ hleft
  obtain ⟨d, hd⟩ := List.exists_mem_of_ne_nil _ hright
  exact List.ne_nil_of_mem (mem_product_iff.mpr ⟨c, hc, d, hd, rfl⟩)

namespace Expression

variable {es : List Expression}

mutual

/-- **Undecided**: the expression states no truth value outright, and no conjunction or
disjunction in it is empty. Optional parts do not matter, since they add a clause. -/
def undecided : Expression → Bool
  | constant v => v.asBool?.isNone
  | not e => undecided e
  | and es | or es => !es.isEmpty && undecidedAll es
  | accessor _ | optional _ | ignore _ | present _ | compare _ _ _ => true

/-- The same for all members of a list. -/
def undecidedAll : List Expression → Bool
  | [] => true
  | e :: es => undecided e && undecidedAll es

end

theorem undecidedAll_iff (es : List Expression) :
    undecidedAll es = true ↔ ∀ e ∈ es, e.undecided = true :=
  forall_of_asked rfl (fun _ _ => rfl) es

/-- A conjunction has a clause if each operand has. -/
theorem clausesOfAll_ne_nil (h : ∀ e ∈ es, e.clauses ≠ []) : clausesOfAll es ≠ [] := by
  induction es with
  | nil => exact List.cons_ne_nil _ _
  | cons e es ih =>
    rw [List.forall_mem_cons] at h
    rw [clausesOfAll_cons]
    exact Clause.product_ne_nil h.1 (ih h.2)

/-- A disjunction has a clause if one operand has. -/
theorem clausesOfAny_ne_nil (hne : es ≠ []) (h : ∀ e ∈ es, e.clauses ≠ []) :
    clausesOfAny es ≠ [] := by
  obtain ⟨e, es, rfl⟩ := List.exists_cons_of_ne_nil hne
  rw [clausesOfAny]
  exact List.append_ne_nil_of_left_ne_nil (h e List.mem_cons_self) _

/-- The normal forms of a list of operands have clauses as a conjunction and, if there is an
operand, as a disjunction. -/
theorem clauses_of_nnfAll {negated : Bool} (hne : es ≠ [])
    (h : ∀ f ∈ nnfAll negated es, f.clauses ≠ []) :
    (and (nnfAll negated es)).clauses ≠ [] ∧ (or (nnfAll negated es)).clauses ≠ [] := by
  rw [clauses, clauses]
  refine ⟨clausesOfAll_ne_nil h, clausesOfAny_ne_nil ?_ h⟩
  rw [nnfAll_eq_map]
  simpa using hne

mutual

/-- **An undecided expression has a clause**, and so has its negation. -/
theorem clauses_nnf_ne_nil (negated : Bool) : ∀ e : Expression, e.undecided = true →
    (e.nnf negated).clauses ≠ []
  | constant v => by
    intro h
    cases v with
    | bool b => exact absurd h Bool.false_ne_true
    | null | integer n | text s => cases negated <;> exact List.cons_ne_nil _ _
  | accessor x => by
    intro _
    cases negated <;> exact List.cons_ne_nil _ _
  | not e => by
    intro h
    rw [nnf]
    exact clauses_nnf_ne_nil (!negated) e h
  | and es => by
    intro h
    rw [undecided, Bool.and_eq_true, Bool.not_eq_true', List.isEmpty_eq_false_iff] at h
    have hmade := clauses_of_nnfAll h.1 (clauses_nnfAll_ne_nil negated es h.2)
    rw [nnf]
    cases negated with
    | false => exact hmade.1
    | true => exact hmade.2
  | or es => by
    intro h
    rw [undecided, Bool.and_eq_true, Bool.not_eq_true', List.isEmpty_eq_false_iff] at h
    have hmade := clauses_of_nnfAll h.1 (clauses_nnfAll_ne_nil negated es h.2)
    rw [nnf]
    cases negated with
    | false => exact hmade.2
    | true => exact hmade.1
  | optional e => by
    intro _
    rw [nnf, clauses]
    exact List.cons_ne_nil _ _
  | ignore e => by
    intro _
    rw [nnf]
    exact List.cons_ne_nil _ _
  | present e => by
    intro _
    cases negated <;> exact List.cons_ne_nil _ _
  | compare op l r => by
    intro _
    rw [nnf]
    exact List.cons_ne_nil _ _

/-- The same for every member of a list. -/
theorem clauses_nnfAll_ne_nil (negated : Bool) : ∀ es : List Expression,
    undecidedAll es = true → ∀ f ∈ nnfAll negated es, f.clauses ≠ []
  | [] => fun _ f hf => absurd hf List.not_mem_nil
  | e :: es => by
    intro h f hf
    rw [undecidedAll, Bool.and_eq_true] at h
    rw [nnfAll] at hf
    rcases List.mem_cons.mp hf with rfl | hf
    · exact clauses_nnf_ne_nil negated e h.1
    · exact clauses_nnfAll_ne_nil negated es h.2 f hf

end

end Expression

/-! ## Clauses that stay -/

namespace Clause

variable {c d : Clause} {x : String} {bindings : List String}

/-- **A viable clause** is not marked as subsumed and fits below the root. -/
structure Viable (c : Clause) : Prop where
  /-- The clause is not marked. -/
  active : c.subsumed = false
  /-- The clause fits. -/
  fits : c.Fits

/-- A clause with the same bindings is viable too, if it has a predicate where the other one
has. -/
theorem Viable.congr (h : c.Viable) (hsubsumed : d.subsumed = c.subsumed)
    (hbindings : d.bindings = c.bindings) (hsize : 0 < c.size → 0 < d.size) : d.Viable :=
  ⟨hsubsumed.trans h.active, h.fits.imp hsize fun hnone => by rw [hbindings, hnone]⟩

/-- **A list that stays**: there is a clause in it, and all of them are viable. -/
def Lasting (ds : List Clause) : Prop := ds ≠ [] ∧ ∀ d ∈ ds, d.Viable

theorem lasting_singleton (h : c.Viable) : Lasting [c] :=
  ⟨List.cons_ne_nil _ _, fun _ hd => List.mem_singleton.mp hd ▸ h⟩

/-- Replacing each clause by a list that stays. -/
theorem Lasting.flatMap {ds : List Clause} (h : Lasting ds) {f : Clause → List Clause}
    (hf : ∀ d, d.Viable → Lasting (f d)) : Lasting (ds.flatMap f) := by
  constructor
  · obtain ⟨d, hd⟩ := List.exists_mem_of_ne_nil _ h.1
    obtain ⟨e, he⟩ := List.exists_mem_of_ne_nil _ (hf d (h.2 d hd)).1
    exact List.ne_nil_of_mem (List.mem_flatMap.mpr ⟨d, hd, he⟩)
  · intro e he
    obtain ⟨d, hd, he⟩ := List.mem_flatMap.mp he
    exact (hf d (h.2 d hd)).2 e he

/-- Only a clause with a predicate mentions a variable. -/
theorem size_pos_of_mentionsAny (h : Expression.mentionsAny x c.conjuncts = true) : 0 < c.size := by
  refine List.length_pos_iff.mpr fun hnil => ?_
  rw [hnil] at h
  exact Bool.false_ne_true h

/-- **Existential expansion** with a binding: a copy has as many predicates as the clause,
and records the binding only if it has one. -/
theorem lasting_copies (h : c.Viable) (hne : bindings ≠ []) :
    Lasting (Quantifier.copies x c bindings) := by
  constructor
  · obtain ⟨b, bs, rfl⟩ := List.exists_cons_of_ne_nil hne
    rw [Quantifier.copies_cons]
    split <;> exact List.cons_ne_nil _ _
  · intro d hd
    obtain ⟨b, -, ⟨rfl, hmentions⟩ | rfl⟩ := Quantifier.exists_of_mem_copies hd
    · refine ⟨h.active, .inl ?_⟩
      show 0 < (Expression.renameAll x b c.conjuncts).1.length
      rw [Expression.fst_renameAll, List.length_map]
      exact size_pos_of_mentionsAny hmentions
    · exact h

/-- A predicate has an instance for the first binding. -/
theorem instances_ne_nil (x : String) (p : Expression) (hne : bindings ≠ []) :
    Quantifier.instances x p bindings ≠ [] := by
  obtain ⟨b, bs, rfl⟩ := List.exists_cons_of_ne_nil hne
  rw [Quantifier.instances_cons]
  split <;> exact List.cons_ne_nil _ _

/-- **Universal expansion** with a binding leaves an instance of each predicate. -/
theorem viable_expandUniversal (h : c.Viable) (hne : bindings ≠ []) :
    (Quantifier.expandUniversal x bindings c).Viable := by
  have hexpanded : Quantifier.expandUniversal x bindings c =
      { c with conjuncts := c.conjuncts.flatMap fun p => Quantifier.instances x p bindings } :=
    if_neg fun hempty => hne (List.isEmpty_iff.mp hempty)
  rw [hexpanded]
  refine h.congr rfl rfl fun hpos => List.length_pos_iff.mpr ?_
  obtain ⟨p, hp⟩ := List.exists_mem_of_ne_nil _ (List.length_pos_iff.mp hpos)
  obtain ⟨q, hq⟩ := List.exists_mem_of_ne_nil _ (instances_ne_nil x p hne)
  exact List.ne_nil_of_mem (List.mem_flatMap.mpr ⟨p, hp, hq⟩)

/-- **Expanding by a quantifier with a binding.** -/
theorem lasting_expand {q : Quantifier} (hne : q.bindings ≠ []) (h : c.Viable) :
    Lasting (q.expand c) := by
  unfold Quantifier.expand
  split
  · exact lasting_singleton (viable_expandUniversal h hne)
  · rw [Quantifier.expandExistential, if_neg fun hempty => hne (List.isEmpty_iff.mp hempty)]
    exact lasting_copies h hne

/-- Expanding by several quantifiers. -/
theorem Lasting.expandAll {qs : List Quantifier} (hqs : ∀ q ∈ qs, q.bindings ≠ [])
    {ds : List Clause} (h : Lasting ds) :
    Lasting (qs.foldl (fun clauses q => clauses.flatMap q.expand) ds) := by
  induction qs generalizing ds with
  | nil => exact h
  | cons q qs ih =>
    rw [List.forall_mem_cons] at hqs
    exact ih hqs.2 (h.flatMap fun d => lasting_expand hqs.1)

/-- Dropping repeated predicates leaves one. -/
theorem Viable.distinct (h : c.Viable) (digest : Digest) : (c.distinct digest).Viable := by
  refine h.congr rfl rfl fun hpos => List.length_pos_iff.mpr ?_
  obtain ⟨p, hp⟩ := List.exists_mem_of_ne_nil _ (List.length_pos_iff.mp hpos)
  obtain ⟨q, hq, -⟩ := exists_mem_keepFirstBy digest.ofExpression Expression.alike hp
  exact List.ne_nil_of_mem hq

theorem Lasting.distinct {ds : List Clause} (h : Lasting ds) (digest : Digest) :
    Lasting (ds.map (Clause.distinct digest)) := by
  refine ⟨by simpa using h.1, fun d hd => ?_⟩
  obtain ⟨c, hc, rfl⟩ := List.mem_map.mp hd
  exact (h.2 c hc).distinct digest

/-- Dropping repeated clauses leaves one. -/
theorem Lasting.distinctAll {ds : List Clause} (h : Lasting ds) (digest : Digest) :
    Lasting (distinctAll digest ds) := by
  refine ⟨?_, fun d hd => h.2 d (mem_of_mem_keepFirstBy hd)⟩
  obtain ⟨d, hd⟩ := List.exists_mem_of_ne_nil _ h.1
  obtain ⟨c, hc, -⟩ := exists_mem_keepFirstBy (fingerprint digest) alike hd
  exact List.ne_nil_of_mem hc

/-- The clauses of a normal form fit, since nothing is bound in them. -/
theorem lasting_clauses {e : Expression} (h : e.clauses ≠ []) : Lasting e.clauses := by
  refine ⟨h, fun c hc => ?_⟩
  rw [Expression.eq_ofConjuncts_of_mem_clauses hc]
  exact ⟨rfl, .inr rfl⟩

end Clause

/-- **Every active clause fits below the root, and there is one**, if the condition is
undecided and ignores nothing, and no quantifier is without bindings. -/
theorem Trigger.fits_of_undecided {α : Type} {cs : Comparers} (hcs : cs.Lawful) {e : Expression}
    {qs : List Quantifier} (he : e.undecided = true) (hheeds : e.heedsAll = true)
    (hqs : ∀ q ∈ qs, q.bindings ≠ []) (id : TriggerId) (action : α) :
    (build cs [] id e action qs).active ≠ [] ∧
      ∀ c ∈ (build cs [] id e action qs).active, c.Fits := by
  have hlasting := ((((Clause.lasting_clauses (Expression.clauses_nnf_ne_nil false e he)).distinct
    .standard).expandAll hqs).distinct .standard).distinctAll .standard
  have hunconditional : (build cs [] id e action qs).Unconditional :=
    unconditional_build hheeds id action
  constructor
  · -- a viable clause is at most as wide as one that stays unmarked
    obtain ⟨d, hd⟩ := List.exists_mem_of_ne_nil _ hlasting.1
    obtain ⟨c, hc, hactive, -⟩ :=
      Clause.exists_isCovered_subsume hcs _ d hd (hlasting.2 d hd).active
    exact List.ne_nil_of_mem (List.mem_filter.mpr
      ⟨List.mem_map_of_mem hc, (Bool.not_eq_true' _).mpr hactive⟩)
  · intro c hc
    have hnone := hunconditional c hc
    obtain ⟨hmem, hactive⟩ := List.mem_filter.mp hc
    obtain ⟨d, hd, rfl⟩ := List.mem_map.mp hmem
    have hfits := (hlasting.2 d (Clause.mem_of_mem_subsume_of_active hd
      ((Bool.not_eq_true' _).mp hactive))).fits
    -- nothing was set aside
    have hcore : d.withdrawIgnored.core = d.core := Clause.core_withdrawIgnored hnone
    show d.withdrawIgnored.core.Fits
    rw [hcore]
    exact hfits

end Specificity
