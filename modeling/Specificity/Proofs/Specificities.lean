import Specificity.Proofs.Auditing
import Specificity.Proofs.Normalization
import Specificity.Proofs.Predicates
import Specificity.Proofs.Soundness
import Specificity.Workload

/-!
# Answers are most specific

Of the triggers reported for one memory none makes another one superfluous: any two of
them have true clauses that are equal or incomparable (`Tree.Unrelated`). The check of a
workload asks exactly this, but not of what matching went by. Matching evaluates the
clauses of nodes, each made by whichever trigger came first; the check evaluates the
triggers' own clauses and judges those.

The two agree if an equal clause is true where the node's is. That is so of simple
predicates, so the tests for a value and the comparisons in a condition must be free of
conjunctions and disjunctions (`Expression.simpleTests`). What stands in ignored parts does
not matter, since the clauses leave these out. The rest is the order of the nodes:
triggers are reported at foremost nodes, of which no two are comparable.
-/

namespace Specificity

/-! ## Simple tests -/

namespace Expression

variable {e : Expression} {es : List Expression} {P : Expression → Prop}

mutual

/-- **Simple tests**: no conjunction or disjunction stands in an operand of a test for a
value or of a comparison. -/
def simpleTests : Expression → Bool
  | constant _ | accessor _ => true
  | not e | optional e | ignore e => simpleTests e
  | and es | or es => simpleTestsAll es
  | present e => simple e
  | compare _ l r => simple l && simple r

/-- The same for all members of a list. -/
def simpleTestsAll : List Expression → Bool
  | [] => true
  | e :: es => simpleTests e && simpleTestsAll es

end

theorem simpleTestsAll_iff (es : List Expression) :
    simpleTestsAll es = true ↔ ∀ e ∈ es, e.simpleTests = true :=
  forall_of_asked rfl (fun _ _ => rfl) es

/-- **The predicates that an expression leads to** all have a property. -/
def LeadsTo (P : Expression → Prop) (e : Expression) : Prop :=
  ∀ c ∈ e.clauses, c.AllConjuncts P

/-- An atom leads to itself. -/
theorem leadsTo_of_atom (hatom : e.clauses = [.ofConjuncts [e]]) (he : P e) : e.LeadsTo P := by
  intro c hc p hp
  rw [hatom, List.mem_singleton] at hc
  rw [hc] at hp
  rw [List.mem_singleton.mp hp]
  exact he

/-- A conjunction leads to what its operands lead to. -/
theorem leadsTo_and (h : ∀ e ∈ es, e.LeadsTo P) : (and es).LeadsTo P := by
  unfold LeadsTo
  rw [clauses]
  induction es with
  | nil =>
    intro c hc
    rw [List.mem_singleton.mp hc]
    exact fun p hp => absurd hp List.not_mem_nil
  | cons e es ih =>
    rw [List.forall_mem_cons] at h
    intro c hc
    rw [clausesOfAll_cons] at hc
    obtain ⟨a, ha, b, hb, rfl⟩ := Clause.mem_product_iff.mp hc
    exact fun p hp => (List.mem_append.mp hp).elim (h.1 a ha p) (ih h.2 b hb p)

/-- A disjunction leads to what its operands lead to. -/
theorem leadsTo_or (h : ∀ e ∈ es, e.LeadsTo P) : (or es).LeadsTo P := by
  intro c hc
  rw [clauses, clausesOfAny_eq_flatMap] at hc
  obtain ⟨e, he, hc⟩ := List.mem_flatMap.mp hc
  exact h e he c hc

/-- An optional part leads to what it marks leads to. -/
theorem leadsTo_optional (h : e.LeadsTo P) : (optional e).LeadsTo P := by
  intro c hc
  rw [clauses] at hc
  rcases List.mem_cons.mp hc with rfl | hc
  · exact fun p hp => absurd hp List.not_mem_nil
  · exact h c hc

/-- A truth value leads to nothing, another constant to itself. -/
theorem leadsTo_constant (v : Value) (h : P (constant v)) : (constant v).LeadsTo P := by
  cases v with
  | bool b =>
    intro c hc
    cases b with
    | false => exact absurd hc List.not_mem_nil
    | true =>
      rw [List.mem_singleton.mp hc]
      exact fun p hp => absurd hp List.not_mem_nil
  | null | integer n | text s => exact leadsTo_of_atom rfl h

/-- **The normal form of an expression with simple tests** leads to simple predicates and
to ignored ones. -/
theorem inherited_simpleTests :
    Inherited (·.simpleTests = true) (LeadsTo fun p => p.kind = .ignore ∨ p.simple = true) where
  constant v := ⟨leadsTo_constant v (.inr rfl), fun _ => leadsTo_of_atom rfl (.inr rfl)⟩
  accessor x := ⟨leadsTo_of_atom rfl (.inr rfl), leadsTo_of_atom rfl (.inr rfl)⟩
  operand e h := by rwa [simpleTests] at h
  operands es h := by
    rw [simpleTests, simpleTests, or_self_iff, simpleTestsAll_iff] at h
    exact ⟨h, fun fs hfs => ⟨leadsTo_and hfs, leadsTo_or hfs⟩⟩
  optional e h := ⟨by rwa [simpleTests] at h, fun _ => leadsTo_optional⟩
  ignore negated e _ _ := leadsTo_of_atom rfl (.inl rfl)
  present e h := by
    rw [simpleTests] at h
    exact ⟨leadsTo_of_atom rfl (.inr h), leadsTo_of_atom rfl (.inr h)⟩
  compare op l r h := by
    rw [simpleTests] at h
    exact ⟨leadsTo_of_atom rfl (.inr h), leadsTo_of_atom rfl (.inr h)⟩

end Expression

/-- **The active clauses of a condition with simple tests** consist of simple predicates. -/
theorem Trigger.simple_of_simpleTests {α : Type} {cs : Comparers} {e : Expression}
    {qs : List Quantifier} (he : e.simpleTests = true) (id : TriggerId) (action : α) {c : Clause}
    (hc : c ∈ (build cs [] id e action qs).active) : c.AllConjuncts (·.simple = true) := by
  have hstable : Expression.Stable fun p => p.kind = .ignore ∨ p.simple = true := fun x y p hp =>
    hp.imp (fun hkind => by rwa [Expression.kind_rename]) (Expression.simple_rename x y p)
  obtain ⟨d, rfl, hd⟩ := exists_of_mem_clausesOf hstable
    (Expression.inherited_simpleTests.nnf false e he) (List.mem_filter.mp hc).1
  intro p hp
  obtain ⟨hmem, hkind⟩ := List.mem_filter.mp hp
  exact (hd p hmem).resolve_left (of_decide_eq_true hkind)

/-! ## Reported together -/

namespace Tree

variable {α : Type} {cs : Comparers} {tree : Tree α} {m : Memory} {t u : Trigger α}

/-- **Two triggers are unrelated** in a memory if each has a true active clause such that
neither clause makes the other one superfluous. -/
def Unrelated (cs : Comparers) (m : Memory) (t u : Trigger α) : Prop :=
  ∃ c ∈ t.active, ∃ d ∈ u.active, c.eval m = .ok true ∧ d.eval m = .ok true ∧
    (c.relate cs d = .equal ∨ c.relate cs d = .incomparable)

/-- **A reported trigger has a true clause** of its own that is equal to the clause of a
foremost node. -/
theorem Sound.exists_holding_of_matched (hcs : cs.BoundsOnly) (h : tree.Sound cs [])
    (honce : tree.ShowsOnce) (htests : ∀ t ∈ tree.triggers.live, t.expression.simpleTests = true)
    (ht : t ∈ tree.matched m) :
    ∃ v n, tree.Foremost m v ∧ tree.store.get? v = some n ∧
      ∃ c ∈ t.active, c.relate cs n.clause = .equal ∧ c.eval m = .ok true := by
  have hlawful := Comparers.lawful_of_boundsOnly hcs
  obtain ⟨hregistered, v, hv, n, hn, -, hfires⟩ :=
    ((h.flatMatch_foremost hlawful honce m).reported t).mp ht
  obtain ⟨n', hn', heval, -⟩ := (candidates_ne_nil_iff tree m v).mp hv.1.2
  obtain rfl := Option.some.inj (hn.symm.trans hn')
  rw [h.comparers] at hfires
  obtain ⟨c, hc, hfires⟩ := List.any_eq_true.mp hfires
  have hsimple : c.AllConjuncts (·.simple = true) := by
    rw [h.built t.id t hregistered] at hc
    exact Trigger.simple_of_simpleTests (htests t ((h.mem_live_iff t).mpr hregistered)) _ _ hc
  have hbacked := (Clause.backed_of_firesAt hcs hfires heval).1
  refine ⟨v, n, hv, hn, c, hc, Clause.relate_of_firesAt hcs hfires, ?_⟩
  exact (Clause.eval_eq_true_iff m c).mpr fun p hp =>
    Expression.certain_of_simple hcs m (hsimple p hp) (hbacked p hp)

/-- **Triggers reported together are unrelated**: their clauses stand to each other as the
nodes they fired at. -/
theorem Sound.unrelated_of_matched (hcs : cs.BoundsOnly) (h : tree.Sound cs [])
    (honce : tree.ShowsOnce) (htests : ∀ t ∈ tree.triggers.live, t.expression.simpleTests = true)
    (ht : t ∈ tree.matched m) (hu : u ∈ tree.matched m) : Unrelated cs m t u := by
  have hlawful := Comparers.lawful_of_boundsOnly hcs
  have hord := Clause.orderly_relate hlawful
  obtain ⟨v, n, hv, hn, c, hc, hcn, hceval⟩ := h.exists_holding_of_matched hcs honce htests ht
  obtain ⟨w, p, hw, hp, d, hd, hdp, hdeval⟩ := h.exists_holding_of_matched hcs honce htests hu
  refine ⟨c, hc, d, hd, hceval, hdeval, ?_⟩
  rw [hord.eq_of_equal hcn, hord.eq_of_equal_right hdp]
  by_cases hvw : v = w
  · subst hvw
    obtain rfl := Option.some.inj (hn.symm.trans hp)
    exact .inl (Clause.relate_self hlawful n.clause)
  · right
    have hdiagram := h.store.diagram
    rw [← h.comparers] at hlawful hdiagram ⊢
    rw [← Store.relate_eq hn hp]
    exact hv.incomparable hlawful hdiagram hw hvw

/-! ## The check -/

theorem mem_holding (m : Memory) (t : Trigger α) (c : Clause) :
    c ∈ holding m t ↔ c ∈ t.active ∧ c.eval m = .ok true := by
  unfold holding
  rw [List.mem_filter]
  refine and_congr_right fun _ => ?_
  split
  · next b hb => rw [hb, Except.ok.injEq]
  · next err herr =>
    rw [herr]
    exact ⟨fun h => absurd h Bool.false_ne_true, fun h => nomatch h⟩

/-- What the check asks of two triggers is whether they are unrelated. -/
theorem areUnrelated_iff (tree : Tree α) (m : Memory) (t u : Trigger α) :
    tree.areUnrelated (holding m t) (holding m u) = true ↔ Unrelated tree.comparers m t u := by
  unfold areUnrelated
  simp only [List.any_eq_true, mem_holding]
  constructor
  · rintro ⟨c, ⟨hc, hceval⟩, d, ⟨hd, hdeval⟩, hrel⟩
    refine ⟨c, hc, d, hd, hceval, hdeval, ?_⟩
    split at hrel
    · next heq => exact .inl heq
    · next heq => exact .inr heq
    · exact absurd hrel Bool.false_ne_true
    · exact absurd hrel Bool.false_ne_true
  · rintro ⟨c, hc, d, hd, hceval, hdeval, hrel⟩
    refine ⟨c, ⟨hc, hceval⟩, d, ⟨hd, hdeval⟩, ?_⟩
    rcases hrel with heq | heq <;> rw [heq]

/-- **The check finds no conflict** if all triggers reported together are unrelated. -/
theorem conflicts_eq_nil {memories : List Memory}
    (h : ∀ m ∈ memories, ∀ t ∈ tree.matched m, ∀ u ∈ tree.matched m,
      Unrelated tree.comparers m t u) :
    (tree.specificities memories).conflicts = [] := by
  unfold specificities
  dsimp only
  rw [List.filterMap_eq_nil_iff]
  rintro ⟨⟨t, cs⟩, u, ds⟩ hmem
  obtain ⟨m, hm, hpair⟩ := List.mem_flatMap.mp hmem
  have hall : ((tree.matched m).map fun t => (t, holding m t)).Pairwise
      fun a b => tree.areUnrelated a.2 b.2 = true := by
    rw [List.pairwise_map]
    exact List.pairwise_of_forall_mem_list fun t ht u hu =>
      (areUnrelated_iff tree m t u).mpr (h m hm t ht u hu)
  exact if_pos ((forall_mem_pairs _).mpr hall _ hpair)

/-- The check passes then. -/
theorem result_specificities {memories : List Memory}
    (h : (tree.specificities memories).conflicts = []) :
    (tree.specificities memories).result =
      .ok s!"memories={memories.length}, pairs={(tree.specificities memories).pairs}" := by
  rw [Specificities.result, h]
  rfl

variable [DecidableEq α]

/-- **Triggers reported together are unrelated** after any history, if their conditions have
simple tests. -/
theorem Reached.unrelated {ok : Tree α → Change α → Prop} (hcs : cs.BoundsOnly)
    (h : Reached ok cs [] tree)
    (htests : ∀ t ∈ tree.triggers.live, t.expression.simpleTests = true) :
    ∀ m, ∀ t ∈ tree.matched m, ∀ u ∈ tree.matched m, Unrelated cs m t u := by
  have hlawful := Comparers.lawful_of_boundsOnly hcs
  exact fun m t ht u hu =>
    (h.sound hlawful).unrelated_of_matched hcs (h.showsOnce hlawful) htests ht hu

/-- **The check agrees with matching** in every reached tree of conditions with simple tests:
whatever the memories, it finds no conflict, since triggers that are reported together are
unrelated. -/
theorem specificities_of_reached (hcs : cs.BoundsOnly) (h : Reached Free cs [] tree)
    (htests : ∀ t ∈ tree.triggers.live, t.expression.simpleTests = true) :
    (∀ memories, (tree.specificities memories).conflicts = [] ∧
      (tree.specificities memories).result =
        .ok s!"memories={memories.length}, pairs={(tree.specificities memories).pairs}") ∧
    ∀ m, ∀ t ∈ tree.matched m, ∀ u ∈ tree.matched m, Unrelated cs m t u := by
  have hunrelated := h.unrelated hcs htests
  refine ⟨fun memories => ?_, hunrelated⟩
  have hnone : (tree.specificities memories).conflicts = [] :=
    conflicts_eq_nil fun m _ => h.comparers ▸ hunrelated m
  exact ⟨hnone, result_specificities hnone⟩

/-- A bound that hides a wider trigger at their common clause; the two are reported together
for another clause of the hidden one. -/
theorem specificities_of_reached_common :
    let below := Expression.compare .less (.accessor "x") (.constant (.integer 9))
    let tree : Tree Nat := .run Comparers.empty.registerBounds []
      [.add (.or [below, .present (.accessor "y")]) 1 [],
        .add (.and [below, .ignore (.or [.accessor "a", .accessor "b"])]) 2 []]
    let m := Memory.ofList [("x", .integer 3), ("y", .text "y"), ("b", .bool true)]
    (∀ t ∈ tree.triggers.live, t.expression.simpleTests = true) ∧
      (tree.specificities [m]).pairs = 1 ∧ (tree.specificities [m]).conflicts = [] := by
  intro below tree m
  have htests : ∀ t ∈ tree.triggers.live, t.expression.simpleTests = true := by decide +kernel
  obtain ⟨hcheck, -⟩ := specificities_of_reached Comparers.boundsOnly_registerBounds
    (reached_run _ _ _) htests
  exact ⟨htests, by decide +kernel, (hcheck [m]).1⟩

/-- With a disjunction in a test the check disagrees: the second trigger is reported for the
clause of the first one, which its own clause is like, but its own has no value. -/
example :
    let below := Expression.compare .less (.accessor "x") (.constant (.integer 9))
    let tree : Tree Nat := .run .empty []
      [.add (.present (.or [.constant (.bool true), below])) 1 [],
        .add (.present (.or [below, .constant (.bool true)])) 2 []]
    (tree.specificities [.empty]).conflicts = [(⟨0⟩, ⟨1⟩)] := by
  decide +kernel

end Tree

end Specificity
