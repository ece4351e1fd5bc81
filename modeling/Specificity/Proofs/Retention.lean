import Specificity.Proofs.Ownership
import Specificity.Proofs.Store.Refusing
import Specificity.Proofs.Termination

/-!
# Which triggers are retained

An incoming trigger whose action is not in the tree is retained exactly if one of its
active clauses fits below the root. The other clauses are those of bindings alone:
quantifiers expanded all their predicates away, or the predicates were set aside as
ignored. Such a clause is wider than the empty clause of the root, so the descent takes
the root for something to be adopted and ends without a place. A trigger that has no
other active clause is struck off again, although the empty clause would hold it.

Under a lawful registry every addition returns. If judgements contradict each other it need
not, and what is said then is said of the additions that do (`Tree.Adds`). That a node which is
reached carries the trigger rests on a lawful registry as well: only then do the nodes form a
diagram, in which whatever is moved stays below the root.
-/

namespace Specificity

namespace Store

variable {α : Type} [DecidableEq α] {r : Register α} {trigger : TriggerId} {u : Trigger α}
  {s : Store} {known : TriggerId → Prop}

/-- **Of several clauses one finds a place** exactly if one fits below the root, as long as
nobody carries the trigger. If all are refused nobody does afterwards. The induction is on
the clauses; after the first one that fits the others do not matter. -/
theorem Unaware.insertAll (hs : s.Tidy known) (htrigger : known trigger)
    (h : s.Unaware trigger) (hregistered : r.get? trigger = some u)
    (halone : ∀ w y, r.get? w = some y → y.action = u.action → w = trigger) (cs : Comparers)
    (clauses : List Clause) :
    ((s.insertAll cs r trigger clauses).1.contains true = true ↔ ∃ c ∈ clauses, c.Fits) ∧
      ((∀ c ∈ clauses, ¬ c.Fits) → (s.insertAll cs r trigger clauses).2.Unaware trigger) := by
  rw [List.contains_iff_mem]
  induction clauses generalizing s with
  | nil =>
    exact ⟨⟨fun hmem => absurd hmem List.not_mem_nil,
      fun ⟨c, hc, _⟩ => absurd hc List.not_mem_nil⟩, fun _ => h⟩
  | cons c clauses ih =>
    obtain ⟨hplaced, hrefused⟩ := h.insert hs hregistered halone cs c
    rw [insertAll_cons, List.mem_cons, List.exists_mem_cons_iff, List.forall_mem_cons, eq_comm,
      hplaced]
    by_cases hfits : c.Fits
    · exact ⟨⟨fun _ => .inl hfits, fun _ => .inl hfits⟩, fun hall => absurd hfits hall.1⟩
    · obtain ⟨hiff, hlast⟩ := ih (hs.insert htrigger cs r c) (hrefused hfits)
      exact ⟨or_congr_right hiff, fun hall => hlast hall.2⟩

end Store

namespace Tree

variable {α : Type} [DecidableEq α] {ok : Tree α → Change α → Prop} {cs : Comparers}
  {opts : List Optimizer} {tree : Tree α} {expression : Expression} {action : α}
  {quantifiers : List Quantifier}

/-! ## Places -/

/-- **A trigger finds a place** if one of its active clauses fits below the root, as long
as its action is not in the tree. If none does no node that is reached carries it. -/
theorem Fresh.contains_filing_iff (h : Reached ok cs opts tree)
    (hfresh : tree.Fresh (.add expression action quantifiers)) :
    let t := tree.incoming expression action quantifiers
    ((tree.filing t).1.contains true = true ↔ ∃ c ∈ t.active, c.Fits) ∧
      ((∀ c ∈ t.active, ¬ c.Fits) →
        (tree.filing t).2.sweep.Unaware tree.triggers.nextId) := by
  intro t
  have halone : ∀ w y, (tree.triggers.push t).get? w = some y → y.action = t.action →
      w = tree.triggers.nextId := fun w y hy haction => by
    by_contra hne
    exact hfresh.action_ne t hne hy haction
  have hunaware : tree.store.Unaware tree.triggers.nextId :=
    h.tidy.unaware (Register.not_given_nextId _)
  have hall := hunaware.insertAll
    (h.tidy.mono fun u hu => (Register.given_push _ t u).mpr (.inl hu))
    ((Register.given_push _ t _).mpr (.inr rfl)) (get?_push_nextId tree t) halone tree.comparers
    (t.active.map Clause.core)
  simp only [List.mem_map, exists_exists_and_eq_and, forall_exists_index, and_imp,
    forall_apply_eq_imp_iff₂] at hall
  exact ⟨hall.1, fun hnone => (hall.2 hnone).sweep⟩

/-- **A tree that retained a trigger** under a handle. -/
structure Retained (before after : Tree α) (id : TriggerId) (t : Trigger α) : Prop where
  /-- The handle stands for the trigger. -/
  registered : after.trigger? id = some t
  /-- The trigger is counted. -/
  counted : after.total = before.total + 1
  /-- Under a lawful registry a node that is reached carries it. -/
  carried : before.comparers.Lawful →
    ∃ v n, after.store.Reachable v ∧ after.store.get? v = some n ∧ id ∈ n.carried

/-- **A tree that turned a trigger away.** -/
structure TurnedAway (before after : Tree α) (id : TriggerId) : Prop where
  /-- The handle stands for nothing. -/
  unregistered : after.trigger? id = none
  /-- Nothing more is counted. -/
  counted : after.total = before.total
  /-- No node that is reached carries it. -/
  uncarried : ∀ v n, after.store.Reachable v → after.store.get? v = some n → id ∉ n.carried

/-- **A trigger with an active clause may be turned away**: of its clause only the bindings
are left, whether the predicates were set aside as ignored or expanded away. -/
theorem active_and_not_retained :
    let tree : Tree Nat := .empty .empty []
    let anyOf (x b : String) : Quantifier := ⟨x, false, [b]⟩
    ∀ p ∈ [(Expression.ignore (.accessor "x"), [anyOf "x" "a"]),
        (Expression.accessor "x", [anyOf "x" "b", ⟨"b", true, []⟩])],
      let t := tree.incoming p.1 1 p.2
      let (id, after) := tree.add p.1 1 p.2
      Reached Free .empty [] tree ∧ tree.Fresh (.add p.1 1 p.2) ∧ t.active ≠ [] ∧
        ¬ tree.Retained after id t := by
  intro tree anyOf p hp
  have hfacts : ∀ p ∈ [(Expression.ignore (.accessor "x"), [anyOf "x" "a"]),
        (Expression.accessor "x", [anyOf "x" "b", ⟨"b", true, []⟩])],
      tree.Fresh (.add p.1 1 p.2) ∧ (tree.incoming p.1 1 p.2).active ≠ [] ∧
        ((tree.add p.1 1 p.2).2.trigger? (tree.add p.1 1 p.2).1).isNone = true := by
    decide +kernel
  obtain ⟨hfresh, hactive, hnone⟩ := hfacts p hp
  refine ⟨.empty, hfresh, hactive, fun hretained => ?_⟩
  have hregistered : (tree.add p.1 1 p.2).2.trigger? (tree.add p.1 1 p.2).1 = some _ :=
    hretained.registered
  rw [hregistered] at hnone
  exact Bool.noConfusion hnone

/-- **A clause that fits below the root has a node** afterwards that carries the trigger,
under a lawful registry. -/
theorem Fresh.exists_carried (hcs : cs.Lawful) (h : Reached ok cs opts tree)
    (hfresh : tree.Fresh (.add expression action quantifiers))
    (hfits : ∃ c ∈ (tree.incoming expression action quantifiers).active, c.Fits) :
    let after := (tree.add expression action quantifiers).2
    ∃ v n, after.store.Reachable v ∧ after.store.get? v = some n ∧
      tree.triggers.nextId ∈ n.carried := by
  obtain ⟨-, -, hstore, -⟩ := tree.add_cases expression action quantifiers
  have hfiled := (h.nodesAccounted hcs).filing hcs (h.sound hcs)
    (tree.incoming expression action quantifiers)
  obtain ⟨-, hreach, hget⟩ := hfiled.sound.sweep hcs
  obtain ⟨c, hc, hcfits⟩ := hfits
  obtain ⟨v, n, hv, hn, -, hmem⟩ := hfresh.files hcs (h.sound hcs) c hc hcfits
  obtain ⟨x, hx, rfl⟩ := Option.map_eq_some_iff.mp hn
  refine ⟨v, x, ?_, ?_, hmem⟩
  · rw [hstore]
    exact (hreach v).mpr hv
  · rw [hstore, hget v hv]
    exact hx

/-- **What is retained**: a trigger whose action is not in the tree, if one of its active
clauses fits below the root. It is turned away if none does. So it is whenever the addition
returns, which it does under a lawful registry. -/
theorem retained_or_turnedAway (h : Reached Free cs opts tree)
    (hfresh : tree.Fresh (.add expression action quantifiers)) :
    let t := tree.incoming expression action quantifiers
    (cs.Lawful → ∃ id after, tree.Adds expression action quantifiers id after) ∧
      ∀ id after, tree.Adds expression action quantifiers id after →
        ((∃ c ∈ t.active, c.Fits) → tree.Retained after id t) ∧
          ((∀ c ∈ t.active, ¬ c.Fits) → tree.TurnedAway after id) := by
  intro t
  refine ⟨fun hcs => h.adds hcs expression action quantifiers, fun id after hadds => ?_⟩
  obtain ⟨hplaced, hrefused⟩ := hfresh.contains_filing_iff h
  have hcarried := fun hcs : cs.Lawful => hfresh.exists_carried hcs h
  have hid := tree.fst_add expression action quantifiers
  have htotal := tree.total_add expression action quantifiers
  have htrigger := tree.trigger?_nextId_add expression action quantifiers
  obtain ⟨-, -, hstore, -⟩ := tree.add_cases expression action quantifiers
  rw [hadds.result] at hid htotal htrigger hstore hcarried
  obtain rfl : id = tree.triggers.nextId := hid
  constructor
  · intro hfits
    rw [if_pos (hplaced.mpr hfits)] at htotal htrigger
    exact ⟨htrigger, htotal, fun hcs => hcarried (h.comparers ▸ hcs) hfits⟩
  · intro hnone
    have hnot : ¬ (tree.filing t).1.contains true = true := fun hfound => by
      obtain ⟨c, hc, hfits⟩ := hplaced.mp hfound
      exact hnone c hc hfits
    rw [if_neg hnot] at htotal htrigger
    refine ⟨htrigger, htotal, fun v n hv hn => ?_⟩
    have hunaware : after.store.Unaware tree.triggers.nextId := hstore ▸ hrefused hnone
    exact hunaware.notMem hv hn

/-- A second trigger without a condition is retained at the root, and one without predicates
but with a binding is turned away there. -/
theorem retained_or_turnedAway_at_root :
    let tree : Tree Nat := .run .empty [] [.add (.and []) 1 []]
    let always : Expression := .and []
    let bound : Expression := .ignore (.accessor "x")
    let names : List Quantifier := [⟨"x", false, ["a"]⟩]
    tree.Fresh (.add always 2 []) ∧ tree.Fresh (.add bound 2 names) ∧
      tree.Retained (tree.add always 2 []).2 (tree.add always 2 []).1
        (tree.incoming always 2 []) ∧
      tree.TurnedAway (tree.add bound 2 names).2 (tree.add bound 2 names).1 := by
  intro tree always bound names
  have hreached : Reached Free .empty [] tree := reached_run _ _ _
  have hfresh : tree.Fresh (.add always 2 []) := by decide +kernel
  have hfresh' : tree.Fresh (.add bound 2 names) := by decide +kernel
  have hfits : ∃ c ∈ (tree.incoming always 2 []).active, c.Fits := by decide +kernel
  have hnone : ∀ c ∈ (tree.incoming bound 2 names).active, ¬ c.Fits := by decide +kernel
  obtain ⟨hreturns, hretained⟩ := retained_or_turnedAway hreached hfresh
  obtain ⟨hreturns', hturnedAway⟩ := retained_or_turnedAway hreached hfresh'
  obtain ⟨id, after, hadds⟩ := hreturns Comparers.lawful_empty
  obtain ⟨id', after', hadds'⟩ := hreturns' Comparers.lawful_empty
  rw [hadds.result, hadds'.result]
  exact ⟨hfresh, hfresh', (hretained id after hadds).1 hfits,
    (hturnedAway id' after' hadds').2 hnone⟩

end Tree

end Specificity
