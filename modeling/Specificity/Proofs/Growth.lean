import Specificity.Proofs.Auditing
import Specificity.Proofs.Predicates

/-!
# Trees that only grow

What a node shows depends on the order of changes as soon as there are removals: a
promotion brings back one of two equally wide triggers, and another history would have
kept the other. As long as triggers are only added, and none of them has an ignored
condition, nothing is left to chance. A node shows just those of its triggers that no
other one there is narrower than (`Node.ShowsNarrowest`): the incoming trigger is turned
away exactly if something narrower is shown, and otherwise exactly the wider ones give
way to it. That neither misses a trigger that is hidden already is what the account of the
node is for.
-/

namespace Specificity

namespace Register

variable {α : Type} {cs : Comparers} {r r' : Register α} {a b : TriggerId}

/-- Only the two entries matter. -/
theorem within_congr (ha : r'.get? a = r.get? a) (hb : r'.get? b = r.get? b) :
    r'.Within cs a b ↔ r.Within cs a b := by
  unfold Within
  rw [ha, hb]

end Register

namespace Node

variable {α : Type} {cs : Comparers} {r r' : Register α} {n : Node} {t : TriggerId}

/-- **A node that shows the narrowest** of the triggers that it carries. -/
def ShowsNarrowest (cs : Comparers) (r : Register α) (n : Node) : Prop :=
  ∀ u, u ∈ n.visible ↔ u ∈ n.carried ∧ ∀ w ∈ n.carried, r.Within cs w u → r.Within cs u w

theorem showsNarrowest_ofClause (cs : Comparers) (r : Register α) (c : Clause) :
    (ofClause c).ShowsNarrowest cs r :=
  fun _ => ⟨fun hu => absurd hu List.not_mem_nil, fun hu => absurd hu.1 List.not_mem_nil⟩

theorem showsNarrowest_ofTrigger (cs : Comparers) (r : Register α) (c : Clause) (t : TriggerId) :
    (ofTrigger c t).ShowsNarrowest cs r := by
  refine fun u => ⟨fun hu => ⟨hu, fun w hw hwithin => ?_⟩, And.left⟩
  have hut : u = t := List.mem_singleton.mp hu
  have hwt : w = t := List.mem_singleton.mp hw
  rw [hut, hwt] at hwithin ⊢
  exact hwithin

/-- Only the entries of what the node carries matter. -/
theorem ShowsNarrowest.congr (h : n.ShowsNarrowest cs r)
    (hget : ∀ u ∈ n.carried, r'.get? u = r.get? u) : n.ShowsNarrowest cs r' := by
  intro u
  rw [h u]
  refine and_congr_right fun hu => forall₂_congr fun w hw => ?_
  rw [Register.within_congr (hget w hw) (hget u hu), Register.within_congr (hget u hu) (hget w hw)]

/-- **A trigger that is turned away** was not among the narrowest, and no other one is less
so for it. -/
theorem ShowsNarrowest.join_of_generalizes (hcs : cs.Lawful) (hsharp : r.Sharp cs)
    (haccounted : n.Accounted cs r) (ht : r.HasClause t)
    (h : n.ShowsNarrowest cs r) {w : TriggerId} (hw : w ∈ n.visible)
    (hwide : r.relate cs t w = .generalizes) :
    (n.join (r.relate cs t) t).ShowsNarrowest cs r := by
  have htrans : ∀ {a b c}, r.Within cs a b → r.Within cs b c → r.Within cs a c :=
    fun hab hbc => hab.trans hcs hbc
  have hjudge := fun v hv =>
    Register.relate_iff hcs hsharp ht (haccounted.hasClause (haccounted.carried v hv))
  obtain ⟨hwcarried, hwleast⟩ := (h w).mp hw
  have hwt : r.Within cs w t := (hjudge w hw).2.mp (Relationship.covers_of_generalizes hwide)
  have htw : ¬ r.Within cs t w := fun htw => by
    have hle := (hjudge w hw).1.mpr htw
    rw [hwide] at hle
    exact Bool.false_ne_true hle
  -- nothing gives way, since what is shown and wider than `t` would be wider than `w`
  have hstay : ∀ v ∈ n.visible, r.relate cs t v ≠ .specializes := fun v hv hlt => by
    have htv := (hjudge v hv).1.mp (Relationship.isCovered_of_specializes hlt)
    exact htw (htrans htv (((h v).mp hv).2 w hwcarried (htrans hwt htv)))
  intro u
  rw [mem_visible_join, carried_join, List.forall_mem_append, List.forall_mem_singleton,
    List.mem_append, List.mem_singleton, makeWay_eq_self hstay,
    makeWay_of_generalizes ⟨w, hw, hwide⟩]
  constructor
  · rintro (hu | ⟨-, hno⟩)
    · obtain ⟨hucarried, huleast⟩ := (h u).mp hu
      refine ⟨.inl hucarried, huleast, fun htu => ?_⟩
      exact htrans (huleast w hwcarried (htrans hwt htu)) hwt
    · exact absurd hno Bool.false_ne_true
  · rintro ⟨hu | rfl, huleast, -⟩
    · exact .inl ((h u).mpr ⟨hu, huleast⟩)
    · exact absurd (huleast w hwcarried hwt) htw

/-- **A trigger that is let in** is one of the narrowest, and the wider ones give way. -/
theorem ShowsNarrowest.join_of_not_generalizes (hcs : cs.Lawful) (hsharp : r.Sharp cs)
    (haccounted : n.Accounted cs r) (ht : r.HasClause t) (h : n.ShowsNarrowest cs r)
    (hadmits : ∀ w ∈ n.visible, r.relate cs t w ≠ .generalizes) :
    (n.join (r.relate cs t) t).ShowsNarrowest cs r := by
  have htrans : ∀ {a b c}, r.Within cs a b → r.Within cs b c → r.Within cs a c :=
    fun hab hbc => hab.trans hcs hbc
  have hjudge := fun v hv =>
    Register.relate_iff hcs hsharp ht (haccounted.hasClause (haccounted.carried v hv))
  obtain ⟨hadmitted, hstay⟩ := makeWay_of_not_generalizes hadmits
  intro u
  rw [mem_visible_join, carried_join, List.forall_mem_append, List.forall_mem_singleton,
    List.mem_append, List.mem_singleton, hstay, hadmitted]
  constructor
  · rintro (⟨hu, hnot⟩ | ⟨rfl, -⟩)
    · obtain ⟨hucarried, huleast⟩ := (h u).mp hu
      refine ⟨.inl hucarried, huleast, fun htu => (hjudge u hu).2.mp ?_⟩
      exact Relationship.covers_of_equal (((Relationship.isCovered_iff _).mp
        ((hjudge u hu).1.mpr htu)).resolve_right hnot)
    · refine ⟨.inr rfl, fun w hw hwu => ?_, id⟩
      -- what the node shows in place of `w` is as wide as the trigger
      obtain ⟨v, hv, hvw⟩ := haccounted.shown w hw
      have hle := ((Relationship.covers_iff _).mp
        ((hjudge v hv).2.mpr (htrans hvw hwu))).resolve_right (hadmits v hv)
      exact htrans ((hjudge v hv).1.mp (Relationship.isCovered_of_equal hle)) hvw
  · rintro ⟨hu | rfl, huleast, hut⟩
    · have hvisible := (h u).mpr ⟨hu, huleast⟩
      refine .inl ⟨hvisible, fun hlt => ?_⟩
      have hback := (hjudge u hvisible).2.mpr
        (hut ((hjudge u hvisible).1.mp (Relationship.isCovered_of_specializes hlt)))
      rw [hlt] at hback
      exact Bool.false_ne_true hback
    · exact .inr ⟨rfl, rfl⟩

/-- **Joining keeps the narrowest in view.** -/
theorem ShowsNarrowest.join (hcs : cs.Lawful) (hsharp : r.Sharp cs)
    (haccounted : n.Accounted cs r) (ht : r.HasClause t) (h : n.ShowsNarrowest cs r) :
    (n.join (r.relate cs t) t).ShowsNarrowest cs r := by
  by_cases hrefused : ∃ w ∈ n.visible, r.relate cs t w = .generalizes
  · obtain ⟨w, hw, hwide⟩ := hrefused
    exact h.join_of_generalizes hcs hsharp haccounted ht hw hwide
  · push Not at hrefused
    exact h.join_of_not_generalizes hcs hsharp haccounted ht hrefused

/-- **A settled node**: it shows the narrowest of its triggers, and its clause has nothing
to reorder. -/
structure Settled (cs : Comparers) (r : Register α) (n : Node) : Prop where
  /-- It shows the narrowest of its triggers. -/
  narrowest : n.ShowsNarrowest cs r
  /-- The predicates of its clause are simple. -/
  simple : n.clause.AllConjuncts (·.simple = true)

theorem Settled.congr (h : n.Settled cs r) (hget : ∀ u ∈ n.carried, r'.get? u = r.get? u) :
    n.Settled cs r' :=
  ⟨h.narrowest.congr hget, h.simple⟩

end Node

namespace Tree

variable {α : Type} [DecidableEq α] {cs : Comparers} {opts : List Optimizer} {tree : Tree α}

/-! ## Growing trees -/

/-- An addition is admitted if the action is not in the tree, no active clause has an
ignored condition, and all predicates of active clauses are simple. -/
def Growing (tree : Tree α) : Change α → Prop
  | .add expression action quantifiers =>
    tree.Plain (.add expression action quantifiers) ∧
      tree.Fresh (.add expression action quantifiers) ∧
      ∀ c ∈ (tree.incoming expression action quantifiers).active,
        c.AllConjuncts (·.simple = true)
  | .remove _ => False

theorem Reached.plain (h : Reached Growing cs opts tree) : Reached Plain cs opts tree :=
  h.mono fun _ c hc => by
    cases c with
    | add expression action quantifiers => exact hc.1
    | remove id => exact hc.elim

theorem Reached.fresh (h : Reached Growing cs opts tree) : Reached Fresh cs opts tree :=
  h.mono fun _ c hc => by
    cases c with
    | add expression action quantifiers => exact hc.2.1
    | remove id => exact hc.elim

/-- An incoming trigger without ignored conditions leaves the register sharp. -/
theorem Reached.sharp_push (hcs : cs.Lawful) (h : Reached Plain cs opts tree)
    {expression : Expression} {action : α} {quantifiers : List Quantifier}
    (hplain : tree.Plain (.add expression action quantifiers)) :
    (tree.triggers.push (tree.incoming expression action quantifiers)).Sharp cs := by
  intro id u hu
  rw [Register.get?_push] at hu
  split at hu
  · obtain rfl := Option.some.inj hu
    rw [← h.comparers]
    exact Trigger.Unconditional.sharp hplain
  · exact h.sharp hcs id u hu

/-- **Filing keeps nodes settled**: a node is as it was, or the trigger joined it, or it is
made from one of the trigger's clauses. -/
theorem settled_filing (hcs : cs.Lawful) (haccounted : tree.NodesAccounted cs)
    (hs : tree.Sound cs opts) {t : Trigger α} (hsharp : (tree.triggers.push t).Sharp cs)
    (hsimple : ∀ c ∈ t.active, c.AllConjuncts (·.simple = true))
    (h : AllNodes (Node.Settled cs tree.triggers) tree.store) :
    AllNodes (Node.Settled cs (tree.triggers.push t)) (tree.filing t).2 := by
  have hfiled := haccounted.filing hcs hs t
  -- the nodes that were there do not know the trigger
  have hother : ∀ v, tree.store.Reachable v → ∀ m, tree.store.bare v = some m →
      ∀ u ∈ m.carried, (tree.triggers.push t).get? u = tree.triggers.get? u :=
    fun v hv m hm u hu => by
      refine get?_push_of_ne tree t ?_
      rintro rfl
      exact haccounted.nextId_notMem v hv m hm hu
  intro v hv n hn
  rcases hfiled.descends v hv n hn with ⟨hbefore, m, hm, rfl | ⟨-, rfl⟩⟩ | ⟨-, c, hc, rfl⟩
  · exact (h v hbefore n hm).congr (hother v hbefore n hm)
  · have hsettled := (h v hbefore m hm).congr (hother v hbefore m hm)
    have hregistered : (tree.triggers.push t).HasClause tree.triggers.nextId :=
      (hfiled.nodes v hv _ hn).hasClause (List.mem_append_right _ (List.mem_singleton_self _))
    exact ⟨hsettled.narrowest.join hcs hsharp
      ((haccounted v hbefore m hm).congr (hother v hbefore m hm)) hregistered, hsettled.simple⟩
  · exact ⟨Node.showsNarrowest_ofTrigger cs _ _ _, hsimple c hc⟩

/-- **Every node of a growing tree is settled.** -/
theorem Reached.settled (hcs : cs.Lawful) (h : Reached Growing cs opts tree) :
    AllNodes (Node.Settled cs tree.triggers) tree.store := by
  induction h with
  | empty =>
    intro v _ n hn
    obtain ⟨m, hm, rfl⟩ := Option.map_eq_some_iff.mp hn
    rw [(Store.get?_initial hm).2]
    exact ⟨Node.showsNarrowest_ofClause cs _ _, fun p hp => absurd hp List.not_mem_nil⟩
  | @change tree h c hc ih =>
    cases c with
    | remove id => exact hc.elim
    | add expression action quantifiers =>
      obtain ⟨hplain, -, hsimple⟩ := hc
      have hs := h.sound hcs
      have haccounted := h.nodesAccounted hcs
      obtain ⟨-, -, hstore, htriggers⟩ := tree.add_cases expression action quantifiers
      have hfiled := haccounted.filing hcs hs (tree.incoming expression action quantifiers)
      have hnodes := settled_filing hcs haccounted hs (h.plain.sharp_push hcs hplain) hsimple ih
      show AllNodes (Node.Settled cs (tree.add _ _ _).2.triggers)
        (tree.add expression action quantifiers).2.store
      rw [hstore, htriggers]
      refine AllNodes.sweep hcs hfiled.sound ?_
      split
      · exact hnodes
      · next hplaced =>
        -- the trigger is struck off again
        refine fun v hv n hn => (hnodes v hv n hn).congr fun u hu => ?_
        rw [Register.get?_erase, if_neg]
        rintro rfl
        exact hfiled.quiet (mt List.contains_iff_mem.mpr hplaced) v hv n hn hu

end Tree

end Specificity
