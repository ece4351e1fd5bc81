import Specificity.Proofs.Bounds
import Specificity.Proofs.Filing
import Specificity.Proofs.TriggerOrder
import Specificity.Tree.Audit

/-!
# Audits find nothing

An audit asks at every node for what the neighbours of the node can tell
(`Tree.Flawless`). That children are narrower and siblings incomparable holds after
any history, and so does that a hidden trigger is no narrower than one that is shown.

The audit asks for more: a hidden trigger must be *judged* at least as wide as one
that is shown. The judgement says so as long as the triggers are sharp, hence if no
active clause has an ignored condition. Otherwise two triggers may each be judged
narrower than the other one, and an audit then complains about whichever is hidden.
-/

namespace Specificity

/-! ## What an audit asks for -/

/-- The pairs of a list satisfy what its members satisfy pairwise. -/
theorem forall_mem_pairs {β : Type} {R : β → β → Prop} (xs : List β) :
    (∀ p ∈ pairs xs, R p.1 p.2) ↔ xs.Pairwise R := by
  induction xs with
  | nil => exact ⟨fun _ => .nil, fun _ p hp => absurd hp List.not_mem_nil⟩
  | cons x xs ih =>
    rw [pairs, List.forall_mem_append, List.forall_mem_map, ih, List.pairwise_cons]

namespace Tree

variable {α : Type} {cs : Comparers} {opts : List Optimizer} {tree : Tree α} {v : NodeId}
  {n : Node}

/-- **A node without a flaw** that an audit could find. -/
structure Flawless (tree : Tree α) (v : NodeId) (n : Node) : Prop where
  /-- Children are narrower. -/
  narrower : ∀ c ∈ n.children, tree.store.relate tree.comparers c v = .specializes
  /-- Children are incomparable to each other. -/
  siblings : n.children.Pairwise fun a b =>
    tree.store.relate tree.comparers a b = .incomparable
  /-- The triggers that are listed are in the tree. -/
  known : ∀ t ∈ n.carried ++ n.visible, (tree.trigger? t).isSome = true
  /-- What is hidden is judged equal to or wider than something that is visible. -/
  covered : ∀ t ∈ n.carried, t ∈ n.visible ∨
    ∃ u ∈ n.visible, (tree.triggers.relate tree.comparers t u).covers = true

theorem childFault?_eq_none_iff (tree : Tree α) (v : NodeId) (n : Node) :
    tree.childFault? v n = none ↔
      ∀ c ∈ n.children, tree.store.relate tree.comparers c v = .specializes := by
  unfold childFault?
  rw [List.findSome?_eq_none_iff]
  refine forall₂_congr fun c _ => ?_
  dsimp only
  split <;> simp_all

theorem siblingFault?_eq_none_iff (tree : Tree α) (v : NodeId) (n : Node) :
    tree.siblingFault? v n = none ↔
      n.children.Pairwise fun a b => tree.store.relate tree.comparers a b = .incomparable := by
  unfold siblingFault?
  rw [List.findSome?_eq_none_iff, ← forall_mem_pairs]
  refine forall₂_congr fun p _ => ?_
  dsimp only
  split <;> simp_all

theorem unknownFault?_eq_none_iff (tree : Tree α) (v : NodeId) (n : Node) :
    tree.unknownFault? v n = none ↔
      ∀ t ∈ n.carried ++ n.visible, (tree.trigger? t).isSome = true := by
  unfold unknownFault?
  rw [List.findSome?_eq_none_iff]
  refine forall₂_congr fun t _ => ?_
  split <;> simp_all

theorem coverageFault?_eq_none_iff (tree : Tree α) (v : NodeId) (n : Node) :
    tree.coverageFault? v n = none ↔ ∀ t ∈ n.carried, t ∈ n.visible ∨
      ∃ u ∈ n.visible, (tree.triggers.relate tree.comparers t u).covers = true := by
  unfold coverageFault?
  rw [List.findSome?_eq_none_iff]
  refine forall₂_congr fun t _ => ?_
  have hcovered : tree.isCovered n t = true ↔ t ∈ n.visible ∨
      ∃ u ∈ n.visible, (tree.triggers.relate tree.comparers t u).covers = true := by
    unfold isCovered
    rw [List.any_eq_true]
    constructor
    · rintro ⟨u, hu, hcov⟩
      rcases Bool.or_eq_true_iff.mp hcov with heq | hcov
      · exact .inl (of_decide_eq_true heq ▸ hu)
      · exact .inr ⟨u, hu, hcov⟩
    · rintro (ht | ⟨u, hu, hcov⟩)
      · exact ⟨t, ht, by simp⟩
      · exact ⟨u, hu, by simp [hcov]⟩
  rw [← hcovered]
  split <;> simp_all

/-- **What an audit asks of a node**: the four questions it tries one by one. -/
theorem faultAt?_eq_none_iff (hn : tree.store.get? v = some n) :
    tree.faultAt? v = none ↔ tree.Flawless v n := by
  unfold faultAt?
  simp only [hn, Option.or_eq_none_iff, childFault?_eq_none_iff, siblingFault?_eq_none_iff,
    unknownFault?_eq_none_iff, coverageFault?_eq_none_iff]
  exact ⟨fun h => ⟨h.1, h.2.1, h.2.2.1, h.2.2.2⟩,
    fun h => ⟨h.narrower, h.siblings, h.known, h.covered⟩⟩

/-- **An audit finds nothing** exactly if no node that is reached has a flaw. -/
theorem fault?_eq_none_iff (tree : Tree α) :
    tree.fault? = none ↔
      ∀ v n, tree.store.Reachable v → tree.store.get? v = some n → tree.Flawless v n := by
  unfold fault?
  rw [List.findSome?_eq_none_iff]
  constructor
  · intro h v n hv hn
    exact (faultAt?_eq_none_iff hn).mp (h v ((Store.mem_preorder_iff tree.store v).mpr hv))
  · intro h v hv
    cases hn : tree.store.get? v with
    | none => simp only [faultAt?, hn]
    | some n =>
      exact (faultAt?_eq_none_iff hn).mpr
        (h v n ((Store.mem_preorder_iff tree.store v).mp hv) hn)

/-! ## Triggers without ignored conditions -/

section

variable [DecidableEq α]

/-- An addition is admitted if no active clause of its trigger has an ignored condition. -/
def Plain (tree : Tree α) : Change α → Prop
  | .add expression action quantifiers =>
    (tree.incoming expression action quantifiers).Unconditional
  | .remove _ => True

instance (tree : Tree α) : ∀ c, Decidable (tree.Plain c)
  | .add expression action quantifiers =>
    inferInstanceAs (Decidable (tree.incoming expression action quantifiers).Unconditional)
  | .remove _ => inferInstanceAs (Decidable True)

/-- **Registered triggers have no ignored conditions**, if none was added that has. -/
theorem Reached.unconditional (h : Reached Plain cs opts tree) :
    ∀ id t, tree.trigger? id = some t → t.Unconditional := by
  induction h with
  | empty => exact fun id t ht => (Option.some_ne_none t ht.symm).elim
  | @change tree h c hplain ih =>
    intro id t ht
    cases c with
    | add expression action quantifiers =>
      rcases trigger?_add ht with ⟨-, rfl⟩ | ht
      · exact hplain
      · exact ih id t ht
    | remove removed => exact ih id t (trigger?_remove ht).1

/-- **Registered triggers are sharp** as long as none has an ignored condition. -/
theorem Reached.sharp (hcs : cs.Lawful) (h : Reached Plain cs opts tree) :
    tree.triggers.Sharp cs := by
  intro id t ht
  have hplain := h.unconditional id t ht
  have hbuilt := (h.sound hcs).built id t ht
  rw [hbuilt] at hplain ⊢
  exact hplain.sharp

end

/-! ## Audits -/

/-- **The local half of the hierarchy and of the account**: no node of a tree in order has
a flaw, if its triggers are sharp. -/
theorem Sound.flawless (hcs : cs.Lawful) (hs : tree.Sound cs opts)
    (haccounted : tree.NodesAccounted cs) (hsharp : tree.triggers.Sharp cs)
    (hv : tree.store.Reachable v) (hn : tree.store.get? v = some n) : tree.Flawless v n := by
  have hcovers := hs.store.diagram.covers v hv
  have hchildren : tree.store.children v = n.children := by rw [Store.children, hn]
  have hnode := haccounted v hv n.bare (Store.bare_eq_some hn)
  constructor
  · rw [← hchildren, hs.comparers]
    exact hcovers.narrower
  · rw [← hchildren, hs.comparers]
    exact hcovers.siblings
  · intro t ht
    have hmem : t ∈ n.carried := (List.mem_append.mp ht).elim id (hnode.carried t)
    obtain ⟨u, hu, -⟩ := hnode.hasClause hmem
    rw [trigger?, hu]
    rfl
  · intro t ht
    obtain ⟨u, hu, hwithin⟩ := hnode.shown t ht
    refine .inr ⟨u, hu, ?_⟩
    rw [hs.comparers]
    exact (Register.relate_iff hcs hsharp (hnode.hasClause ht)
      (hnode.hasClause (hnode.carried u hu))).2.mpr hwithin

/-- An audit finds nothing in a reached tree whose triggers are sharp. -/
theorem Reached.fault?_eq_none_of_sharp [DecidableEq α] {ok : Tree α → Change α → Prop}
    (hcs : cs.Lawful) (h : Reached ok cs opts tree) (hsharp : tree.triggers.Sharp cs) :
    tree.fault? = none :=
  (fault?_eq_none_iff tree).mpr fun _ _ hv hn =>
    (h.sound hcs).flawless hcs (h.nodesAccounted hcs) hsharp hv hn

/-- **Audits find nothing** in a tree that additions without ignored conditions and removals
lead to. -/
theorem fault?_eq_none_of_reached [DecidableEq α] (hcs : cs.Lawful)
    (h : Reached Plain cs opts tree) :
    tree.fault? = none ∧
      ∀ v n, tree.store.Reachable v → tree.store.get? v = some n → tree.Flawless v n := by
  have hflawless : ∀ v n, tree.store.Reachable v → tree.store.get? v = some n →
      tree.Flawless v n := fun v n hv hn =>
    (h.sound hcs).flawless hcs (h.nodesAccounted hcs) (h.sharp hcs) hv hn
  exact ⟨(fault?_eq_none_iff tree).mpr hflawless, hflawless⟩

/-- A trigger hides a wider one at their common clause and is removed again. -/
theorem fault?_eq_none_promoted :
    let tree : Tree Nat := .run .empty [] [.add (.or [.accessor "a", .accessor "b"]) 1 [],
      .add (.accessor "a") 2 [], .remove ⟨1⟩]
    tree.fault? = none ∧
      ∀ v n, tree.store.Reachable v → tree.store.get? v = some n → tree.Flawless v n :=
  fault?_eq_none_of_reached Comparers.lawful_empty
    (.change (.change (.change .empty (.add _ 1 []) (by decide +kernel)) (.add _ 2 [])
      (by decide +kernel)) (.remove _) trivial)

/-- With an ignored condition the first trigger is hidden by one that is judged wider. -/
example :
    let mixed : Expression := .or [.and [.accessor "a", .ignore (.accessor "i")],
      .and [.accessor "a", .accessor "b"]]
    (Tree.run .empty [] [.add mixed 1 [], .add (.accessor "a") 2 []] : Tree Nat).fault?.isSome
      = true := by
  decide +kernel

end Tree

end Specificity
