import Specificity.Proofs.Bounds
import Specificity.Proofs.History

/-!
# The shape of a tree

Under a lawful registry a tree is nothing but its clauses: whatever was added
and removed, and in which order, the nodes reached from the root are linked
exactly as the order of their clauses asks for. A node hangs below just those
nodes that are wider with nothing in between (`Tree.Hierarchical.covering`).

Audits check the local half of this, that children are narrower and siblings
incomparable. The other half, that every narrower node is found below, cannot be
told from the neighbours of a node, and it is what matching relies on.
-/

namespace Specificity

namespace Store

variable {cs : Comparers} {s : Store} {V : Set NodeId}

/-- **Children are covering pairs**: narrower, with no member in between. -/
theorem Diagram.mem_children_iff (hcs : cs.Lawful) (h : s.Diagram cs V) {u v : NodeId}
    (hu : u ∈ V) (hv : v ∈ V) :
    v ∈ s.children u ↔ s.relate cs v u = .specializes ∧
      ∀ w ∈ V, s.relate cs v w = .specializes → s.relate cs w u ≠ .specializes := by
  have hord := orderly_relate hcs s
  have hcovers := h.covers u hu
  constructor
  · intro hchild
    refine ⟨hcovers.narrower v hchild, fun w hw hvw hwu => ?_⟩
    obtain ⟨k, hk, hwk⟩ := hcovers.covering w hw hwu
    have hvk := hord.specializes_of_specializes_of_isCovered hvw hwk
    have hne : v ≠ k := by
      rintro rfl
      exact hord.specializes_irrefl v hvk
    exact absurd (hvk.symm.trans (hcovers.incomparable hcs hchild hk hne)) (by decide)
  · rintro ⟨hvu, hbetween⟩
    obtain ⟨k, hk, hvk⟩ := hcovers.covering v hv hvu
    rcases (Relationship.isCovered_iff _).mp hvk with hequal | hlt
    · rw [h.distinct v hv k (hcovers.mem k hk) hequal]
      exact hk
    · exact absurd (hcovers.narrower k hk) (hbetween k (hcovers.mem k hk) hlt)

/-- **A narrower node is below**, by one step or more. -/
theorem Diagram.transGen_of_specializes (hcs : cs.Lawful) (h : s.Diagram cs V) {u v : NodeId}
    (hu : u ∈ V) (hv : v ∈ V) (hvu : s.relate cs v u = .specializes) :
    Relation.TransGen s.Child u v := by
  obtain ⟨k, hk, hvk⟩ := (h.covers u hu).covering v hv hvu
  exact Relation.TransGen.head' hk
    (h.reaches_of_isCovered hcs ((h.covers u hu).mem k hk) hv hvk)

end Store

namespace Tree

variable {α : Type} {cs : Comparers} {opts : List Optimizer} {tree : Tree α}

/-- **The covering diagram of the clauses**: what it is for the nodes reached from the
root to be linked by specificity. -/
structure Hierarchical (tree : Tree α) : Prop where
  /-- Nodes that are reached are stored. -/
  stored : ∀ u, tree.store.Reachable u → (tree.store.get? u).isSome = true
  /-- No two of them have equal clauses. -/
  distinct : ∀ u v, tree.store.Reachable u → tree.store.Reachable v →
    tree.store.relate tree.comparers u v = .equal → u = v
  /-- Children are narrower. -/
  narrower : ∀ u, tree.store.Reachable u → ∀ v ∈ tree.store.children u,
    tree.store.relate tree.comparers v u = .specializes
  /-- Children of one node are incomparable to each other. -/
  siblings : ∀ u, tree.store.Reachable u →
    (tree.store.children u).Pairwise fun a b => tree.store.relate tree.comparers a b = .incomparable
  /-- No way down leads back. -/
  acyclic : ∀ u, tree.store.Reachable u → ¬ Relation.TransGen tree.store.Child u u
  /-- To every narrower node there is a way down. -/
  complete : ∀ u v, tree.store.Reachable u → tree.store.Reachable v →
    tree.store.relate tree.comparers v u = .specializes → Relation.TransGen tree.store.Child u v
  /-- Children are just the narrower nodes with none in between. -/
  covering : ∀ u v, tree.store.Reachable u → tree.store.Reachable v →
    (v ∈ tree.store.children u ↔ tree.store.relate tree.comparers v u = .specializes ∧
      ∀ w, tree.store.Reachable w → tree.store.relate tree.comparers v w = .specializes →
        tree.store.relate tree.comparers w u ≠ .specializes)

/-- **Additions and removals keep the hierarchy**: every tree they lead to is the
covering diagram of its clauses. -/
theorem hierarchical_of_reached [DecidableEq α] (hcs : cs.Lawful)
    (h : Reached Free cs opts tree) : tree.Hierarchical := by
  have hsound := h.sound hcs
  have hdiagram := hsound.store.diagram
  rw [← hsound.comparers] at hcs hdiagram
  exact {
    stored := hdiagram.stored
    distinct := fun u v hu hv => hdiagram.distinct u hu v hv
    narrower := fun u hu => (hdiagram.covers u hu).narrower
    siblings := fun u hu => (hdiagram.covers u hu).siblings
    acyclic := fun u hu hloop => (Store.orderly_relate hcs tree.store).specializes_irrefl u
      (hdiagram.specializes_of_transGen hcs hu hloop)
    complete := fun u v hu hv => hdiagram.transGen_of_specializes hcs hu hv
    covering := fun u v hu hv => hdiagram.mem_children_iff hcs hu hv }

/-- A narrow trigger, then a wide one, then the narrow one removed. -/
theorem hierarchical_narrow_wide :
    (Tree.run .empty [] [.add (.and [.accessor "a", .accessor "b"]) 1 [],
      .add (.accessor "a") 2 [], .remove ⟨0⟩] : Tree Nat).Hierarchical :=
  hierarchical_of_reached Comparers.lawful_empty (reached_run _ _ _)

end Tree

end Specificity
