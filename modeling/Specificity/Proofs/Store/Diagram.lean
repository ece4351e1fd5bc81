import Mathlib.Data.List.Pairwise
import Mathlib.Logic.Relation
import Specificity.Proofs.Store.Rewiring

/-!
# Covering diagrams

The nodes `V` of a store form a *covering diagram* if the children of each of
them are just the widest members of `V` below it. This is a condition on one
list of children at a time (`Store.CoversAt`), so it can be carried through
operations that change one list at a time; what it says about ways down
follows from it: one node is reached from another exactly if it is at most as
wide, no way leads back, and a diagram is what is reached from its root.
-/

namespace Specificity

namespace Store

variable {cs : Comparers} {s t : Store} {V W : Set NodeId}

/-! ## Ways down -/

/-- Is `b` a child of `a`? -/
def Child (s : Store) (a b : NodeId) : Prop := b ∈ s.children a

/-- **Is there a way down** from `a` to `b`? -/
def Reaches (s : Store) : NodeId → NodeId → Prop := Relation.ReflTransGen s.Child

/-- Is there a way down from the root? -/
def Reachable (s : Store) (id : NodeId) : Prop := s.Reaches .root id

/-! ## Widest members -/

/-- **The children of `u` are the widest members of `W` below it.** -/
structure CoversAt (cs : Comparers) (s : Store) (W : Set NodeId) (u : NodeId) : Prop where
  /-- Children are members. -/
  mem : ∀ k ∈ s.children u, k ∈ W
  /-- Children are narrower. -/
  narrower : ∀ k ∈ s.children u, s.relate cs k u = .specializes
  /-- Children are incomparable to each other. -/
  siblings : (s.children u).Pairwise fun a b => s.relate cs a b = .incomparable
  /-- Every member that is narrower is at or below a child. -/
  covering : ∀ v ∈ W, s.relate cs v u = .specializes →
    ∃ k ∈ s.children u, (s.relate cs v k).isCovered = true

/-- Only the relationships and the one list of children matter. -/
theorem CoversAt.congr {u : NodeId} (h : s.CoversAt cs W u)
    (hrel : t.relate cs = s.relate cs) (hks : t.children u = s.children u) :
    t.CoversAt cs W u := by
  exact {
    mem := by
      rw [hks]
      exact h.mem
    narrower := by
      rw [hks, hrel]
      exact h.narrower
    siblings := by
      rw [hks, hrel]
      exact h.siblings
    covering := by
      rw [hks, hrel]
      exact h.covering }

/-- Two children are incomparable. -/
theorem CoversAt.incomparable (hcs : cs.Lawful) {u a b : NodeId} (h : s.CoversAt cs W u)
    (ha : a ∈ s.children u) (hb : b ∈ s.children u) (hne : a ≠ b) :
    s.relate cs a b = .incomparable := by
  have hsymm : Std.Symm fun a b => s.relate cs a b = .incomparable :=
    ⟨fun _ _ => (orderly_relate hcs s).incomparable_symm⟩
  exact h.siblings.forall ha hb hne

/-- No child is listed twice. -/
theorem CoversAt.nodup (hcs : cs.Lawful) {u : NodeId} (h : s.CoversAt cs W u) :
    (s.children u).Nodup := by
  refine h.siblings.imp_of_mem fun {a b} ha _ hab => ?_
  rintro rfl
  have hstored := (isSome_of_relate (by rw [h.narrower a ha]; decide)).1
  rw [relate_self hcs hstored] at hab
  exact absurd hab (by decide)

/-- **Covering diagrams**: the nodes `V` below a root that stands for the empty
clause, no two of them equal, each with the widest ones below it as children. -/
structure Diagram (cs : Comparers) (s : Store) (V : Set NodeId) : Prop where
  /-- The root is a member. -/
  root_mem : .root ∈ V
  /-- The root stands for the empty clause. -/
  root_clause : (s.get? .root).map Node.clause = some .empty
  /-- All other members are narrower than the root. -/
  below_root : ∀ v ∈ V, v ≠ .root → s.relate cs v .root = .specializes
  /-- Members are stored. -/
  stored : ∀ v ∈ V, (s.get? v).isSome = true
  /-- Equal members are the same. -/
  distinct : ∀ u ∈ V, ∀ v ∈ V, s.relate cs u v = .equal → u = v
  /-- The children of a member are the widest members below it. -/
  covers : ∀ u ∈ V, s.CoversAt cs V u

namespace Diagram

theorem isCovered_root (hcs : cs.Lawful) (h : s.Diagram cs V) {v : NodeId} (hv : v ∈ V) :
    (s.relate cs v .root).isCovered = true := by
  by_cases hroot : v = .root
  · rw [hroot]
    exact isCovered_self hcs (h.stored _ h.root_mem)
  · exact Relationship.isCovered_of_specializes (h.below_root v hv hroot)

/-- **Every node at most as wide is below**: there is a way down to it. The
induction is on the height of the upper node. -/
theorem reaches_of_isCovered (hcs : cs.Lawful) (h : s.Diagram cs V) {u v : NodeId}
    (hu : u ∈ V) (hv : v ∈ V) (hvu : (s.relate cs v u).isCovered = true) :
    s.Reaches u v := by
  induction hheight : s.height cs u using Nat.strong_induction_on generalizing u with
  | _ n ih =>
    rcases (Relationship.isCovered_iff _).mp hvu with hequal | hbelow
    · rw [h.distinct v hv u hu hequal]
      exact Relation.ReflTransGen.refl
    · obtain ⟨k, hk, hvk⟩ := (h.covers u hu).covering v hv hbelow
      have hlt : s.height cs k < n := hheight ▸ height_lt hcs ((h.covers u hu).narrower k hk)
      exact Relation.ReflTransGen.head hk
        (ih _ hlt ((h.covers u hu).mem k hk) hvk rfl)

/-- **Every node below is at most as wide**, and a member. -/
theorem isCovered_of_reaches (hcs : cs.Lawful) (h : s.Diagram cs V) {u v : NodeId}
    (hu : u ∈ V) (huv : s.Reaches u v) : v ∈ V ∧ (s.relate cs v u).isCovered = true := by
  induction huv with
  | refl => exact ⟨hu, isCovered_self hcs (h.stored u hu)⟩
  | tail _ hchild ih =>
    obtain ⟨hmem, hle⟩ := ih
    have hlt := (h.covers _ hmem).narrower _ hchild
    exact ⟨(h.covers _ hmem).mem _ hchild, (orderly_relate hcs s).isCovered_trans
      (Relationship.isCovered_of_specializes hlt) hle⟩

/-- **A diagram is what is reached from its root.** -/
theorem mem_iff_reachable (hcs : cs.Lawful) (h : s.Diagram cs V) (v : NodeId) :
    v ∈ V ↔ s.Reachable v :=
  ⟨fun hv => h.reaches_of_isCovered hcs h.root_mem hv (h.isCovered_root hcs hv),
    fun hv => (h.isCovered_of_reaches hcs h.root_mem hv).1⟩

/-- A way of one step or more leads to a narrower node. -/
theorem specializes_of_transGen (hcs : cs.Lawful) (h : s.Diagram cs V) {u v : NodeId}
    (hu : u ∈ V) (huv : Relation.TransGen s.Child u v) : s.relate cs v u = .specializes := by
  obtain ⟨w, huw, hwv⟩ := Relation.TransGen.tail'_iff.mp huv
  obtain ⟨hw, hle⟩ := h.isCovered_of_reaches hcs hu huw
  exact (orderly_relate hcs s).specializes_of_specializes_of_isCovered
    ((h.covers w hw).narrower v hwv) hle

/-- Only the relationships and the lists of children of the members matter. -/
theorem congr (h : s.Diagram cs V)
    (hrel : ∀ u ∈ V, ∀ v ∈ V, t.relate cs u v = s.relate cs u v)
    (hroot : (t.get? .root).map Node.clause = (s.get? .root).map Node.clause)
    (hstored : ∀ v ∈ V, (t.get? v).isSome = true)
    (hks : ∀ v ∈ V, t.children v = s.children v) : t.Diagram cs V where
  root_mem := h.root_mem
  root_clause := hroot.trans h.root_clause
  below_root v hv hne := (hrel v hv _ h.root_mem).trans (h.below_root v hv hne)
  stored := hstored
  distinct u hu v hv hequal := h.distinct u hu v hv ((hrel u hu v hv).symm.trans hequal)
  covers u hu := by
    have hcovers := h.covers u hu
    constructor
    · rw [hks u hu]
      exact hcovers.mem
    · rw [hks u hu]
      exact fun k hk => (hrel k (hcovers.mem k hk) u hu).trans (hcovers.narrower k hk)
    · rw [hks u hu]
      exact hcovers.siblings.imp_of_mem fun ha hb hab =>
        (hrel _ (hcovers.mem _ ha) _ (hcovers.mem _ hb)).trans hab
    · rw [hks u hu]
      intro v hv hbelow
      obtain ⟨k, hk, hvk⟩ := hcovers.covering v hv ((hrel v hv u hu).symm.trans hbelow)
      exact ⟨k, hk, (hrel v hv k (hcovers.mem k hk)).symm ▸ hvk⟩

end Diagram

end Store

end Specificity
