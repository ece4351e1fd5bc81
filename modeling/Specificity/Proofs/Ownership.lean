import Specificity.Proofs.Bounds
import Specificity.Proofs.Filing

/-!
# Whose the nodes are

If no trigger is added whose action is in the tree already, the nodes of a tree are
those its triggers ask for. A node carries just the live triggers that have its
clause, each of them once. Every active clause that fits below the root has one
node, and besides the root there are no others. Two trees with the same triggers
therefore have the same clauses with the same owners, whatever was added and
removed on the way.

That no node but the root is ever left without a trigger holds after any history.
-/

namespace Specificity

/-! ## One node -/

namespace Node

variable {n : Node} {t : TriggerId}

/-- A trigger that comes after all that are there is carried as the last one. -/
theorem pairwise_carried_join {judge : TriggerId → Relationship}
    (hnew : ∀ u ∈ n.carried, u.index < t.index)
    (h : n.carried.Pairwise fun u v => u.index < v.index) :
    (n.join judge t).carried.Pairwise fun u v => u.index < v.index := by
  rw [carried_join]
  refine List.pairwise_append.mpr ⟨h, List.pairwise_singleton _ t, fun u hu v hv => ?_⟩
  rw [List.mem_singleton.mp hv]
  exact hnew u hu

/-- A node that a trigger joined has something to show: the trigger, or what turned it
away. -/
theorem visible_join_ne_nil (judge : TriggerId → Relationship) (t : TriggerId) (n : Node) :
    (n.join judge t).visible ≠ [] := by
  rcases (makeWay_spec judge n.visible).2 with hadmitted | ⟨w, hw, -⟩
  · exact List.ne_nil_of_mem ((mem_visible_join judge t t n).mpr (.inr ⟨rfl, hadmitted⟩))
  · exact List.ne_nil_of_mem ((mem_visible_join judge t w n).mpr (.inl hw))

end Node

namespace Store

variable {cs : Comparers} {s : Store} {v w : NodeId} {m n : Node} {c : Clause}

/-- The clause of a node that is reached fits below the root. -/
theorem Sound.fits (hcs : cs.Lawful) (hs : s.Sound cs) (hv : s.Reachable v)
    (hn : s.get? v = some n) : n.clause.Fits := by
  obtain ⟨root, hroot, hempty⟩ := Option.map_eq_some_iff.mp hs.diagram.root_clause
  have hle := hs.diagram.isCovered_root hcs hv
  rw [relate_eq hn hroot, hempty] at hle
  exact (Clause.fits_iff cs n.clause).mpr hle

/-- **A clause has one node** at most. -/
theorem Sound.eq_of_equal (hcs : cs.Lawful) (hs : s.Sound cs) (hv : s.Reachable v)
    (hw : s.Reachable w) (hm : s.get? v = some m) (hn : s.get? w = some n)
    (hmc : m.clause.relate cs c = .equal) (hnc : n.clause.relate cs c = .equal) : v = w := by
  have hord := Clause.orderly_relate hcs
  refine hs.diagram.distinct v hv w hw ?_
  rw [relate_eq hm hn, hord.eq_of_equal hmc]
  exact hord.equal_symm hnc

end Store

/-- What a trigger asks of a tree: its action and its active clauses. -/
def Trigger.request {α : Type} (t : Trigger α) : α × List Clause := (t.action, t.active)

namespace Tree

variable {α : Type} {cs : Comparers} {opts : List Optimizer} {tree : Tree α} {v : NodeId}
  {n : Node} {c : Clause}

/-! ## After any history -/

section

variable [DecidableEq α] {ok : Tree α → Change α → Prop}

/-- **Nodes carry triggers in the order of their handles**, in every reached tree. -/
theorem Reached.pairwise_carried (hcs : cs.Lawful) (h : Reached ok cs opts tree) :
    AllNodes (fun n => n.carried.Pairwise fun u v => u.index < v.index) tree.store := by
  induction h with
  | empty =>
    intro v _ n hn
    obtain ⟨m, hm, rfl⟩ := Option.map_eq_some_iff.mp hn
    rw [(Store.get?_initial hm).2]
    exact .nil
  | @change tree h c _ ih =>
    have hs := h.sound hcs
    have haccounted := h.nodesAccounted hcs
    cases c with
    | add expression action quantifiers =>
      obtain ⟨-, -, hstore, -⟩ := tree.add_cases expression action quantifiers
      set t := tree.incoming expression action quantifiers
      have hfiled := haccounted.filing hcs hs t
      show AllNodes _ (tree.add expression action quantifiers).2.store
      rw [hstore]
      refine AllNodes.sweep hcs hfiled.sound fun v hv n hn => ?_
      rcases hfiled.descends v hv n hn with
        ⟨hv, m, hm, rfl | ⟨-, rfl⟩⟩ | ⟨-, c, -, rfl⟩
      · exact ih v hv n hm
      · refine Node.pairwise_carried_join (fun u hu => ?_) (ih v hv m hm)
        obtain ⟨x, hx, -⟩ := (haccounted v hv m hm).has u hu
        exact Register.index_lt_of_get? hx
      · exact List.pairwise_singleton _ _
    | remove id =>
      show AllNodes _ (tree.remove id).2.store
      rcases tree.remove_cases id with ⟨-, heq⟩ | ⟨-, -, -, hstore, -⟩
      · rw [heq]
        exact ih
      · obtain ⟨hwithdrawn, hspec⟩ := hs.store.withdraw hcs tree.triggers id
        rw [hstore, hs.comparers]
        refine AllNodes.sweep hcs hwithdrawn fun v hv n hn => ?_
        obtain ⟨hv, m, hm, rfl, -⟩ := (hspec.descends hcs v hv n hn).resolve_right And.right
        exact (ih v hv m hm).sublist (Node.carried_without_sublist _ _ m)

/-- **No node carries a trigger twice**, in every reached tree. -/
theorem Reached.nodup_carried (hcs : cs.Lawful) (h : Reached ok cs opts tree)
    (hv : tree.store.Reachable v) (hn : tree.store.get? v = some n) : n.carried.Nodup := by
  refine (h.pairwise_carried hcs v hv n.bare (Store.bare_eq_some hn)).imp ?_
  rintro u w hlt rfl
  exact Nat.lt_irrefl _ hlt

/-- **Every node but the root has something to show**, in every reached tree. -/
theorem Reached.visible_ne_nil (hcs : cs.Lawful) (h : Reached ok cs opts tree)
    (hv : tree.store.Reachable v) (hne : v ≠ .root) (hn : tree.store.get? v = some n) :
    n.visible ≠ [] := by
  have hall := h.allNodes (P := fun n => n.clause = .empty ∨ n.visible ≠ []) hcs (.inl rfl)
    (fun _ t => .inr (List.cons_ne_nil t []))
    (fun judge t n _ => .inr (Node.visible_join_ne_nil judge t n))
    (fun judge t n hshows _ => by rwa [Node.clause_without])
  refine (hall v hv n.bare (Store.bare_eq_some hn)).resolve_left fun hempty => hne ?_
  have hs := (h.sound hcs).store
  obtain ⟨root, hroot, hrootempty⟩ := Option.map_eq_some_iff.mp hs.diagram.root_clause
  exact hs.eq_of_equal (c := .empty) hcs hv Relation.ReflTransGen.refl hn hroot
    (hempty ▸ Clause.relate_self hcs _) (hrootempty ▸ Clause.relate_self hcs _)

/-- **Every node but the root carries a trigger**, in every reached tree. -/
theorem Reached.carried_ne_nil (hcs : cs.Lawful) (h : Reached ok cs opts tree)
    (hv : tree.store.Reachable v) (hne : v ≠ .root) (hn : tree.store.get? v = some n) :
    n.carried ≠ [] := by
  obtain ⟨u, hu⟩ := List.exists_mem_of_ne_nil _ (h.visible_ne_nil hcs hv hne hn)
  have hnode := h.nodesAccounted hcs v hv n.bare (Store.bare_eq_some hn)
  exact List.ne_nil_of_mem (hnode.carried u hu)

end

/-! ## Owners -/

/-- **A tree that its live triggers own.** -/
structure Owned (tree : Tree α) : Prop where
  /-- A node carries just the live triggers that have its clause. -/
  carried : ∀ v n, tree.store.Reachable v → tree.store.get? v = some n → ∀ id,
    id ∈ n.carried ↔ ∃ t, tree.trigger? id = some t ∧ t.Has tree.comparers n.clause
  /-- It carries each of them once. -/
  once : ∀ v n, tree.store.Reachable v → tree.store.get? v = some n → n.carried.Nodup
  /-- Nodes other than the root carry something. -/
  used : ∀ v n, tree.store.Reachable v → v ≠ .root → tree.store.get? v = some n →
    n.carried ≠ []
  /-- Every active clause that fits below the root has one node. -/
  filed : ∀ id t, tree.trigger? id = some t → ∀ c ∈ t.active, c.Fits →
    ∃! v, tree.store.Reachable v ∧
      ∃ n, tree.store.get? v = some n ∧ n.clause.relate tree.comparers c = .equal

/-- **If no action was added that was there** the live triggers own the tree. -/
theorem Reached.owned [DecidableEq α] (hcs : cs.Lawful) (h : Reached Fresh cs opts tree) :
    tree.Owned := by
  have hs := h.sound hcs
  have haccounted := h.accounted hcs
  refine ⟨fun v n hv hn id => ?_, fun v n => h.nodup_carried hcs, fun v n => h.carried_ne_nil hcs,
    fun id t ht c hc hfits => ?_⟩
  · rw [hs.comparers]
    constructor
    · exact (haccounted.nodes v hv n.bare (Store.bare_eq_some hn)).has id
    · rintro ⟨t, ht, hhas⟩
      exact haccounted.mem_carried hcs hs hv (Store.bare_eq_some hn)
        (Clause.relate_self hcs n.clause) (hs.store.fits hcs hv hn) ht hhas
  · obtain ⟨v, n, hv, hn, hequal, -⟩ := haccounted.filed id t ht c hc hfits
    obtain ⟨x, hx, rfl⟩ := Option.map_eq_some_iff.mp hn
    rw [hs.comparers]
    refine ⟨v, ⟨hv, x, hx, hequal⟩, ?_⟩
    rintro w ⟨hw, m, hm, hmc⟩
    exact hs.store.eq_of_equal hcs hw hv hm hx hmc hequal

/-- Does a node stand for the clause? -/
def StandsFor (tree : Tree α) (c : Clause) : Prop :=
  ∃ v n, tree.store.Reachable v ∧ tree.store.get? v = some n ∧
    n.clause.relate tree.comparers c = .equal

/-- Does the node that stands for the clause carry a trigger with the action? -/
def Owns (tree : Tree α) (action : α) (c : Clause) : Prop :=
  ∃ v n, tree.store.Reachable v ∧ tree.store.get? v = some n ∧
    n.clause.relate tree.comparers c = .equal ∧
    ∃ id ∈ n.carried, ∃ t, tree.trigger? id = some t ∧ t.action = action

/-- Is there a live trigger with the action that has the clause? -/
def Wants (tree : Tree α) (action : α) (c : Clause) : Prop :=
  ∃ t ∈ tree.triggers.live, t.action = action ∧ t.Has tree.comparers c

/-- **The clauses of an owned tree** are the empty one and those of its triggers that fit
below the root. -/
theorem Owned.standsFor_iff (hcs : cs.Lawful) (hs : tree.Sound cs opts) (h : tree.Owned)
    (c : Clause) :
    tree.StandsFor c ↔ Clause.empty.relate cs c = .equal ∨
      c.Fits ∧ ∃ action, tree.Wants action c := by
  have hord := Clause.orderly_relate hcs
  unfold StandsFor Wants
  rw [hs.comparers]
  constructor
  · rintro ⟨v, n, hv, hn, hequal⟩
    by_cases hroot : v = .root
    · subst hroot
      obtain ⟨root, hroot, hempty⟩ := Option.map_eq_some_iff.mp hs.store.diagram.root_clause
      obtain rfl := Option.some.inj (hroot.symm.trans hn)
      exact .inl (hempty ▸ hequal)
    · obtain ⟨id, hid⟩ := List.exists_mem_of_ne_nil _ (h.used v n hv hroot hn)
      obtain ⟨t, ht, hhas⟩ := (h.carried v n hv hn id).mp hid
      rw [hs.comparers] at hhas
      refine .inr ⟨?_, t.action, t, (Register.mem_live_iff _ _).mpr ⟨id, ht⟩, rfl,
        hhas.of_equal hcs hequal⟩
      exact (hs.store.fits hcs hv hn).of_isCovered hcs
        (Relationship.isCovered_of_equal (hord.equal_symm hequal))
  · rintro (hempty | ⟨hfits, -, t, ht, -, d, hd, hdc⟩)
    · obtain ⟨root, hroot, hclause⟩ := Option.map_eq_some_iff.mp hs.store.diagram.root_clause
      exact ⟨.root, root, Relation.ReflTransGen.refl, hroot, hclause ▸ hempty⟩
    · obtain ⟨id, hid⟩ := (Register.mem_live_iff _ _).mp ht
      have hdfits := hfits.of_isCovered hcs (Relationship.isCovered_of_equal hdc)
      obtain ⟨v, ⟨hv, n, hn, hnd⟩, -⟩ := h.filed id t hid d hd hdfits
      rw [hs.comparers] at hnd
      exact ⟨v, n, hv, hn, by rw [hord.eq_of_equal hnd, hdc]⟩

/-- **The owners of a clause** are the triggers that have it, if it fits below the root. -/
theorem Owned.owns_iff (hcs : cs.Lawful) (hs : tree.Sound cs opts) (h : tree.Owned) (action : α)
    (c : Clause) : tree.Owns action c ↔ c.Fits ∧ tree.Wants action c := by
  have hord := Clause.orderly_relate hcs
  constructor
  · rintro ⟨v, n, hv, hn, hequal, id, hid, t, ht, haction⟩
    obtain ⟨u, hu, hhas⟩ := (h.carried v n hv hn id).mp hid
    obtain rfl := Option.some.inj (ht.symm.trans hu)
    refine ⟨?_, t, (Register.mem_live_iff _ _).mpr ⟨id, ht⟩, haction, ?_⟩
    · rw [hs.comparers] at hequal
      exact (hs.store.fits hcs hv hn).of_isCovered hcs
        (Relationship.isCovered_of_equal (hord.equal_symm hequal))
    · rw [hs.comparers] at hhas hequal ⊢
      exact hhas.of_equal hcs hequal
  · rintro ⟨hfits, hwants⟩
    obtain ⟨v, n, hv, hn, hequal⟩ :=
      (h.standsFor_iff hcs hs c).mpr (.inr ⟨hfits, action, hwants⟩)
    obtain ⟨t, ht, haction, hhas⟩ := hwants
    obtain ⟨id, hid⟩ := (Register.mem_live_iff _ _).mp ht
    refine ⟨v, n, hv, hn, hequal, id, (h.carried v n hv hn id).mpr ⟨t, hid, ?_⟩, t, hid, haction⟩
    rw [hs.comparers] at hhas hequal ⊢
    exact hhas.of_equal hcs (hord.equal_symm hequal)

/-- **Trees with the same triggers**, whatever the handles of these are. -/
def SameTriggers (tree tree' : Tree α) : Prop :=
  ∀ request, request ∈ tree.triggers.live.map Trigger.request ↔
    request ∈ tree'.triggers.live.map Trigger.request

theorem SameTriggers.symm {tree' : Tree α} (h : tree.SameTriggers tree') :
    tree'.SameTriggers tree := fun request => (h request).symm

/-- Trees with the same triggers have the same wants. -/
theorem SameTriggers.wants {tree' : Tree α} (h : tree.SameTriggers tree')
    (hcs : tree.comparers = tree'.comparers) {action : α} (hwants : tree.Wants action c) :
    tree'.Wants action c := by
  obtain ⟨t, ht, haction, hhas⟩ := hwants
  obtain ⟨u, hu, hrequest⟩ := List.mem_map.mp ((h t.request).mp (List.mem_map_of_mem ht))
  obtain ⟨huaction, huactive⟩ := Prod.mk.inj hrequest
  refine ⟨u, hu, huaction.trans haction, ?_⟩
  unfold Trigger.Has
  rw [huactive, ← hcs]
  exact hhas

/-- **The nodes of a tree are those its triggers ask for**, if no action was added that was
there: a node carries the live triggers that have its clause, once each, and every active
clause that fits below the root has one node. Which clauses there are and who owns them is
the same in every tree with the same triggers. -/
theorem owned_of_reached [DecidableEq α] (hcs : cs.Lawful) (h : Reached Fresh cs opts tree) :
    tree.Owned ∧ ∀ opts' tree', Reached Fresh cs opts' tree' → tree.SameTriggers tree' →
      ∀ c, (tree.StandsFor c ↔ tree'.StandsFor c) ∧
        ∀ action, tree.Owns action c ↔ tree'.Owns action c := by
  refine ⟨h.owned hcs, fun opts' tree' h' hsame c => ?_⟩
  have hs := h.sound hcs
  have hs' := h'.sound hcs
  have hwants : ∀ action, tree.Wants action c ↔ tree'.Wants action c := fun action =>
    ⟨hsame.wants (hs.comparers.trans hs'.comparers.symm),
      hsame.symm.wants (hs'.comparers.trans hs.comparers.symm)⟩
  constructor
  · rw [(h.owned hcs).standsFor_iff hcs hs, (h'.owned hcs).standsFor_iff hcs hs']
    simp only [hwants]
  · intro action
    rw [(h.owned hcs).owns_iff hcs hs, (h'.owned hcs).owns_iff hcs hs', hwants action]

/-- A trigger between two others leaves nothing behind when it is removed. -/
theorem owned_passing_trigger :
    let tree : Tree Nat := .run .empty [] [.add (.and [.accessor "a", .accessor "b"]) 1 [],
      .add (.accessor "a") 2 [], .add (.or [.accessor "a", .accessor "c"]) 3 [], .remove ⟨1⟩]
    let tree' : Tree Nat := .run .empty [] [.add (.or [.accessor "a", .accessor "c"]) 3 [],
      .add (.and [.accessor "a", .accessor "b"]) 1 []]
    tree.Owned ∧ tree.SameTriggers tree' ∧ ∀ c, (tree.StandsFor c ↔ tree'.StandsFor c) ∧
      ∀ action, tree.Owns action c ↔ tree'.Owns action c := by
  intro tree tree'
  have hreached : Reached Fresh .empty [] tree :=
    .change (.change (.change (.change .empty (.add _ 1 []) (by decide))
      (.add _ 2 []) (by decide +kernel)) (.add _ 3 []) (by decide +kernel)) (.remove _) trivial
  have hreached' : Reached Fresh .empty [] tree' :=
    .change (.change .empty (.add _ 3 []) (by decide)) (.add _ 1 []) (by decide +kernel)
  have hperm : (tree.triggers.live.map Trigger.request).Perm
      (tree'.triggers.live.map Trigger.request) := by decide +kernel
  have hsame : tree.SameTriggers tree' := fun request => hperm.mem_iff
  obtain ⟨howned, hhistory⟩ := owned_of_reached Comparers.lawful_empty hreached
  exact ⟨howned, hsame, hhistory [] tree' hreached' hsame⟩

end Tree

end Specificity
