import Specificity.Proofs.Bookkeeping

/-!
# The slots of a tree

Edges are numbers of slots, and slots are used again. An edge that outlived its node would
lead to whatever clause is stored next, without anybody noticing.

No edge does, and no judge has a say in it, nor does it matter how far an operation gets:
placing, sinking and withdrawing keep a store tidy with any fuel. A slot is emptied by the
sweep at the end of a change and at no other time, and the sweep leaves what is reached. A
node is stored in a slot that holds none, while every child has its node. So the slot handed
out for a clause is one that nothing refers to (`Store.Unreferenced`), also while the nodes
of earlier clauses of the trigger wait for the sweep, with or without a parent.
-/

namespace Specificity

namespace Store

variable {s : Store} {known : TriggerId → Prop} {v : NodeId}

/-! ## Slots in order -/

/-- **A store whose slots are in order**: each slot is free or holds a node that is reached,
and every edge leads to a node. -/
structure SlotsInOrder (s : Store) : Prop where
  /-- The free slots are those that are empty. -/
  free : ∀ v, v ∈ s.free ↔ v.index < s.slots.size ∧ s.get? v = none
  /-- No slot is free twice. -/
  once : s.free.Nodup
  /-- The slots in use hold the nodes that are reached. -/
  live : ∀ v, (s.get? v).isSome = true ↔ s.Reachable v
  /-- Every child of a node has its node. -/
  stored : ∀ v n, s.get? v = some n → ∀ k ∈ n.children, (s.get? k).isSome = true
  /-- No node lists a child twice. -/
  listed : ∀ v n, s.get? v = some n → n.children.Nodup
  /-- The slot of the root is not free. -/
  root : .root ∉ s.free

/-- **A tidy store without litter** has its slots in order. -/
theorem Tidy.slotsInOrder (h : s.Tidy known)
    (hlive : ∀ v, (s.get? v).isSome = true ↔ s.Reachable v) : s.SlotsInOrder where
  free v := ⟨fun hv => ⟨h.free.index_lt v hv, h.free.empty v hv⟩, fun hv =>
    h.free.listed v hv.1 hv.2⟩
  once := h.free.nodup
  live := hlive
  stored v n hn k hk := h.stored v k (mem_children_iff.mpr ⟨n, hn, hk⟩)
  listed := h.once
  root hroot := by
    have hreached : s.Reachable .root := Relation.ReflTransGen.refl
    have hstored := h.isSome_of_reachable hreached
    rw [h.free.empty _ hroot] at hstored
    exact Bool.false_ne_true hstored

/-- The walk from the root is as long as there are nodes to reach. -/
theorem length_preorder (s : Store) : s.preorder.length = {v | s.Reachable v}.ncard := by
  have hset : {v | s.Reachable v} = ↑s.preorder.toFinset := by
    ext v
    rw [Set.mem_ofPred_eq, Finset.mem_coe, List.mem_toFinset, mem_preorder_iff]
  rw [hset, Set.ncard_coe_finset, List.toFinset_card_of_nodup s.nodup_preorder]

/-! ## Slots that are handed out -/

/-- **A slot that nothing refers to.** -/
structure Unreferenced (s : Store) (v : NodeId) : Prop where
  /-- There is no node in it. -/
  empty : s.get? v = none
  /-- It is not the slot of the root. -/
  root : v ≠ .root
  /-- It is nobody's child. -/
  child : ∀ u, v ∉ s.children u

/-- **A new node gets a slot that nothing refers to**, and the slot is not free any more. -/
theorem Tidy.unreferenced_put (h : s.Tidy known) (n : Node) :
    s.Unreferenced (s.put n).1 ∧ (s.put n).1 ∉ (s.put n).2.free := by
  have hempty := get?_fst_put h.free n
  have hunstored : ¬ (s.get? (s.put n).1).isSome = true := by
    rw [hempty]
    exact Bool.false_ne_true
  refine ⟨⟨hempty, fun hroot => ?_, fun u hu => hunstored (h.stored u _ hu)⟩, fun hfree => ?_⟩
  · rw [hroot] at hunstored
    exact hunstored (h.isSome_of_reachable Relation.ReflTransGen.refl)
  · have hnone := (h.free.put n).empty _ hfree
    rw [get?_put s n _ h.free.index_lt, if_pos rfl] at hnone
    exact Option.some_ne_none n hnone

end Store

namespace Tree

variable {α : Type} [DecidableEq α] {cs : Comparers} {opts : List Optimizer} {tree : Tree α}

/-- The store that the next clause of an incoming trigger is inserted into, when some of
its clauses were. -/
def filedAfter (tree : Tree α) (t : Trigger α) (earlier : List Clause) : Store :=
  (tree.store.insertAll tree.comparers (tree.triggers.push t) tree.triggers.nextId earlier).2

/-- **A tree whose slots are in order**, and whose count of nodes is that of its walk. -/
structure SlotsInOrder (tree : Tree α) : Prop extends tree.store.SlotsInOrder where
  /-- Some slot is in use, so neither difference in the size falls below zero. -/
  used : tree.store.free.length + 1 ≤ tree.store.slots.size
  /-- The nodes and the root are those that the walk lists. -/
  counted : tree.size + 1 = tree.preorder.length

/-- **The slots of every reached tree are in order.** -/
theorem Reached.slotsInOrder {ok : Tree α → Change α → Prop} (h : Reached ok cs opts tree) :
    tree.SlotsInOrder where
  toSlotsInOrder := h.tidy.slotsInOrder h.isSome_iff
  used := by
    have hpos : 0 < tree.store.slots.size - tree.store.free.length := h.tidy.size_pos
    omega
  counted := h.size_add_one.trans tree.store.length_preorder.symm

/-- **The slots of a tree are in order between any two changes**, under any registry, and
each clause that an addition inserts gets a slot that nothing refers to. -/
theorem slots_of_run (cs : Comparers) (opts : List Optimizer) (changes : List (Change α)) :
    let tree := run cs opts changes
    tree.SlotsInOrder ∧ ∀ expression action quantifiers,
      let t := tree.incoming expression action quantifiers
      ∀ earlier clause later, t.active.map Clause.core = earlier ++ clause :: later →
        let s := tree.filedAfter t earlier
        let n := Node.ofTrigger clause tree.triggers.nextId
        s.Unreferenced (s.put n).1 ∧ (s.put n).1 ∉ (s.put n).2.free := by
  intro tree
  have hreached : Reached Free cs opts tree := reached_run cs opts changes
  refine ⟨hreached.slotsInOrder, ?_⟩
  intro expression action quantifiers t earlier clause later _
  exact (tidy_insertAll_push hreached.tidy t earlier).unreferenced_put _

/-- Three slots were emptied; the first of two clauses takes the last of them, and the second
takes the next one. -/
theorem slots_of_run_reused :
    let tree : Tree Nat := run .empty [] [.add (.accessor "a") 1 [],
      .add (.or [.accessor "b", .accessor "c"]) 2 [], .remove ⟨0⟩, .remove ⟨1⟩]
    let t := tree.incoming (.or [.accessor "d", .accessor "e"]) 3 []
    let s := tree.filedAfter t [.ofConjuncts [.accessor "d"]]
    let n := Node.ofTrigger (.ofConjuncts [.accessor "e"]) tree.triggers.nextId
    tree.SlotsInOrder ∧ tree.store.free = [⟨3⟩, ⟨2⟩, ⟨1⟩] ∧ (s.put n).1 = ⟨2⟩ ∧
      s.Unreferenced ⟨2⟩ := by
  intro tree t s n
  have hclauses : t.active.map Clause.core =
      [.ofConjuncts [.accessor "d"]] ++ .ofConjuncts [.accessor "e"] :: [] := by decide +kernel
  have hslots := slots_of_run (α := Nat) .empty [] [.add (.accessor "a") 1 [],
    .add (.or [.accessor "b", .accessor "c"]) 2 [], .remove ⟨0⟩, .remove ⟨1⟩]
  have hfresh := (hslots.2 (.or [.accessor "d", .accessor "e"]) 3 [] _ _ _ hclauses).1
  have hslot : (s.put n).1 = ⟨2⟩ := by decide +kernel
  refine ⟨hslots.1, by decide +kernel, hslot, ?_⟩
  rw [← hslot]
  exact hfresh

end Tree

end Specificity
