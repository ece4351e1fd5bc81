import Mathlib.Data.Set.Card
import Specificity.Proofs.Ownership
import Specificity.Proofs.Searching

/-!
# The books of a tree

A tree keeps account of its triggers in three places: the register, the total, and the
lists of the nodes. After any history they agree. The total is the number of live triggers.
A live trigger is carried somewhere, also one that was turned away from some of its nodes
because a trigger with its action was there: it was retained for the sake of a place that it
found, and no node lets go of what it carries. So a removal finds its trigger exactly if it
is live, and counts it once.

A node is only ever left with nothing to show if it has nothing left to hide. When all
triggers are removed, in whatever order, the root therefore remains alone. That the slots
then tell as much rests on the free ones being just the empty ones.
-/

namespace Specificity

/-! ## Counting slots -/

namespace Store

variable {s : Store}

/-- The free slots are those of all slots that are empty. -/
theorem FreeSound.perm_free (h : s.FreeSound) :
    s.free.Perm (s.ids.filter fun v => !(s.get? v).isSome) := by
  refine (List.perm_ext_iff_of_nodup h.nodup (s.nodup_ids.filter _)).mpr fun v => ?_
  rw [List.mem_filter, mem_ids_iff, Bool.not_eq_true', Option.isSome_eq_false_iff,
    Option.isNone_iff_eq_none]
  exact ⟨fun hv => ⟨h.index_lt v hv, h.empty v hv⟩, fun hv => h.listed v hv.1 hv.2⟩

/-- **The size of a store** is the number of slots in use. -/
theorem FreeSound.size_eq_ncard (h : s.FreeSound) :
    s.size = {v | (s.get? v).isSome = true}.ncard := by
  have hused : {v | (s.get? v).isSome = true} =
      ↑(s.ids.filter fun v => (s.get? v).isSome).toFinset := by
    ext v
    rw [Set.mem_ofPred_eq, Finset.mem_coe, List.mem_toFinset, List.mem_filter, mem_ids_iff]
    exact ⟨fun hv => ⟨index_lt_of_isSome hv, hv⟩, And.right⟩
  have hsplit : s.ids.length = (s.ids.filter fun v => (s.get? v).isSome).length +
      (s.ids.filter fun v => !(s.get? v).isSome).length :=
    List.length_eq_length_filter_add _
  have hall : s.ids.length = s.slots.size := by
    rw [ids, List.length_map, List.length_range]
  rw [hused, Set.ncard_coe_finset, List.toFinset_card_of_nodup (s.nodup_ids.filter _), size,
    h.perm_free.length_eq]
  omega

/-- A tidy store has a node at least, its root. -/
theorem Tidy.size_pos {known : TriggerId → Prop} (h : s.Tidy known) : 0 < s.size := by
  have hfinite : {v | (s.get? v).isSome = true}.Finite :=
    (List.finite_toSet s.ids).subset fun v hv => (s.mem_ids_iff v).mpr (index_lt_of_isSome hv)
  rw [h.free.size_eq_ncard, Set.ncard_pos hfinite]
  exact ⟨.root, h.isSome_of_reachable Relation.ReflTransGen.refl⟩

end Store

/-! ## Counting triggers -/

namespace Register

variable {α : Type} {r : Register α} {id : TriggerId} {t : Trigger α}

theorem length_live (r : Register α) : r.live.length = r.slots.toList.countP Option.isSome :=
  List.length_filterMap_eq_countP

/-- Registering a trigger lists it last. -/
theorem live_push (r : Register α) (t : Trigger α) : (r.push t).live = r.live ++ [t] := by
  unfold live push
  rw [Array.toList_push, List.filterMap_append]
  rfl

/-- Registering a trigger makes one more. -/
theorem length_live_push (r : Register α) (t : Trigger α) :
    (r.push t).live.length = r.live.length + 1 := by
  rw [live_push, List.length_append]
  rfl

/-- A trigger that is registered and struck off again leaves no trace in the list. -/
theorem live_erase_push (r : Register α) (t : Trigger α) :
    ((r.push t).erase r.nextId).live = r.live := by
  have hslots : ((r.push t).erase r.nextId).slots = r.slots.push none := by
    unfold erase push nextId
    grind
  unfold live
  rw [hslots, Array.toList_push, List.filterMap_append]
  exact List.append_nil _

/-- **Striking a trigger off** makes one less. -/
theorem length_live_erase (h : r.get? id = some t) :
    (r.erase id).live.length + 1 = r.live.length := by
  rw [get?, Option.join_eq_some_iff] at h
  obtain ⟨hlt, hslot⟩ := Array.getElem?_eq_some_iff.mp h
  have hlt : id.index < r.slots.toList.length := hlt
  have hsome : r.slots.toList[id.index].isSome = true := by
    rw [Array.getElem_toList, hslot]
    rfl
  have hpos : 0 < r.slots.toList.countP Option.isSome :=
    List.countP_pos_iff.mpr ⟨_, List.getElem_mem hlt, hsome⟩
  rw [length_live, length_live, erase, Array.toList_setIfInBounds, List.countP_set hlt, hsome]
  simp only [if_true, Option.isSome_none, Bool.false_eq_true, if_false, Nat.add_zero]
  exact Nat.sub_add_cancel hpos

end Register

namespace Tree

variable {α : Type} {cs : Comparers} {opts : List Optimizer} {tree : Tree α} {v : NodeId}
  {n : Node}

/-! ## What a removal answers -/

/-- A removal answers whether the trigger is registered and some node carries it. -/
theorem fst_remove (tree : Tree α) (id : TriggerId) :
    (tree.remove id).1 = ((tree.trigger? id).isSome &&
      (tree.store.withdraw tree.comparers tree.triggers id).1) := by
  unfold remove
  cases tree.trigger? id with
  | none => rfl
  | some t => exact (Bool.true_and _).symm

/-- A removal counts the trigger if it answers that it was there. -/
theorem total_remove (tree : Tree α) (id : TriggerId) :
    (tree.remove id).2.total =
      if (tree.remove id).1 then tree.total - 1 else tree.total := by
  unfold remove
  cases tree.trigger? id with
  | none => rfl
  | some t => rfl

section

variable [DecidableEq α] {ok : Tree α → Change α → Prop}

/-! ## Slots and nodes -/

/-- **The slots in use hold the nodes that are reached**, in every reached tree and under
any registry: the last change that did anything ended with a sweep. -/
theorem Reached.isSome_iff (h : Reached ok cs opts tree) (v : NodeId) :
    (tree.store.get? v).isSome = true ↔ tree.store.Reachable v := by
  induction h with
  | empty =>
    refine ⟨fun hv => ?_, (Store.Tidy.initial fun _ => True).isSome_of_reachable⟩
    obtain ⟨n, hn⟩ := Option.isSome_iff_exists.mp hv
    rw [(Store.get?_initial hn).1]
    exact Relation.ReflTransGen.refl
  | @change tree h c _ ih =>
    cases c with
    | add expression action quantifiers =>
      obtain ⟨-, -, hstore, -⟩ := tree.add_cases expression action quantifiers
      rw [Tree.change, hstore]
      exact (tidy_insertAll_push h.tidy _ _).isSome_sweep_iff v
    | remove id =>
      rw [Tree.change]
      rcases tree.remove_cases id with ⟨-, heq⟩ | ⟨-, -, -, hstore, -⟩
      · rw [heq]
        exact ih
      · rw [hstore]
        exact (h.tidy.withdraw tree.comparers tree.triggers id).isSome_sweep_iff v

/-- **The size of a tree** is the number of its nodes, less the root. -/
theorem Reached.size_add_one (h : Reached ok cs opts tree) :
    tree.size + 1 = {v | tree.store.Reachable v}.ncard := by
  have hstored : {v | (tree.store.get? v).isSome = true} = {v | tree.store.Reachable v} :=
    Set.ext h.isSome_iff
  have hsize := h.tidy.free.size_eq_ncard
  rw [hstored] at hsize
  rw [← hsize, size]
  exact Nat.sub_add_cancel h.tidy.size_pos

/-! ## Every trigger has its place -/

/-- **A live trigger has a clause that is filed**, after any history. -/
theorem Reached.exists_files (hcs : cs.Lawful) (h : Reached ok cs opts tree) :
    ∀ id t, tree.trigger? id = some t → ∃ c, tree.store.Files cs id c := by
  induction h with
  | empty => exact fun id t ht => (Option.some_ne_none t ht.symm).elim
  | @change tree h c _ ih =>
    have hs := h.sound hcs
    have haccounted := h.nodesAccounted hcs
    intro id t ht
    cases c with
    | add expression action quantifiers =>
      obtain ⟨-, -, hstore, -⟩ := tree.add_cases expression action quantifiers
      have hplaced := tree.trigger?_nextId_add expression action quantifiers
      have hfiled := haccounted.filing hcs hs (tree.incoming expression action quantifiers)
      have hsweep := hfiled.sound.keeps_sweep hcs
      show ∃ c, (tree.add expression action quantifiers).2.store.Files cs id c
      rw [hstore]
      rcases trigger?_add ht with ⟨rfl, rfl⟩ | hbefore
      · -- the incoming trigger was not struck off, so one of its clauses found a place
        rw [Tree.change, hplaced] at ht
        split at ht
        · next hyes =>
          obtain ⟨c, hc⟩ := hfiled.placed (List.contains_iff_mem.mp hyes)
          exact ⟨c, hc.keeps hsweep⟩
        · exact (Option.some_ne_none _ ht.symm).elim
      · obtain ⟨c, hc⟩ := ih id t hbefore
        exact ⟨c, (hc.keeps hfiled.keeps).keeps hsweep⟩
    | remove removed =>
      show ∃ c, (tree.remove removed).2.store.Files cs id c
      obtain ⟨hbefore, hne⟩ := trigger?_remove ht
      obtain ⟨c, hc⟩ := ih id t hbefore
      rcases tree.remove_cases removed with ⟨-, heq⟩ | ⟨-, -, -, hstore, -⟩
      · exact ⟨c, by rwa [heq]⟩
      · obtain ⟨hwithdrawn, hspec⟩ := hs.store.withdraw hcs tree.triggers removed
        rw [hstore, hs.comparers]
        exact ⟨c, (hc.withdraw hcs haccounted hne hspec).keeps (hwithdrawn.keeps_sweep hcs)⟩

/-- **A live trigger is carried** by a node that is reached. -/
theorem Reached.exists_carried (hcs : cs.Lawful) (h : Reached ok cs opts tree) {id : TriggerId}
    {t : Trigger α} (ht : tree.trigger? id = some t) :
    ∃ v n, tree.store.Reachable v ∧ tree.store.get? v = some n ∧ id ∈ n.carried := by
  obtain ⟨-, v, n, hv, hn, -, hmem⟩ := h.exists_files hcs id t ht
  obtain ⟨x, hx, rfl⟩ := Option.map_eq_some_iff.mp hn
  exact ⟨v, x, hv, hx, hmem⟩

/-- **A removal finds its trigger** exactly if it is live. -/
theorem Reached.fst_remove_iff (hcs : cs.Lawful) (h : Reached ok cs opts tree) (id : TriggerId) :
    (tree.remove id).1 = true ↔ (tree.trigger? id).isSome = true := by
  have hs := h.sound hcs
  rw [fst_remove, Bool.and_eq_true, hs.comparers]
  refine ⟨And.left, fun hsome => ⟨hsome, ?_⟩⟩
  obtain ⟨t, ht⟩ := Option.isSome_iff_exists.mp hsome
  obtain ⟨v, n, hv, hn, hmem⟩ := h.exists_carried hcs ht
  exact (hs.store.withdraw hcs tree.triggers id).2.found.mpr ⟨v, hv, n, hn, hmem⟩

/-- **The total is the number of live triggers**, after any history. -/
theorem Reached.total_eq (hcs : cs.Lawful) (h : Reached ok cs opts tree) :
    tree.total = tree.triggers.live.length := by
  induction h with
  | empty => rfl
  | @change tree h c _ ih =>
    cases c with
    | add expression action quantifiers =>
      obtain ⟨-, -, -, htriggers⟩ := tree.add_cases expression action quantifiers
      have htotal := tree.total_add expression action quantifiers
      set t := tree.incoming expression action quantifiers
      have hpush := tree.triggers.length_live_push t
      rw [Tree.change, htotal, htriggers, ih]
      split
      · exact hpush.symm
      · have herase := Register.length_live_erase (get?_push_nextId tree t)
        omega
    | remove id =>
      rw [Tree.change, total_remove]
      have hanswer := h.fst_remove_iff hcs id
      rcases tree.remove_cases id with ⟨hnone, heq⟩ | ⟨hsome, -, -, -, htriggers⟩
      · rw [hnone] at hanswer
        rw [if_neg fun hfound => Bool.false_ne_true (hanswer.mp hfound), heq]
        exact ih
      · obtain ⟨t, ht⟩ := Option.isSome_iff_exists.mp hsome
        have herase := Register.length_live_erase ht
        rw [if_pos (hanswer.mpr hsome), htriggers, ih]
        omega

end

/-! ## Removing several triggers -/

/-- **Removing several triggers** in order. -/
def removeAll (tree : Tree α) (ids : List TriggerId) : Tree α :=
  ids.foldl (fun tree id => (tree.remove id).2) tree

/-- What is there after several removals was there and was not removed. -/
theorem trigger?_removeAll {ids : List TriggerId} {id : TriggerId} {t : Trigger α}
    (h : (tree.removeAll ids).trigger? id = some t) : tree.trigger? id = some t ∧ id ∉ ids := by
  induction ids generalizing tree with
  | nil => exact ⟨h, List.not_mem_nil⟩
  | cons removed ids ih =>
    have hfirst : ((tree.remove removed).2.removeAll ids).trigger? id = some t := h
    obtain ⟨hafter, hnot⟩ := ih hfirst
    obtain ⟨hbefore, hne⟩ := trigger?_remove hafter
    exact ⟨hbefore, fun hmem => (List.mem_cons.mp hmem).elim hne hnot⟩

/-- Removals lead from a reached tree to a reached tree. -/
theorem Reached.removeAll [DecidableEq α] (h : Reached Free cs opts tree)
    (ids : List TriggerId) : Reached Free cs opts (tree.removeAll ids) := by
  induction ids generalizing tree with
  | nil => exact h
  | cons id ids ih => exact ih (h.change (.remove id) trivial)

/-- **A tree with nothing in it**: no trigger is counted, and there is no node but a root
that carries nothing. -/
structure Blank (tree : Tree α) : Prop where
  /-- No trigger is counted. -/
  total : tree.total = 0
  /-- There is no node besides the root. -/
  size : tree.size = 0
  /-- There is no node below the root. -/
  breadth : tree.breadth = 0
  /-- The root is as it was at the beginning. -/
  root : tree.store.get? .root = some (.ofClause .empty)

/-- **Without live triggers** there is nothing in the tree. -/
theorem Reached.blank [DecidableEq α] {ok : Tree α → Change α → Prop} (hcs : cs.Lawful)
    (h : Reached ok cs opts tree) (hnone : ∀ id, tree.trigger? id = none) : tree.Blank := by
  have hs := h.sound hcs
  have huncarried : ∀ v n, tree.store.Reachable v → tree.store.get? v = some n →
      n.carried = [] := fun v n hv hn => by
    refine List.eq_nil_iff_forall_not_mem.mpr fun id hid => ?_
    obtain ⟨t, ht, -⟩ :=
      (h.nodesAccounted hcs v hv n.bare (Store.bare_eq_some hn)).has id hid
    exact Option.some_ne_none t (ht.symm.trans (hnone id))
  have hroot : ∀ v, tree.store.Reachable v → v = .root := fun v hv => by
    by_contra hne
    obtain ⟨n, hn⟩ := Option.isSome_iff_exists.mp (hs.store.diagram.stored v hv)
    exact h.carried_ne_nil hcs hv hne hn (huncarried v n hv hn)
  have hchildren : tree.store.children .root = [] := by
    refine List.eq_nil_iff_forall_not_mem.mpr fun k hk => ?_
    have hcovers := hs.store.diagram.covers .root hs.store.diagram.root_mem
    have hnarrower := hcovers.narrower k hk
    rw [hroot k (hcovers.mem k hk)] at hnarrower
    exact (Store.orderly_relate hcs tree.store).specializes_irrefl _ hnarrower
  constructor
  · rw [h.total_eq hcs, List.length_eq_zero_iff]
    refine List.eq_nil_iff_forall_not_mem.mpr fun t ht => ?_
    obtain ⟨id, hid⟩ := (Register.mem_live_iff _ _).mp ht
    exact Option.some_ne_none t (hid.symm.trans (hnone id))
  · have hsize := h.size_add_one
    have halone : {v | tree.store.Reachable v} = {NodeId.root} :=
      Set.eq_singleton_iff_unique_mem.mpr ⟨Relation.ReflTransGen.refl, hroot⟩
    rw [halone, Set.ncard_singleton] at hsize
    exact Nat.succ.inj hsize
  · rw [breadth, hchildren]
    rfl
  · obtain ⟨⟨clause, visible, carried, children⟩, hn, hempty⟩ :=
      Option.map_eq_some_iff.mp hs.store.diagram.root_clause
    have hreach : tree.store.Reachable .root := Relation.ReflTransGen.refl
    have hcarried : carried = [] := huncarried .root _ hreach hn
    have hnode := h.nodesAccounted hcs .root hreach _ (Store.bare_eq_some hn)
    have hvisible : visible = [] := by
      refine List.eq_nil_iff_forall_not_mem.mpr fun id hid => ?_
      have hmem : id ∈ carried := hnode.carried id hid
      rw [hcarried] at hmem
      exact List.not_mem_nil hmem
    have hbelow : children = [] := by
      rw [Store.children, hn] at hchildren
      exact hchildren
    rw [hn, hcarried, hvisible, hbelow, show clause = .empty from hempty]
    rfl

/-! ## Bookkeeping -/

/-- **Books that agree**: the total, the register and the lists of the nodes. -/
structure Balanced (tree : Tree α) : Prop where
  /-- The total is the number of live triggers. -/
  total : tree.total = tree.triggers.live.length
  /-- A live trigger is carried by some node. -/
  placed : ∀ id t, tree.trigger? id = some t →
    ∃ v n, tree.store.Reachable v ∧ tree.store.get? v = some n ∧ id ∈ n.carried
  /-- Nodes list a trigger once, and carry what they show. -/
  lists : ∀ v n, tree.store.Reachable v → tree.store.get? v = some n →
    n.visible.Nodup ∧ n.carried.Nodup ∧ n.visible ⊆ n.carried
  /-- What a node carries is live and has its clause. -/
  listed : ∀ v n, tree.store.Reachable v → tree.store.get? v = some n → ∀ id ∈ n.carried,
    ∃ t, tree.trigger? id = some t ∧ t.Has tree.comparers n.clause
  /-- Nodes other than the root show something. -/
  shown : ∀ v n, tree.store.Reachable v → v ≠ .root → tree.store.get? v = some n →
    n.visible ≠ []
  /-- A removal answers whether the trigger is live. -/
  removed : ∀ id, (tree.remove id).1 = true ↔ (tree.trigger? id).isSome = true

/-- **The books of every reached tree agree**, and removing all live triggers, in any order,
leaves nothing. -/
theorem balanced_of_reached [DecidableEq α] (hcs : cs.Lawful) (h : Reached Free cs opts tree) :
    tree.Balanced ∧ ∀ ids : List TriggerId, (∀ t ∈ tree.triggers.live, t.id ∈ ids) →
      (tree.removeAll ids).Blank := by
  have hs := h.sound hcs
  have hnode : ∀ v n, tree.store.Reachable v → tree.store.get? v = some n →
      n.bare.Accounted cs tree.triggers := fun v n hv hn =>
    h.nodesAccounted hcs v hv n.bare (by rw [Store.bare, hn]; rfl)
  constructor
  · exact {
      total := h.total_eq hcs
      placed := fun id t ht => h.exists_carried hcs ht
      lists := fun v n hv hn =>
        ⟨h.showsOnce hcs v hv n hn, h.nodup_carried hcs hv hn, (hnode v n hv hn).carried⟩
      listed := fun v n hv hn => by
        rw [hs.comparers]
        exact (hnode v n hv hn).has
      shown := fun v n => h.visible_ne_nil hcs
      removed := h.fst_remove_iff hcs }
  · intro ids hall
    refine (h.removeAll ids).blank hcs fun id => Option.eq_none_iff_forall_ne_some.mpr fun t ht => ?_
    obtain ⟨hlive, hnot⟩ := trigger?_removeAll ht
    have hmem := hall t ((hs.mem_live_iff t).mpr (by rw [hs.id_eq hlive]; exact hlive))
    rw [hs.id_eq hlive] at hmem
    exact hnot hmem

/-- Of two triggers with one action the second is turned away where they share a clause; a
handle that was never given is removed, then the first of them, then the rest. -/
theorem balanced_shared_action :
    let tree : Tree Nat := .run .empty [] [.add (.or [.accessor "a", .accessor "b"]) 1 [],
      .add (.or [.accessor "b", .accessor "c"]) 1 [], .add (.accessor "b") 2 [],
      .remove ⟨7⟩, .remove ⟨0⟩]
    tree.Balanced ∧ (∀ t ∈ tree.triggers.live, t.id ∈ [TriggerId.mk 2, ⟨1⟩]) ∧
      (tree.removeAll [⟨2⟩, ⟨1⟩]).Blank := by
  intro tree
  have hall : ∀ t ∈ tree.triggers.live, t.id ∈ [TriggerId.mk 2, ⟨1⟩] := by decide +kernel
  obtain ⟨hbalanced, hdrained⟩ :=
    balanced_of_reached Comparers.lawful_empty (reached_run (α := Nat) .empty [] _)
  exact ⟨hbalanced, hall, hdrained _ hall⟩

end Tree

end Specificity
