import Specificity.Proofs.Auditing
import Specificity.Proofs.Completeness

/-!
# Trees of the same shape

Two trees have the same shape if they have the same triggers and the same nodes, with
the same clauses and carrying the same triggers. They may show different ones.

As long as no trigger has an ignored condition, a trigger fires wherever it is carried
and the clause holds, so the shape alone settles which nodes fire. What is matched in one
of the trees is then at least as wide as something that is matched in the other one, and
if they show the same, they match the same.
-/

namespace Specificity

namespace Tree

variable {α : Type} {cs : Comparers} {opts : List Optimizer} {tree tree' : Tree α} {m : Memory}
  {v : NodeId}

/-! ## The same shape -/

/-- **Trees of the same shape**: with the same registry, triggers and nodes, and with the
same clauses and triggers at each node, whatever it shows of them. -/
structure SameShape (tree tree' : Tree α) : Prop where
  /-- The registries are the same. -/
  comparers : tree'.comparers = tree.comparers
  /-- Handles stand for the same triggers. -/
  triggers : ∀ id, tree'.trigger? id = tree.trigger? id
  /-- The same nodes are reached. -/
  reachable : ∀ v, tree'.store.Reachable v ↔ tree.store.Reachable v
  /-- They have the same clauses and carry the same triggers. -/
  nodes : ∀ v n, tree.store.Reachable v → tree.store.bare v = some n →
    ∃ n', tree'.store.bare v = some n' ∧ n'.clause = n.clause ∧ n'.carried = n.carried

namespace SameShape

theorem symm (hs : tree.Sound cs opts) (h : tree.SameShape tree') : tree'.SameShape tree where
  comparers := h.comparers.symm
  triggers id := (h.triggers id).symm
  reachable v := (h.reachable v).symm
  nodes v n' hv hn' := by
    have hv := (h.reachable v).mp hv
    obtain ⟨n, hn⟩ := Option.isSome_iff_exists.mp
      ((Store.isSome_bare tree.store v).trans (hs.store.diagram.stored v hv))
    obtain ⟨n'', hn'', hclause, hcarried⟩ := h.nodes v n hv hn
    obtain rfl := Option.some.inj (hn'.symm.trans hn'')
    exact ⟨n, hn, hclause.symm, hcarried.symm⟩

/-- Nodes that are reached relate as before. -/
theorem relate (hs : tree.Sound cs opts) (h : tree.SameShape tree') {u : NodeId}
    (hu : tree.store.Reachable u) (hv : tree.store.Reachable v) :
    tree'.store.relate cs u v = tree.store.relate cs u v := by
  have hkeeps : tree.store.Keeps tree'.store := fun w hw n hn => by
    obtain ⟨n', hn', hclause, hcarried⟩ := h.nodes w n hw hn
    exact ⟨(h.reachable w).mpr hw, n', hn', hclause, hcarried ▸ List.Subset.refl _⟩
  exact hkeeps.relate hs.store hu hv

end SameShape

/-! ## Matching without ignored conditions -/

section

variable [DecidableEq α]

/-- **Without ignored conditions** a trigger fires at every node that carries it. -/
theorem Reached.firesAt (hcs : cs.Lawful) (h : Reached Plain cs opts tree) {n : Node}
    (hv : tree.store.Reachable v) (hn : tree.store.bare v = some n) {id : TriggerId}
    (hid : id ∈ n.carried) {t : Trigger α} (ht : tree.trigger? id = some t) :
    t.firesAt cs m n.clause = true := by
  obtain ⟨u, hu, hhas⟩ := (h.nodesAccounted hcs v hv n hn).has id hid
  obtain rfl := Option.some.inj (ht.symm.trans hu)
  obtain ⟨d, hd, hequal⟩ := hhas
  refine Trigger.firesAt_of_freeAt hcs ⟨d, hd, hequal, fun e he => ?_⟩
    (Clause.relate_self hcs n.clause)
  rw [h.unconditional id t ht d hd] at he
  exact (Option.some_ne_none e he.symm).elim

/-- **Without ignored conditions** a node is loud if its clause holds and it carries a
trigger. -/
theorem Reached.loud_iff (hcs : cs.Lawful) (h : Reached Plain cs opts tree) :
    tree.Loud m v ↔ tree.store.Reachable v ∧
      ∃ n, tree.store.bare v = some n ∧ n.clause.eval m = .ok true ∧ n.carried ≠ [] := by
  refine and_congr_right fun hv => ?_
  rw [candidates_ne_nil_iff]
  constructor
  · rintro ⟨n, hn, heval, id, hid, -⟩
    have hbare := Store.bare_eq_some hn
    exact ⟨n.bare, hbare, heval,
      List.ne_nil_of_mem ((h.nodesAccounted hcs v hv _ hbare).carried id hid)⟩
  · rintro ⟨n, hbare, heval, hne⟩
    have hnode := h.nodesAccounted hcs v hv n hbare
    obtain ⟨u, hu⟩ := List.exists_mem_of_ne_nil _ hne
    obtain ⟨id, hid, -⟩ := hnode.shown u hu
    obtain ⟨t, ht, -⟩ := hnode.has id (hnode.carried id hid)
    have hfires := h.firesAt (m := m) hcs hv hbare (hnode.carried id hid) ht
    obtain ⟨x, hx, rfl⟩ := Option.map_eq_some_iff.mp hbare
    exact ⟨x, hx, heval, id, hid, t, ht, by rw [(h.sound hcs).comparers]; exact hfires⟩

/-- **What is matched without ignored conditions**: the triggers that foremost nodes show. -/
theorem Reached.mem_matched_iff (hcs : cs.Lawful) (h : Reached Plain cs opts tree)
    (t : Trigger α) :
    t ∈ tree.matched m ↔ tree.trigger? t.id = some t ∧
      ∃ v, tree.Foremost m v ∧ ∃ n, tree.store.bare v = some n ∧ t.id ∈ n.visible := by
  have hsound := h.sound hcs
  have hflat := hsound.flatMatch_foremost hcs (h.showsOnce hcs) m
  refine (hflat.reported t).trans (and_congr_right fun ht => ?_)
  refine exists_congr fun v => and_congr_right fun hv => ?_
  constructor
  · rintro ⟨n, hn, hid, -⟩
    exact ⟨n.bare, Store.bare_eq_some hn, hid⟩
  · rintro ⟨n, hbare, hid⟩
    have hmem := (h.nodesAccounted hcs v hv.1.1 n hbare).carried t.id hid
    have hfires := h.firesAt (m := m) hcs hv.1.1 hbare hmem ht
    obtain ⟨x, hx, rfl⟩ := Option.map_eq_some_iff.mp hbare
    exact ⟨x, hx, hid, by rw [hsound.comparers]; exact hfires⟩

namespace SameShape

/-- A node that was loud still is. -/
theorem loud (hcs : cs.Lawful) (hreached : Reached Plain cs opts tree)
    (hreached' : Reached Plain cs opts tree') (h : tree.SameShape tree') (hloud : tree.Loud m v) :
    tree'.Loud m v := by
  rw [hreached.loud_iff hcs] at hloud
  obtain ⟨hv, n, hn, heval, hne⟩ := hloud
  obtain ⟨n', hn', hclause, hcarried⟩ := h.nodes v n hv hn
  exact (hreached'.loud_iff hcs).mpr
    ⟨(h.reachable v).mpr hv, n', hn', by rw [hclause, heval], by rwa [hcarried]⟩

/-- A node that was foremost still is. -/
theorem foremost (hcs : cs.Lawful) (hreached : Reached Plain cs opts tree)
    (hreached' : Reached Plain cs opts tree') (h : tree.SameShape tree')
    (hforemost : tree.Foremost m v) : tree'.Foremost m v := by
  have hs := hreached.sound hcs
  refine ⟨h.loud hcs hreached hreached' hforemost.1, fun u hu hlt => ?_⟩
  have hu' := (h.symm hs).loud hcs hreached' hreached hu
  rw [(hreached'.sound hcs).comparers, h.relate hs hu'.1 hforemost.1.1] at hlt
  exact hforemost.2 u hu' (by rw [hs.comparers, hlt])

/-- **For what was matched something at most as wide is**, in a tree of the same shape. -/
theorem exists_matched (hcs : cs.Lawful) (hreached : Reached Plain cs opts tree)
    (hreached' : Reached Plain cs opts tree') (h : tree.SameShape tree') {t : Trigger α}
    (ht : t ∈ tree.matched m) : ∃ u ∈ tree'.matched m, u.Within cs t := by
  obtain ⟨htrigger, v, hv, n, hn, hid⟩ := (hreached.mem_matched_iff hcs t).mp ht
  have hv' := h.foremost hcs hreached hreached' hv
  obtain ⟨n', hn', -, hcarried⟩ := h.nodes v n hv.1.1 hn
  have hmem := (hreached.nodesAccounted hcs v hv.1.1 n hn).carried t.id hid
  rw [← hcarried] at hmem
  obtain ⟨w, hw, u, t', hu, ht', hwithin⟩ :=
    (hreached'.nodesAccounted hcs v hv'.1.1 n' hn').shown t.id hmem
  obtain rfl := Option.some.inj (ht'.symm.trans ((h.triggers t.id).trans htrigger))
  have hidu : u.id = w := (hreached'.sound hcs).id_eq hu
  exact ⟨u, (hreached'.mem_matched_iff hcs u).mpr
    ⟨hidu ▸ hu, v, hv', n', hn', hidu ▸ hw⟩, hwithin⟩

/-- What is matched in a tree is matched in one of the same shape, if that shows it where
it was shown. -/
theorem mem_matched (hcs : cs.Lawful) (hreached : Reached Plain cs opts tree)
    (hreached' : Reached Plain cs opts tree') (h : tree.SameShape tree') {t : Trigger α}
    (hshows : ∀ v n n', tree.store.Reachable v → tree.store.bare v = some n →
      tree'.store.bare v = some n' → t.id ∈ n.visible → t.id ∈ n'.visible)
    (ht : t ∈ tree.matched m) : t ∈ tree'.matched m := by
  obtain ⟨htrigger, v, hv, n, hn, hid⟩ := (hreached.mem_matched_iff hcs t).mp ht
  obtain ⟨n', hn', -⟩ := h.nodes v n hv.1.1 hn
  exact (hreached'.mem_matched_iff hcs t).mpr ⟨(h.triggers t.id).trans htrigger, v,
    h.foremost hcs hreached hreached' hv, n', hn', hshows v n n' hv.1.1 hn hn' hid⟩

/-- **Trees of the same shape that show the same match the same.** -/
theorem matched_eq (hcs : cs.Lawful) (hreached : Reached Plain cs opts tree)
    (hreached' : Reached Plain cs opts tree') (h : tree.SameShape tree')
    (hshows : ∀ v n n', tree.store.Reachable v → tree.store.bare v = some n →
      tree'.store.bare v = some n' → ∀ id, id ∈ n'.visible ↔ id ∈ n.visible) :
    tree'.matched m = tree.matched m := by
  have hs := hreached.sound hcs
  have hs' := hreached'.sound hcs
  have hirrefl : Std.Irrefl fun t u : Trigger α => t.id.index < u.id.index :=
    ⟨fun t => Nat.lt_irrefl t.id.index⟩
  have hantisymm : Std.Antisymm fun t u : Trigger α => t.id.index < u.id.index :=
    ⟨fun t u htu hut => absurd hut (Nat.lt_asymm htu)⟩
  refine List.Pairwise.eq_of_mem_iff (r := fun t u => t.id.index < u.id.index)
    (List.pairwise_map.mpr (hs'.pairwise_matching m))
    (List.pairwise_map.mpr (hs.pairwise_matching m)) fun t => ?_
  constructor
  · refine (h.symm hs).mem_matched hcs hreached' hreached fun v n' n hv hn' hn hid => ?_
    exact (hshows v n n' ((h.reachable v).mp hv) hn hn' t.id).mp hid
  · refine h.mem_matched hcs hreached hreached' fun v n n' hv hn hn' hid => ?_
    exact (hshows v n n' hv hn hn' t.id).mpr hid

end SameShape

end

end Tree

end Specificity
