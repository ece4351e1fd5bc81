import Specificity.Proofs.Shape

/-!
# Adding silences, removing reveals

An addition moves nodes about, hides triggers and makes nodes; a removal moves nodes about,
promotes triggers and splices nodes out. Seen from the other triggers both come to the same:
of two trees of which one has a trigger more, that one has all nodes of the other, and what
it shows of the other triggers the other one shows too (`Tree.Augments`). A node that is
foremost in the tree with more in it is foremost in the other one, because there is less that
could be narrower. So an addition only silences other triggers, and a removal only reveals
them.

This is said of triggers without ignored conditions. With these, a trigger may hide another
one at a node and be withheld there itself, so that the node falls silent and a wider one
fires.
-/

namespace Specificity

/-- Withdrawing a trigger hides no other one. -/
theorem Node.mem_visible_without (judge : TriggerId → TriggerId → Relationship) {t u : TriggerId}
    {n : Node} (hu : u ∈ n.visible) (hne : u ≠ t) : u ∈ (n.without judge t).visible := by
  unfold without
  split
  · unfold withdraw
    split
    · exact (mem_promote judge _ _ u).1 (List.mem_filter.mpr ⟨hu, decide_eq_true hne⟩)
    · exact hu
  · exact hu

namespace Tree

variable {α : Type} {cs : Comparers} {opts : List Optimizer} {tree fuller : Tree α}
  {m : Memory}

/-! ## One trigger more -/

/-- **A tree with a trigger more**: it has the nodes and the triggers of `tree`, and shows no
other trigger that `tree` does not show at the same node. -/
structure Augments (fuller tree : Tree α) (id : TriggerId) : Prop where
  /-- The registries are the same. -/
  comparers : fuller.comparers = tree.comparers
  /-- Other handles stand for the same triggers. -/
  triggers : ∀ u, u ≠ id → fuller.trigger? u = tree.trigger? u
  /-- The nodes are still there. -/
  nodes : tree.store.Keeps fuller.store
  /-- What is shown of other triggers was shown. -/
  visible : ∀ v n, fuller.store.Reachable v → fuller.store.bare v = some n →
    ∀ u ∈ n.visible, u ≠ id → tree.store.Reachable v ∧
      ∃ n', tree.store.bare v = some n' ∧ u ∈ n'.visible

variable [DecidableEq α]

namespace Augments

/-- A node that is loud is so in the tree with more in it. -/
theorem loud (hcs : cs.Lawful) (hreached : Reached Plain cs opts tree)
    (hfuller : Reached Plain cs opts fuller) {id : TriggerId} (h : fuller.Augments tree id)
    {v : NodeId} (hv : tree.Loud m v) : fuller.Loud m v := by
  obtain ⟨hreach, n, hn, heval, hne⟩ := (hreached.loud_iff hcs).mp hv
  obtain ⟨hreach', n', hn', hclause, hsub⟩ := h.nodes v hreach n hn
  obtain ⟨u, hu⟩ := List.exists_mem_of_ne_nil _ hne
  exact (hfuller.loud_iff hcs).mpr
    ⟨hreach', n', hn', by rw [hclause, heval], List.ne_nil_of_mem (hsub hu)⟩

/-- **What is matched in the tree with more in it** is matched in the other one too, but for
the one trigger. -/
theorem mem_matched (hcs : cs.Lawful) (hreached : Reached Plain cs opts tree)
    (hfuller : Reached Plain cs opts fuller) {id : TriggerId} (h : fuller.Augments tree id)
    {u : Trigger α} (hu : u ∈ fuller.matched m) (hne : u.id ≠ id) : u ∈ tree.matched m := by
  have hs := (hreached.sound hcs)
  obtain ⟨hregistered, v, ⟨hloud, hnone⟩, n', hn', hvisible'⟩ :=
    (hfuller.mem_matched_iff hcs u).mp hu
  obtain ⟨hreach, n, hn, hvisible⟩ := h.visible v n' hloud.1 hn' u.id hvisible' hne
  refine (hreached.mem_matched_iff hcs u).mpr
    ⟨(h.triggers u.id hne).symm.trans hregistered, v, ⟨?_, fun w hw hlt => ?_⟩, n, hn, hvisible⟩
  · -- the node holds as it does there, and shows the trigger
    obtain ⟨-, k, hk, heval, -⟩ := (hfuller.loud_iff hcs).mp hloud
    obtain ⟨-, k', hk', hclause, -⟩ := h.nodes v hreach n hn
    obtain rfl := Option.some.inj (hk.symm.trans hk')
    have hcarried := (hreached.nodesAccounted hcs v hreach n hn).carried u.id hvisible
    exact (hreached.loud_iff hcs).mpr
      ⟨hreach, n, hn, by rw [← hclause, heval], List.ne_nil_of_mem hcarried⟩
  · refine hnone w (h.loud hcs hreached hfuller hw) ?_
    rw [h.comparers, hs.comparers, h.nodes.relate hs.store hw.1 hreach, ← hs.comparers]
    exact hlt

end Augments

/-- **An addition** makes a tree with a trigger more. -/
theorem Reached.augments_add {ok : Tree α → Change α → Prop} (hcs : cs.Lawful)
    (h : Reached ok cs opts tree) (expression : Expression) (action : α)
    (quantifiers : List Quantifier) :
    (tree.add expression action quantifiers).2.Augments tree tree.triggers.nextId := by
  obtain ⟨hcomparers, -, hstore, -⟩ := tree.add_cases expression action quantifiers
  have hfiled := (h.nodesAccounted hcs).filing hcs (h.sound hcs)
    (tree.incoming expression action quantifiers)
  obtain ⟨-, hreach, hget⟩ := hfiled.sound.sweep hcs
  refine ⟨hcomparers, fun u hu => trigger?_add_of_ne expression action quantifiers hu, ?_, ?_⟩
  · rw [hstore]
    exact hfiled.keeps.trans (hfiled.sound.keeps_sweep hcs)
  · intro v n hv hn u hu hne
    rw [hstore] at hv hn
    have hv := (hreach v).mp hv
    rw [Store.bare_of_get?_eq (hget v hv)] at hn
    rcases hfiled.descends v hv n hn with
      ⟨hbefore, k, hk, rfl | ⟨-, rfl⟩⟩ | ⟨-, c, -, rfl⟩
    · exact ⟨hbefore, n, hk, hu⟩
    · rcases (Node.mem_visible_join _ _ _ _).mp hu with hu | ⟨rfl, -⟩
      · exact ⟨hbefore, k, hk, (Node.makeWay_sublist _ _).subset hu⟩
      · exact absurd rfl hne
    · exact absurd (List.mem_singleton.mp hu) hne

/-- **A removal** is made from a tree with a trigger more. -/
theorem Reached.augments_remove {ok : Tree α → Change α → Prop} (hcs : cs.Lawful)
    (h : Reached ok cs opts tree) (id : TriggerId) :
    tree.Augments (tree.remove id).2 id := by
  have hs := h.sound hcs
  have htriggers : ∀ u, u ≠ id → tree.trigger? u = (tree.remove id).2.trigger? u :=
    fun u hu => (trigger?_remove_of_ne hu).symm
  rcases tree.remove_cases id with ⟨-, heq⟩ | ⟨-, hcomparers, -, hstore, -⟩
  · rw [heq]
    exact ⟨rfl, fun _ _ => rfl, fun v hv n hn => ⟨hv, n, hn, rfl, List.Subset.refl _⟩,
      fun v n hv hn u hu _ => ⟨hv, n, hn, hu⟩⟩
  · obtain ⟨hwithdrawn, hspec⟩ := hs.store.withdraw hcs tree.triggers id
    obtain ⟨-, hreach, hget⟩ := hwithdrawn.sweep hcs
    have hremains := hspec.diagram.mem_iff_reachable hcs
    refine ⟨hcomparers.symm, htriggers, ?_, ?_⟩
    · rw [hstore, hs.comparers]
      intro v hv n hn
      have hv := (hreach v).mp hv
      rw [Store.bare_of_get?_eq (hget v hv)] at hn
      obtain ⟨hbefore, k, hk, rfl, -⟩ :=
        (hspec.descends hcs v hv n hn).resolve_right And.right
      exact ⟨hbefore, k, hk, (Node.clause_without _ _ _).symm,
        (Node.carried_without_sublist _ _ _).subset⟩
    · rw [hstore, hs.comparers]
      intro v n hv hn u hu hne
      have hshown := Node.mem_visible_without (tree.triggers.relate cs) hu hne
      -- the node has something to show, so it is not spliced out
      have hafter := (hremains v).mp ⟨hv, .inr fun hsilenced => by
        rw [Store.silenced, hn, Option.any_some, List.isEmpty_iff] at hsilenced
        rw [hsilenced] at hshown
        exact List.not_mem_nil hshown⟩
      refine ⟨(hreach v).mpr hafter, _, ?_, hshown⟩
      rw [Store.bare_of_get?_eq (hget v hafter), hspec.bare v hv, hn]
      rfl

/-! ## Matching -/

/-- **Adding a trigger silences others at most, and removing one reveals others at most.** -/
theorem matched_antitone (hcs : cs.Lawful) (h : Reached Plain cs opts tree) (m : Memory) :
    (∀ expression action quantifiers, tree.Plain (.add expression action quantifiers) →
      let (id, after) := tree.add expression action quantifiers
      ∀ u ∈ after.matched m, u.id ≠ id → u ∈ tree.matched m) ∧
    ∀ id, ∀ u ∈ tree.matched m, u.id ≠ id → u ∈ (tree.remove id).2.matched m := by
  constructor
  · intro expression action quantifiers hplain
    have hid := tree.fst_add expression action quantifiers
    have hadded : Reached Plain cs opts (tree.add expression action quantifiers).2 :=
      h.change (.add expression action quantifiers) hplain
    have haugments := h.augments_add hcs expression action quantifiers
    generalize tree.add expression action quantifiers = result at hid hadded haugments ⊢
    obtain ⟨id, after⟩ := result
    obtain rfl : id = tree.triggers.nextId := hid
    exact fun u hu hne => haugments.mem_matched hcs h hadded hu hne
  · intro id u hu hne
    have hremoved : Reached Plain cs opts (tree.remove id).2 := h.change (.remove id) trivial
    exact (h.augments_remove hcs id).mem_matched hcs hremoved h hu hne

/-- A trigger joins a node, above a narrower one, and hides a wider trigger there. -/
theorem matched_antitone_shared :
    let tree : Tree Nat := .run .empty [] [.add (.or [.accessor "a", .accessor "b"]) 1 [],
      .add (.and [.accessor "a", .accessor "b"]) 2 []]
    let m := Memory.ofList [("a", .bool true), ("b", .bool false)]
    tree.Plain (.add (.accessor "a") 3 []) ∧
      (let (id, after) := tree.add (.accessor "a") 3 []
        ∀ u ∈ after.matched m, u.id ≠ id → u ∈ tree.matched m) ∧
      ∀ id, ∀ u ∈ tree.matched m, u.id ≠ id → u ∈ (tree.remove id).2.matched m := by
  intro tree m
  have hreached : Reached Plain .empty [] tree :=
    .change (.change .empty (.add _ 1 []) (by decide +kernel)) (.add _ 2 []) (by decide +kernel)
  have hplain : tree.Plain (.add (.accessor "a") 3 []) := by decide +kernel
  obtain ⟨hadd, hremove⟩ := matched_antitone Comparers.lawful_empty hreached m
  exact ⟨hplain, hadd _ _ _ hplain, hremove⟩

end Tree

end Specificity
