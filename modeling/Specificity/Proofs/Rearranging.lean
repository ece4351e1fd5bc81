import Mathlib.Data.Set.Card
import Specificity.Proofs.Bookkeeping
import Specificity.Proofs.Growth
import Specificity.Proofs.Hierarchy
import Specificity.Proofs.Normalization
import Specificity.Proofs.Retention
import Specificity.Proofs.Shape

/-!
# The order of additions does not matter

Two trees that were grown from the same triggers in different orders look different: their
nodes are numbered differently, a node may have been made from another one of several equal
clauses, the handles are others, and children and triggers are listed in other orders. But
every node of the one has a *twin* in the other, with an equal clause. Twins stand to each
other as the nodes do, for that is a matter of the clauses. They carry the same triggers,
namely all that have the clause, and show the same of these, the narrowest ones. And they
hold in the same memories, since equal clauses of simple predicates do.

Everything that can be observed of a grown tree is read off these facts, so it is the same
in both: the number of nodes, the number of children of the root, and the actions that are
matched.
-/

namespace Specificity

namespace Trigger

variable {α : Type} {cs : Comparers} {t u t' u' : Trigger α}

/-- Only the active clauses matter. -/
theorem within_congr (ht : t'.active = t.active) (hu : u'.active = u.active) :
    t'.Within cs u' ↔ t.Within cs u := by
  unfold Within
  rw [ht, hu]

theorem has_congr (ht : t'.active = t.active) (c : Clause) : t'.Has cs c ↔ t.Has cs c := by
  unfold Has
  rw [ht]

end Trigger

namespace Tree

variable {α : Type} {cs : Comparers} {opts : List Optimizer} {tree tree' : Tree α}
  {m : Memory} {u v u' v' w' : NodeId} {n n' k k' : Node}

/-- A trigger has one in every tree with the same triggers. -/
theorem SameTriggers.exists_same (h : tree.SameTriggers tree') {t : Trigger α}
    (ht : t ∈ tree.triggers.live) :
    ∃ t' ∈ tree'.triggers.live, t'.action = t.action ∧ t'.active = t.active := by
  obtain ⟨t', ht', hrequest⟩ := List.mem_map.mp ((h t.request).mp (List.mem_map_of_mem ht))
  exact ⟨t', ht', Prod.mk.inj hrequest⟩

/-! ## Twins -/

/-- **Twins**: nodes of two trees, one of each, that stand for equal clauses. -/
structure Twins (cs : Comparers) (tree tree' : Tree α) (v v' : NodeId) (n n' : Node) : Prop where
  /-- The one is reached. -/
  reached : tree.store.Reachable v
  /-- So is the other. -/
  reached' : tree'.store.Reachable v'
  /-- This is the one. -/
  stored : tree.store.bare v = some n
  /-- This is the other. -/
  stored' : tree'.store.bare v' = some n'
  /-- Their clauses are equal. -/
  equal : n.clause.relate cs n'.clause = .equal

namespace Twins

theorem symm (hcs : cs.Lawful) (h : Twins cs tree tree' v v' n n') :
    Twins cs tree' tree v' v n' n :=
  ⟨h.reached', h.reached, h.stored', h.stored, (Clause.orderly_relate hcs).equal_symm h.equal⟩

/-- **A node has one twin** at most. -/
theorem unique (hcs : cs.Lawful) (hs' : tree'.Sound cs opts) (h : Twins cs tree tree' v v' n n')
    (hw : Twins cs tree tree' v w' k k') : v' = w' := by
  have hord := Clause.orderly_relate hcs
  obtain rfl := Option.some.inj (h.stored.symm.trans hw.stored)
  obtain ⟨x, hx, rfl⟩ := Option.map_eq_some_iff.mp h.stored'
  obtain ⟨y, hy, rfl⟩ := Option.map_eq_some_iff.mp hw.stored'
  exact hs'.store.eq_of_equal (c := n.clause) hcs h.reached' hw.reached' hx hy
    (hord.equal_symm h.equal) (hord.equal_symm hw.equal)

/-- **Twins stand to each other** as the nodes do. -/
theorem relate (hcs : cs.Lawful) (hu : Twins cs tree tree' u u' k k')
    (hv : Twins cs tree tree' v v' n n') :
    tree'.store.relate cs u' v' = tree.store.relate cs u v := by
  have hord := Clause.orderly_relate hcs
  obtain ⟨a, ha, rfl⟩ := Option.map_eq_some_iff.mp hu.stored
  obtain ⟨a', ha', rfl⟩ := Option.map_eq_some_iff.mp hu.stored'
  obtain ⟨b, hb, rfl⟩ := Option.map_eq_some_iff.mp hv.stored
  obtain ⟨b', hb', rfl⟩ := Option.map_eq_some_iff.mp hv.stored'
  rw [Store.relate_eq ha hb, Store.relate_eq ha' hb']
  have hleft : a.clause.relate cs b.clause = a'.clause.relate cs b.clause :=
    hord.eq_of_equal hu.equal b.clause
  have hright : a'.clause.relate cs b.clause = a'.clause.relate cs b'.clause :=
    hord.eq_of_equal_right hv.equal a'.clause
  exact (hleft.trans hright).symm

end Twins

/-! ## Trees with the same triggers -/

variable [DecidableEq α]

/-- **Rearranged trees**: both are grown, and they have the same triggers. -/
structure Rearranged (cs : Comparers) (opts : List Optimizer) (tree tree' : Tree α) : Prop where
  /-- The one is grown. -/
  grown : Reached Growing cs opts tree
  /-- So is the other. -/
  grown' : Reached Growing cs opts tree'
  /-- They have the same triggers. -/
  same : tree.SameTriggers tree'

/-- **A node of a tree without repeated actions** carries the triggers that have its clause. -/
theorem Reached.mem_carried_iff (hcs : cs.Lawful) (h : Reached Fresh cs opts tree)
    (hv : tree.store.Reachable v) (hn : tree.store.bare v = some n) {t : Trigger α}
    (ht : tree.trigger? t.id = some t) : t.id ∈ n.carried ↔ t.Has cs n.clause := by
  obtain ⟨x, hx, rfl⟩ := Option.map_eq_some_iff.mp hn
  have howned := (h.owned hcs).carried v x hv hx t.id
  rw [h.comparers] at howned
  refine howned.trans ⟨?_, fun hhas => ⟨t, ht, hhas⟩⟩
  rintro ⟨t', ht', hhas⟩
  obtain rfl := Option.some.inj (ht.symm.trans ht')
  exact hhas

namespace Rearranged

theorem symm (h : Rearranged cs opts tree tree') : Rearranged cs opts tree' tree :=
  ⟨h.grown', h.grown, h.same.symm⟩

/-- **Every node has a twin**, made for the same triggers. -/
theorem exists_twin (hcs : cs.Lawful) (h : Rearranged cs opts tree tree')
    (hv : tree.store.Reachable v) : ∃ v' n n', Twins cs tree tree' v v' n n' := by
  have hs := h.grown.sound hcs
  have hs' := h.grown'.sound hcs
  have hcomparers : tree.comparers = tree'.comparers := hs.comparers.trans hs'.comparers.symm
  obtain ⟨n, hn⟩ := Option.isSome_iff_exists.mp (hs.store.diagram.stored v hv)
  have hstands : tree.StandsFor n.clause := by
    refine ⟨v, n, hv, hn, ?_⟩
    rw [hs.comparers]
    exact Clause.relate_self hcs _
  obtain ⟨v', n', hv', hn', hequal⟩ :=
    ((h.grown'.fresh.owned hcs).standsFor_iff hcs hs' n.clause).mpr
      ((((h.grown.fresh.owned hcs).standsFor_iff hcs hs n.clause).mp hstands).imp_right
        fun ⟨hfits, action, hwants⟩ => ⟨hfits, action, h.same.wants hcomparers hwants⟩)
  rw [hs'.comparers] at hequal
  exact ⟨v', n.bare, n'.bare, hv, hv', Store.bare_eq_some hn, Store.bare_eq_some hn',
    (Clause.orderly_relate hcs).equal_symm hequal⟩

/-- The roots are twins. -/
theorem twins_root (hcs : cs.Lawful) (h : Rearranged cs opts tree tree') :
    ∃ n n', Twins cs tree tree' .root .root n n' := by
  obtain ⟨n, hn, hempty⟩ :=
    Option.map_eq_some_iff.mp (h.grown.sound hcs).store.diagram.root_clause
  obtain ⟨n', hn', hempty'⟩ :=
    Option.map_eq_some_iff.mp (h.grown'.sound hcs).store.diagram.root_clause
  refine ⟨n.bare, n'.bare, Relation.ReflTransGen.refl, Relation.ReflTransGen.refl,
    Store.bare_eq_some hn, Store.bare_eq_some hn', ?_⟩
  show n.clause.relate cs n'.clause = .equal
  rw [hempty, hempty']
  exact Clause.relate_self hcs _

/-- **What is a child** has a twin that is a child of the twin. -/
theorem mem_children (hcs : cs.Lawful) (h : Rearranged cs opts tree tree')
    (hu : Twins cs tree tree' u u' k k') (hv : Twins cs tree tree' v v' n n')
    (hchild : v ∈ tree.store.children u) : v' ∈ tree'.store.children u' := by
  have hdiagram := (h.grown.sound hcs).store.diagram
  have hdiagram' := (h.grown'.sound hcs).store.diagram
  obtain ⟨hlt, hbetween⟩ := (hdiagram.mem_children_iff hcs hu.reached hv.reached).mp hchild
  refine (hdiagram'.mem_children_iff hcs hu.reached' hv.reached').mpr ⟨?_, fun w' hw' hvw hwu => ?_⟩
  · rw [hv.relate hcs hu]
    exact hlt
  · obtain ⟨w, l', l, hw⟩ := h.symm.exists_twin hcs hw'
    have hw := hw.symm hcs
    rw [hv.relate hcs hw] at hvw
    rw [hw.relate hcs hu] at hwu
    exact hbetween w hw.reached hvw hwu

/-- **Twins carry the same triggers.** -/
theorem mem_carried (hcs : cs.Lawful) (h : Rearranged cs opts tree tree')
    (hv : Twins cs tree tree' v v' n n') {t t' : Trigger α} (ht : tree.trigger? t.id = some t)
    (ht' : tree'.trigger? t'.id = some t') (hactive : t'.active = t.active)
    (hmem : t.id ∈ n.carried) : t'.id ∈ n'.carried := by
  rw [h.grown.fresh.mem_carried_iff hcs hv.reached hv.stored ht] at hmem
  rw [h.grown'.fresh.mem_carried_iff hcs hv.reached' hv.stored' ht', Trigger.has_congr hactive]
  exact hmem.of_equal hcs hv.equal

/-- **Twins show the same triggers**: what is narrower than a trigger at the one node is so
at the other. -/
theorem mem_visible (hcs : cs.Lawful) (h : Rearranged cs opts tree tree')
    (hv : Twins cs tree tree' v v' n n') {t t' : Trigger α} (ht : tree.trigger? t.id = some t)
    (ht' : tree'.trigger? t'.id = some t') (hactive : t'.active = t.active)
    (hmem : t.id ∈ n.visible) : t'.id ∈ n'.visible := by
  have hs := h.grown.sound hcs
  have hs' := h.grown'.sound hcs
  obtain ⟨hcarried, hleast⟩ :=
    ((h.grown.settled hcs v hv.reached n hv.stored).narrowest t.id).mp hmem
  refine ((h.grown'.settled hcs v' hv.reached' n' hv.stored').narrowest t'.id).mpr
    ⟨h.mem_carried hcs hv ht ht' hactive hcarried, ?_⟩
  rintro w' hw' ⟨x', y', hx', hy', hxy⟩
  obtain rfl := Option.some.inj (ht'.symm.trans hy')
  -- the trigger that might be narrower is there in the other tree as well
  have hlive' : x' ∈ tree'.triggers.live := (Register.mem_live_iff _ _).mpr ⟨w', hx'⟩
  obtain ⟨x, hx, -, hxactive⟩ := h.symm.same.exists_same hlive'
  have hx := (hs.mem_live_iff x).mp hx
  have hxid : x'.id = w' := hs'.id_eq hx'
  rw [← hxid] at hw' hx'
  have hxcarried := h.symm.mem_carried hcs (hv.symm hcs) hx' hx hxactive hw'
  have hwithin := (Trigger.within_congr hxactive hactive.symm).mpr hxy
  obtain ⟨y, z, hy, hz, hback⟩ := hleast x.id hxcarried ⟨x, t, hx, ht, hwithin⟩
  obtain rfl := Option.some.inj (ht.symm.trans hy)
  obtain rfl := Option.some.inj (hx.symm.trans hz)
  exact ⟨t', x', ht', hxid ▸ hx', (Trigger.within_congr hactive hxactive.symm).mpr hback⟩

/-! ## Matching -/

/-- **Twins hold in the same memories.** -/
theorem eval (hcs : cs.BoundsOnly) (h : Rearranged cs opts tree tree')
    (hv : Twins cs tree tree' v v' n n') (heval : n.clause.eval m = .ok true) :
    n'.clause.eval m = .ok true := by
  have hlawful := Comparers.lawful_of_boundsOnly hcs
  have hsimple := (h.grown'.settled hlawful v' hv.reached' n' hv.stored').simple
  exact Clause.eval_of_isCovered hlawful
    (fun q hq => Expression.certain_of_simple hcs m (hsimple q hq))
    (Relationship.isCovered_of_equal hv.equal) heval

/-- The twin of a loud node is loud. -/
theorem loud (hcs : cs.BoundsOnly) (h : Rearranged cs opts tree tree')
    (hv : Twins cs tree tree' v v' n n') (hloud : tree.Loud m v) : tree'.Loud m v' := by
  have hlawful := Comparers.lawful_of_boundsOnly hcs
  have hs := h.grown.sound hlawful
  have hs' := h.grown'.sound hlawful
  obtain ⟨-, x, hx, heval, hne⟩ := (h.grown.plain.loud_iff hlawful).mp hloud
  obtain rfl := Option.some.inj (hv.stored.symm.trans hx)
  obtain ⟨id, hid⟩ := List.exists_mem_of_ne_nil _ hne
  obtain ⟨t, ht, -⟩ := (h.grown.nodesAccounted hlawful v hv.reached n hv.stored).has id hid
  have hlive : t ∈ tree.triggers.live := (Register.mem_live_iff _ _).mpr ⟨id, ht⟩
  obtain ⟨t', ht', -, hactive⟩ := h.same.exists_same hlive
  rw [← hs.id_eq ht] at hid
  have hcarried := h.mem_carried hlawful hv ((hs.mem_live_iff t).mp hlive)
    ((hs'.mem_live_iff t').mp ht') hactive hid
  exact (h.grown'.plain.loud_iff hlawful).mpr
    ⟨hv.reached', n', hv.stored', h.eval hcs hv heval, List.ne_nil_of_mem hcarried⟩

/-- The twin of a foremost node is foremost. -/
theorem foremost (hcs : cs.BoundsOnly) (h : Rearranged cs opts tree tree')
    (hv : Twins cs tree tree' v v' n n') (hforemost : tree.Foremost m v) :
    tree'.Foremost m v' := by
  have hlawful := Comparers.lawful_of_boundsOnly hcs
  refine ⟨h.loud hcs hv hforemost.1, fun u' hu' hlt => ?_⟩
  obtain ⟨u, k', k, hu⟩ := h.symm.exists_twin hlawful hu'.1
  rw [h.grown'.comparers, (hu.symm hlawful).relate hlawful hv] at hlt
  refine hforemost.2 u (h.symm.loud hcs hu hu') ?_
  rw [h.grown.comparers]
  exact hlt

/-- **What is matched in a tree** is matched in a rearranged one, under another handle. -/
theorem exists_matched (hcs : cs.BoundsOnly) (h : Rearranged cs opts tree tree') {t : Trigger α}
    (ht : t ∈ tree.matched m) : ∃ t' ∈ tree'.matched m, t'.action = t.action := by
  have hlawful := Comparers.lawful_of_boundsOnly hcs
  obtain ⟨hget, v, hforemost, n, hn, hvisible⟩ := (h.grown.plain.mem_matched_iff hlawful t).mp ht
  have hlive := ((h.grown.sound hlawful).mem_live_iff t).mpr hget
  obtain ⟨t', ht', haction, hactive⟩ := h.same.exists_same hlive
  have hget' := ((h.grown'.sound hlawful).mem_live_iff t').mp ht'
  obtain ⟨v', x, n', hv⟩ := h.exists_twin hlawful hforemost.1.1
  obtain rfl := Option.some.inj (hn.symm.trans hv.stored)
  exact ⟨t', (h.grown'.plain.mem_matched_iff hlawful t').mpr ⟨hget', v',
    h.foremost hcs hv hforemost, n', hv.stored',
    h.mem_visible hlawful hv hget hget' hactive hvisible⟩, haction⟩

/-! ## Counting -/

/-- **Twins are as many**: of two sets of nodes that correspond under being twins. -/
theorem ncard_eq (hcs : cs.Lawful) (h : Rearranged cs opts tree tree') {V V' : Set NodeId}
    (hV : ∀ v ∈ V, tree.store.Reachable v) (hV' : ∀ v' ∈ V', tree'.store.Reachable v')
    (hiff : ∀ v v' n n', Twins cs tree tree' v v' n n' → (v ∈ V ↔ v' ∈ V')) :
    V.ncard = V'.ncard := by
  have htwin : ∀ v, v ∈ V → ∃ v' n n', Twins cs tree tree' v v' n n' :=
    fun v hv => h.exists_twin hcs (hV v hv)
  choose twin n n' hn using htwin
  refine Set.ncard_congr twin (fun v hv => (hiff _ _ _ _ (hn v hv)).mp hv) ?_ ?_
  · intro a b ha hb heq
    have hb' := (hn b hb).symm hcs
    rw [← heq] at hb'
    exact ((hn a ha).symm hcs).unique hcs (h.grown.sound hcs) hb'
  · intro v' hv'
    obtain ⟨v, k', k, hv⟩ := h.symm.exists_twin hcs (hV' v' hv')
    have hv := hv.symm hcs
    have hmem := (hiff _ _ _ _ hv).mpr hv'
    exact ⟨v, hmem, (hn v hmem).unique hcs (h.grown'.sound hcs) hv⟩

/-- **Rearranged trees have equally many nodes.** -/
theorem size_eq (hcs : cs.Lawful) (h : Rearranged cs opts tree tree') :
    tree.size = tree'.size := by
  have hncard : {v | tree.store.Reachable v}.ncard = {v | tree'.store.Reachable v}.ncard :=
    h.ncard_eq hcs (fun _ hv => hv) (fun _ hv => hv)
      fun _ _ _ _ htwins => ⟨fun _ => htwins.reached', fun _ => htwins.reached⟩
  have hsize := h.grown.size_add_one
  have hsize' := h.grown'.size_add_one
  omega

end Rearranged

/-- The number of nodes below the root, without regard to their order. -/
theorem Reached.breadth_eq_ncard {ok : Tree α → Change α → Prop} (hcs : cs.Lawful)
    (h : Reached ok cs opts tree) :
    tree.breadth = {v | v ∈ tree.store.children .root}.ncard := by
  have hs := (h.sound hcs).store.diagram
  have hset : {v | v ∈ tree.store.children .root} = ↑(tree.store.children .root).toFinset := by
    ext v
    rw [Set.mem_ofPred_eq, Finset.mem_coe, List.mem_toFinset]
  rw [hset, Set.ncard_coe_finset,
    List.toFinset_card_of_nodup ((hs.covers .root hs.root_mem).nodup hcs)]
  rfl

/-- **Their roots have equally many children.** -/
theorem Rearranged.breadth_eq (hcs : cs.Lawful) (h : Rearranged cs opts tree tree') :
    tree.breadth = tree'.breadth := by
  obtain ⟨k, k', hroot⟩ := h.twins_root hcs
  have hreached {ok : Tree α → Change α → Prop} {t : Tree α} (ht : Reached ok cs opts t) :
      ∀ v ∈ {v | v ∈ t.store.children .root}, t.store.Reachable v := fun v hv =>
    Relation.ReflTransGen.single hv
  rw [h.grown.breadth_eq_ncard hcs, h.grown'.breadth_eq_ncard hcs]
  exact h.ncard_eq hcs (hreached h.grown) (hreached h.grown') fun v v' n n' hv =>
    ⟨h.mem_children hcs hroot hv, h.symm.mem_children hcs (hroot.symm hcs) (hv.symm hcs)⟩

/-! ## Adding one after the other -/

/-- **What is added**: a condition, an action, and the quantifiers over the condition. -/
abbrev Addition (α : Type) : Type := Expression × α × List Quantifier

/-- **Adding triggers** in order, to the tree without triggers. -/
def addAll (cs : Comparers) (opts : List Optimizer) (additions : List (Addition α)) : Tree α :=
  run cs opts (additions.map fun x => .add x.1 x.2.1 x.2.2)

theorem addAll_concat (cs : Comparers) (opts : List Optimizer) (additions : List (Addition α))
    (x : Addition α) :
    addAll cs opts (additions ++ [x]) =
      (addAll cs opts additions).change (.add x.1 x.2.1 x.2.2) := by
  rw [addAll, List.map_append, List.map_singleton, run, List.foldl_concat]
  rfl

/-- **What comes of an addition** in a tree that does not have the action: the request of
the trigger, if that has a clause that fits below the root. -/
def outcome? (cs : Comparers) (opts : List Optimizer) (x : Addition α) :
    Option (α × List Clause) :=
  let t := Trigger.build cs opts default x.1 x.2.1 x.2.2
  if ∃ c ∈ t.active, c.Fits then some t.request else none

omit [DecidableEq α] in
theorem action_of_outcome {x : Addition α} {request : α × List Clause}
    (h : outcome? cs opts x = some request) : request.1 = x.2.1 := by
  unfold outcome? at h
  dsimp only at h
  split at h
  · rw [← Option.some.inj h]
    rfl
  · exact (Option.some_ne_none request h.symm).elim

/-- The trigger that an addition builds is that of its condition. -/
theorem Reached.incoming_eq {ok : Tree α → Change α → Prop} (hcs : cs.Lawful)
    (h : Reached ok cs opts tree) (x : Addition α) :
    tree.incoming x.1 x.2.1 x.2.2 =
      .build cs opts tree.triggers.nextId x.1 x.2.1 x.2.2 := by
  have hs := h.sound hcs
  rw [incoming, hs.comparers, hs.optimizers]

/-- **After an addition** the triggers are those that were there, and the incoming one if it
is retained. -/
theorem Reached.requests_add {ok : Tree α → Change α → Prop} (hcs : cs.Lawful)
    (h : Reached ok cs opts tree) {x : Addition α}
    (hfresh : tree.Fresh (.add x.1 x.2.1 x.2.2)) :
    (tree.change (.add x.1 x.2.1 x.2.2)).triggers.live.map Trigger.request =
      tree.triggers.live.map Trigger.request ++ (outcome? cs opts x).toList := by
  obtain ⟨hplaced, -⟩ := hfresh.contains_filing_iff h
  obtain ⟨-, -, -, htriggers⟩ := tree.add_cases x.1 x.2.1 x.2.2
  have hincoming := h.incoming_eq hcs x
  have houtcome : outcome? cs opts x =
      if ∃ c ∈ (tree.incoming x.1 x.2.1 x.2.2).active, c.Fits
      then some (tree.incoming x.1 x.2.1 x.2.2).request else none := by
    rw [hincoming]
    rfl
  set t := tree.incoming x.1 x.2.1 x.2.2
  rw [Tree.change, htriggers, houtcome]
  by_cases hfits : ∃ c ∈ t.active, c.Fits
  · rw [if_pos (hplaced.mpr hfits), if_pos hfits, Register.live_push, List.map_append]
    rfl
  · rw [if_neg (mt hplaced.mp hfits), if_neg hfits, Register.live_erase_push]
    exact (List.append_nil _).symm

/-- **Additions of different actions**, without ignored parts and of shallow conditions,
grow a tree, and what comes of each of them does not depend on the others. -/
theorem reached_addAll (hcs : cs.Lawful) {additions : List (Addition α)}
    (hdistinct : (additions.map fun x => x.2.1).Nodup)
    (hplain : ∀ x ∈ additions, x.1.heedsAll = true ∧ x.1.shallow = true) :
    Reached Growing cs [] (addAll cs [] additions) ∧
      (addAll cs [] additions).triggers.live.map Trigger.request =
        additions.filterMap (outcome? cs []) := by
  induction additions using List.reverseRecOn with
  | nil => exact ⟨.empty, rfl⟩
  | append_singleton additions x ih =>
    rw [List.map_append, List.map_singleton, ← List.concat_eq_append,
      List.nodup_concat] at hdistinct
    obtain ⟨hnew, hdistinct⟩ := hdistinct
    obtain ⟨hgrown, hrequests⟩ := ih hdistinct fun y hy => hplain y (List.mem_append_left _ hy)
    obtain ⟨hheeds, hshallow⟩ := hplain x (List.mem_append_right _ (List.mem_singleton_self x))
    rw [addAll_concat]
    set tree := addAll cs [] additions
    have hfresh : tree.Fresh (.add x.1 x.2.1 x.2.2) := by
      intro t ht haction
      have hmem := List.mem_map_of_mem (f := Trigger.request) ht
      rw [hrequests] at hmem
      obtain ⟨y, hy, hyt⟩ := List.mem_filterMap.mp hmem
      have hsame : t.action = y.2.1 := action_of_outcome hyt
      exact hnew (List.mem_map.mpr ⟨y, hy, hsame.symm.trans haction⟩)
    have hincoming := hgrown.incoming_eq hcs x
    have hadmitted : tree.Growing (.add x.1 x.2.1 x.2.2) := by
      refine ⟨?_, hfresh, ?_⟩
      · show (tree.incoming x.1 x.2.1 x.2.2).Unconditional
        rw [hincoming]
        exact Trigger.unconditional_build hheeds _ _
      · rw [hincoming]
        exact fun c hc => Trigger.simple_of_mem_build hshallow _ _ hc
    refine ⟨hgrown.change _ hadmitted, ?_⟩
    rw [hgrown.requests_add hcs hfresh, hrequests, List.filterMap_append]
    refine congrArg (additions.filterMap (outcome? cs []) ++ ·) ?_
    cases h : outcome? cs [] x with
    | none => rw [List.filterMap_cons_none h]; rfl
    | some request => rw [List.filterMap_cons_some h]; rfl

/-- **The order of additions does not matter**: additions of different actions, without
ignored parts and of shallow conditions, lead in every order to trees with equally many
nodes, equally many of them below the root, that match the same actions. -/
theorem addAll_perm (hcs : cs.BoundsOnly) {additions additions' : List (Addition α)}
    (hperm : additions.Perm additions') (hdistinct : (additions.map fun x => x.2.1).Nodup)
    (hplain : ∀ x ∈ additions, x.1.heedsAll = true ∧ x.1.shallow = true) :
    let tree := addAll cs [] additions
    let tree' := addAll cs [] additions'
    tree.size = tree'.size ∧ tree.breadth = tree'.breadth ∧
      ∀ m action, action ∈ (tree.matched m).map Trigger.action ↔
        action ∈ (tree'.matched m).map Trigger.action := by
  have hlawful := Comparers.lawful_of_boundsOnly hcs
  obtain ⟨hgrown, hrequests⟩ := reached_addAll hlawful hdistinct hplain
  obtain ⟨hgrown', hrequests'⟩ := reached_addAll hlawful ((hperm.map _).nodup_iff.mp hdistinct)
    fun x hx => hplain x (hperm.mem_iff.mpr hx)
  have hrearranged : Rearranged cs [] (addAll cs [] additions) (addAll cs [] additions') := by
    refine ⟨hgrown, hgrown', fun request => ?_⟩
    rw [hrequests, hrequests']
    exact (hperm.filterMap _).mem_iff
  have hmatched {tree tree' : Tree α} (h : Rearranged cs [] tree tree') (m : Memory)
      {action : α} (hmem : action ∈ (tree.matched m).map Trigger.action) :
      action ∈ (tree'.matched m).map Trigger.action := by
    obtain ⟨t, ht, rfl⟩ := List.mem_map.mp hmem
    obtain ⟨t', ht', haction⟩ := h.exists_matched hcs ht
    exact List.mem_map.mpr ⟨t', ht', haction⟩
  exact ⟨hrearranged.size_eq hlawful, hrearranged.breadth_eq hlawful, fun m action =>
    ⟨hmatched hrearranged m, hmatched hrearranged.symm m⟩⟩

/-- A wide trigger, a narrow one, and one that has a clause of either, added in two orders;
the third one is about a quantified name. -/
theorem addAll_perm_shared :
    let cs := Comparers.empty.registerBounds
    let below (n : Int64) : Expression := .compare .less (.accessor "x") (.constant (.integer n))
    let additions : List (Addition Nat) := [(below 9, 1, []),
      (.and [.accessor "a", below 5], 2, []),
      (.or [.accessor "y", .and [below 5, .accessor "a"]], 3, [⟨"y", false, ["a", "b"]⟩])]
    let tree := addAll cs [] additions
    let tree' := addAll cs [] additions.reverse
    cs.BoundsOnly ∧ additions.Perm additions.reverse ∧
      (additions.map fun x => x.2.1).Nodup ∧
      (∀ x ∈ additions, x.1.heedsAll = true ∧ x.1.shallow = true) ∧
      tree.size = tree'.size ∧ tree.breadth = tree'.breadth ∧
      ∀ m action, action ∈ (tree.matched m).map Trigger.action ↔
        action ∈ (tree'.matched m).map Trigger.action := by
  intro cs below additions tree tree'
  have hcs : cs.BoundsOnly := Comparers.boundsOnly_registerBounds
  have hperm : additions.Perm additions.reverse := (List.reverse_perm additions).symm
  have hdistinct : (additions.map fun x => x.2.1).Nodup := by decide
  have hplain : ∀ x ∈ additions, x.1.heedsAll = true ∧ x.1.shallow = true := by decide +kernel
  exact ⟨hcs, hperm, hdistinct, hplain, addAll_perm hcs hperm hdistinct hplain⟩

end Tree

end Specificity
