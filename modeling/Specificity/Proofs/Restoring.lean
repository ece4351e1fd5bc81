import Specificity.Proofs.Ownership
import Specificity.Proofs.Shape

/-!
# Taking an addition back

Adding a trigger and removing it again leads back to the same nodes, with the same
clauses and carrying what they carried. As long as no trigger has an ignored condition,
the same nodes fire then, so for all that was matched something at most as wide still is.

What a node shows need not come back. The addition makes the visible triggers that are
wider give way. The removal promotes in the order of handles whatever is not wider than
what is visible by then, and nothing gives way to what it promotes. So of two equal
triggers only the first comes back, and a trigger that was hidden behind a narrower one
that came later is visible now, beside it. Where the nodes that the trigger makes room
in are free of both (`Node.Chronological`), matching is restored.
-/

namespace Specificity

/-! ## One node -/

namespace Node

variable {judge : TriggerId → TriggerId → Relationship} {m n : Node} {id : TriggerId}
  {ts visible shown : List TriggerId}

/-- Nothing is promoted where everything is visible or wider than something visible. -/
theorem promote_eq_self (h : ∀ t ∈ ts, t ∈ visible ∨ ∃ v ∈ visible, (judge t v).covers = true) :
    promote judge ts visible = visible := by
  induction ts with
  | nil => rfl
  | cons t ts ih =>
    rw [promote_cons, if_pos]
    · exact ih fun u hu => h u (List.mem_cons_of_mem t hu)
    · rw [Bool.or_eq_true, List.contains_iff_mem, List.any_eq_true]
      exact h t List.mem_cons_self

/-- **Promotion in the order of handles** brings back the triggers in `shown`, if none of
them is at least as wide as another one, and whatever else may be promoted comes after
one of them that it is at least as wide as. -/
theorem mem_promote_iff_of_shown (hsorted : ts.Pairwise fun t u => t.index < u.index)
    (hvisible : ∀ v ∈ visible, v ∈ shown)
    (hapart : ∀ t ∈ shown, ∀ u ∈ shown, (judge t u).covers = true → t = u)
    (hbehind : ∀ t ∈ ts, t ∉ shown → ∃ v ∈ shown,
      (v ∈ visible ∨ v ∈ ts ∧ v.index < t.index) ∧ (judge t v).covers = true)
    (t : TriggerId) :
    t ∈ promote judge ts visible ↔ t ∈ visible ∨ t ∈ ts ∧ t ∈ shown := by
  induction ts generalizing visible with
  | nil => exact ⟨.inl, fun h => h.resolve_right fun hmem => List.not_mem_nil hmem.1⟩
  | cons u ts ih =>
    obtain ⟨hfirst, hrest⟩ := List.pairwise_cons.mp hsorted
    -- the first one is promoted if it is in `shown` and not visible yet
    obtain ⟨visible', hpromote, hstep⟩ : ∃ visible',
        promote judge (u :: ts) visible = promote judge ts visible' ∧
          ∀ x, x ∈ visible' ↔ x ∈ visible ∨ x = u ∧ u ∈ shown := by
      rw [promote_cons]
      refine ⟨_, rfl, fun x => ?_⟩
      split
      · next hskip =>
        refine ⟨.inl, fun hx => hx.elim (fun hx => hx) ?_⟩
        rintro ⟨rfl, hshown⟩
        rw [Bool.or_eq_true, List.contains_iff_mem, List.any_eq_true] at hskip
        rcases hskip with hx | ⟨v, hv, hcov⟩
        · exact hx
        · rw [hapart x hshown v (hvisible v hv) hcov]
          exact hv
      · next hadd =>
        rw [Bool.or_eq_true, not_or, List.any_eq_true] at hadd
        rw [List.mem_append, List.mem_singleton]
        refine or_congr_right ⟨fun hx => ⟨hx, ?_⟩, And.left⟩
        -- a hidden trigger would have come after a visible one
        by_contra hhidden
        obtain ⟨v, hv, hbefore, hcov⟩ := hbehind u List.mem_cons_self hhidden
        rcases hbefore with hv' | ⟨hmem, hlt⟩
        · exact hadd.2 ⟨v, hv', hcov⟩
        · rcases List.mem_cons.mp hmem with rfl | hmem
          · exact Nat.lt_irrefl _ hlt
          · exact Nat.lt_asymm hlt (hfirst v hmem)
    rw [hpromote, ih hrest, hstep, List.mem_cons]
    · constructor
      · rintro ((hmem | ⟨rfl, hshown⟩) | ⟨hmem, hshown⟩)
        · exact .inl hmem
        · exact .inr ⟨.inl rfl, hshown⟩
        · exact .inr ⟨.inr hmem, hshown⟩
      · rintro (hmem | ⟨rfl | hmem, hshown⟩)
        · exact .inl (.inl hmem)
        · exact .inl (.inr ⟨rfl, hshown⟩)
        · exact .inr ⟨hmem, hshown⟩
    · intro v hv
      rcases (hstep v).mp hv with hv | ⟨rfl, hshown⟩
      · exact hvisible v hv
      · exact hshown
    · intro w hw hhidden
      obtain ⟨v, hv, hbefore, hcov⟩ := hbehind w (List.mem_cons_of_mem u hw) hhidden
      refine ⟨v, hv, ?_, hcov⟩
      rcases hbefore with hv' | ⟨hmem, hlt⟩
      · exact .inl ((hstep v).mpr (.inl hv'))
      · rcases List.mem_cons.mp hmem with rfl | hmem
        · exact .inl ((hstep v).mpr (.inr ⟨rfl, hv⟩))
        · exact .inr ⟨hmem, hlt⟩

theorem filter_ne_concat {ts : List TriggerId} (h : id ∉ ts) :
    (ts ++ [id]).filter (fun t => t ≠ id) = ts := by
  have hkeep : ts.filter (fun t => decide (t ≠ id)) = ts :=
    List.filter_eq_self.mpr fun t ht => decide_eq_true (ne_of_mem_of_not_mem ht h)
  rw [List.filter_append, hkeep, List.filter_singleton]
  simp

/-- Nothing is left to show of a node that only the trigger has. -/
theorem visible_without_ofTrigger (judge : TriggerId → TriggerId → Relationship) (c : Clause)
    (id : TriggerId) : ((ofTrigger c id).without judge id).visible = [] := by
  have hmem : [id].contains id = true := List.contains_iff_mem.mpr (List.mem_singleton_self id)
  have hnone : [id].filter (fun t => t ≠ id) = [] := filter_ne_concat List.not_mem_nil
  show (if [id].contains id then (ofTrigger c id).withdraw judge id else _).visible = []
  rw [if_pos hmem, withdraw]
  show (if [id].contains id then _ else _ : Node).visible = []
  rw [if_pos hmem]
  show promote judge ([id].filter fun t => t ≠ id) ([id].filter fun t => t ≠ id) = []
  rw [hnone]
  rfl

/-- What a node carries comes back. -/
theorem carried_without_join (judge : TriggerId → TriggerId → Relationship)
    (hnew : id ∉ m.carried) : ((m.join (judge id) id).without judge id).carried = m.carried := by
  have hmem : (m.join (judge id) id).carried.contains id = true :=
    List.contains_iff_mem.mpr (List.mem_append_right _ (List.mem_singleton_self id))
  rw [without, if_pos hmem, withdraw]
  split <;> exact filter_ne_concat hnew

/-- What a node shows is promoted to what did not give way, if the trigger was admitted. -/
theorem visible_without_join (judge : TriggerId → TriggerId → Relationship)
    (hnew : id ∉ m.carried) (hsub : ∀ v ∈ m.visible, v ∈ m.carried) :
    ((m.join (judge id) id).without judge id).visible =
      if (makeWay (judge id) m.visible).2
      then promote judge m.carried (makeWay (judge id) m.visible).1
      else (makeWay (judge id) m.visible).1 := by
  have hmem : (m.join (judge id) id).carried.contains id = true :=
    List.contains_iff_mem.mpr (List.mem_append_right _ (List.mem_singleton_self id))
  have hkept : id ∉ (makeWay (judge id) m.visible).1 := fun hid =>
    hnew (hsub id ((makeWay_sublist (judge id) m.visible).subset hid))
  rw [without, if_pos hmem, withdraw, visible_join, carried_join, filter_ne_concat hnew]
  cases (makeWay (judge id) m.visible).2 with
  | true =>
    have hadmit : (true && !(makeWay (judge id) m.visible).1.contains id) = true := by
      rw [Bool.true_and, Bool.not_eq_true', ← Bool.not_eq_true, List.contains_iff_mem]
      exact hkept
    have hvisible : ((makeWay (judge id) m.visible).1 ++ [id]).contains id = true :=
      List.contains_iff_mem.mpr (List.mem_append_right _ (List.mem_singleton_self id))
    rw [if_pos hadmit, if_pos hvisible, if_pos rfl, filter_ne_concat hkept]
  | false =>
    rw [Bool.false_and, if_neg Bool.false_ne_true, if_neg (mt List.contains_iff_mem.mp hkept),
      if_neg Bool.false_ne_true]

variable {α : Type} {cs : Comparers} {r r' : Register α}

/-- **A node in the order of arrival**: what it shows is incomparable, and what it hides
came after something at most as wide that it shows. -/
structure Chronological (cs : Comparers) (r : Register α) (n : Node) : Prop where
  /-- Visible triggers are incomparable to each other. -/
  apart : n.visible.Pairwise fun u v => r.relate cs u v = .incomparable
  /-- Hidden triggers are hidden behind one that came earlier. -/
  behind : ∀ u ∈ n.carried, u ∉ n.visible →
    ∃ v ∈ n.visible, v.index < u.index ∧ r.Within cs v u

/-- **A node shows again what it showed** before a trigger joined it and was withdrawn, if
the trigger is narrower than nothing visible, or the node was in the order of arrival. -/
theorem mem_visible_without_join (hcs : cs.Lawful) (hsharp : r.Sharp cs)
    (h : m.Accounted cs r) (hsorted : m.carried.Pairwise fun u v => u.index < v.index)
    (hnew : id ∉ m.carried)
    (hroom : (∃ v ∈ m.visible, r.relate cs id v = .specializes) → m.Chronological cs r)
    (u : TriggerId) :
    u ∈ ((m.join (r.relate cs id) id).without (r.relate cs) id).visible ↔ u ∈ m.visible := by
  -- between handles that are registered the judgement is the order of width
  have hcovers : ∀ v ∈ m.carried, ∀ w ∈ m.carried,
      ((r.relate cs v w).covers = true ↔ r.Within cs w v) := fun v hv w hw =>
    (Register.relate_iff hcs hsharp (h.hasClause hv) (h.hasClause hw)).2
  rw [visible_without_join _ hnew h.carried]
  by_cases hgives : ∃ v ∈ m.visible, r.relate cs id v = .specializes
  · obtain ⟨hincomparable, hbehind⟩ := hroom hgives
    have hsub := (makeWay_sublist (r.relate cs id) m.visible).subset
    have hapart : ∀ v ∈ m.visible, ∀ w ∈ m.visible, r.Within cs w v → v = w := by
      have hsymm : Std.Symm fun v w : TriggerId => ¬ r.Within cs v w ∧ ¬ r.Within cs w v :=
        ⟨fun _ _ => And.symm⟩
      have hpairwise : m.visible.Pairwise fun v w => ¬ r.Within cs v w ∧ ¬ r.Within cs w v := by
        refine hincomparable.imp_of_mem fun {v w} hv hw hvw => ?_
        have hiff := Register.relate_iff hcs hsharp (h.hasClause (h.carried v hv))
          (h.hasClause (h.carried w hw))
        rw [hvw] at hiff
        exact ⟨fun hle => Bool.false_ne_true (hiff.1.mpr hle),
          fun hge => Bool.false_ne_true (hiff.2.mpr hge)⟩
      intro v hv w hw hwv
      by_contra hne
      exact (hpairwise.forall hv hw hne).2 hwv
    -- were it turned away, it would be narrower than one visible trigger and wider than another
    have hadmitted : (makeWay (r.relate cs id) m.visible).2 = true := by
      refine (makeWay_spec (r.relate cs id) m.visible).2.resolve_right ?_
      rintro ⟨w, hw, hwide⟩
      obtain ⟨v, hv, hnarrow⟩ := hgives
      have hwithin := ((r.within_of_relate id w).2 (Relationship.covers_of_generalizes hwide)).trans
        hcs ((r.within_of_relate id v).1 (Relationship.isCovered_of_specializes hnarrow))
      rw [hapart v hv w (hsub hw) hwithin, hwide] at hnarrow
      exact absurd hnarrow (by decide)
    rw [if_pos hadmitted, mem_promote_iff_of_shown hsorted (fun v hv => hsub hv)]
    · exact ⟨fun hu => hu.elim (fun hu => hsub hu) And.right,
        fun hu => .inr ⟨h.carried u hu, hu⟩⟩
    · intro v hv w hw hcov
      exact hapart v hv w hw ((hcovers v (h.carried v hv) w (h.carried w hw)).mp hcov)
    · intro v hv hhidden
      obtain ⟨w, hw, hlt, hwithin⟩ := hbehind v hv hhidden
      exact ⟨w, hw, .inr ⟨h.carried w hw, hlt⟩,
        (hcovers v hv w (h.carried w hw)).mpr hwithin⟩
  · push Not at hgives
    rw [makeWay_eq_self hgives, promote_eq_self, ite_self]
    intro v hv
    obtain ⟨w, hw, hwithin⟩ := h.shown v hv
    exact .inr ⟨w, hw, (hcovers v hv w (h.carried w hw)).mpr hwithin⟩

/-- Only the entries of what the node carries matter. -/
theorem Chronological.congr (h : n.Chronological cs r) (hsub : ∀ v ∈ n.visible, v ∈ n.carried)
    (hget : ∀ u ∈ n.carried, r'.get? u = r.get? u) : n.Chronological cs r' where
  apart := by
    refine h.apart.imp_of_mem fun {u v} hu hv huv => ?_
    unfold Register.relate at huv ⊢
    rw [hget u (hsub u hu), hget v (hsub v hv)]
    exact huv
  behind u hu hhidden := by
    obtain ⟨v, hv, hlt, t, t', ht, ht', hwithin⟩ := h.behind u hu hhidden
    exact ⟨v, hv, hlt, t, t', (hget v (hsub v hv)).trans ht, (hget u hu).trans ht', hwithin⟩

end Node

namespace Tree

variable {α : Type} [DecidableEq α] {cs : Comparers} {opts : List Optimizer} {tree : Tree α}
  {t : Trigger α} {v : NodeId} {m : Node}

/-! ## An addition and its removal -/

/-- **The tree after a trigger was added and removed again.** -/
def passing (tree : Tree α) (expression : Expression) (action : α)
    (quantifiers : List Quantifier) : Tree α :=
  ((tree.add expression action quantifiers).2.remove
    (tree.add expression action quantifiers).1).2

/-- A node of the tree before is in the filed store, where it may have gained the trigger. -/
theorem Filed.exists_gains (h : tree.Filed cs t) (hv : tree.store.Reachable v)
    (hm : tree.store.bare v = some m) :
    (tree.filing t).2.Reachable v ∧ ∃ n, (tree.filing t).2.bare v = some n ∧
      m.Gains ((tree.triggers.push t).relate cs tree.triggers.nextId) tree.triggers.nextId n := by
  obtain ⟨hv', n, hn, -⟩ := h.keeps v hv m hm
  refine ⟨hv', n, hn, ?_⟩
  rcases h.descends v hv' n hn with ⟨-, m', hm', hgains⟩ | ⟨hfresh, -⟩
  · obtain rfl := Option.some.inj (hm.symm.trans hm')
    exact hgains
  · exact absurd hv hfresh

/-- **What an addition and its removal lead back to**: the same registry, triggers and
nodes. A node is what it was, or the trigger has its clause, joined it and was withdrawn. -/
structure Returned (cs : Comparers) (tree : Tree α) (t : Trigger α) (after : Tree α) : Prop where
  /-- The registries are the same. -/
  comparers : after.comparers = tree.comparers
  /-- Handles stand for the same triggers. -/
  triggers : ∀ id, after.trigger? id = tree.trigger? id
  /-- The same nodes are reached. -/
  reachable : ∀ v, after.store.Reachable v ↔ tree.store.Reachable v
  /-- At most, the trigger came and went. -/
  nodes : ∀ v m, tree.store.Reachable v → tree.store.bare v = some m →
    ∃ n, after.store.bare v = some n ∧ (n = m ∨ t.Has cs m.clause ∧
      tree.triggers.nextId ∉ m.carried ∧
      n = (m.join ((tree.triggers.push t).relate cs tree.triggers.nextId)
        tree.triggers.nextId).without ((tree.triggers.push t).relate cs) tree.triggers.nextId)

/-- **If the trigger was turned away** all nodes are as they were. -/
theorem Filed.returned_of_notMem (hcs : cs.Lawful) (hs : tree.Sound cs opts)
    (h : tree.Filed cs t) {after : Tree α} (hno : true ∉ (tree.filing t).1)
    (hcomparers : after.comparers = tree.comparers)
    (htriggers : after.triggers = (tree.triggers.push t).erase tree.triggers.nextId)
    (hstore : after.store = (tree.filing t).2.sweep) : tree.Returned cs t after := by
  obtain ⟨-, hreach, hget⟩ := h.sound.sweep hcs
  have hquiet := h.quiet hno
  constructor
  · exact hcomparers
  · intro id
    rw [trigger?, htriggers]
    exact get?_erase_push tree t id
  · intro v
    rw [hstore, hreach]
    refine ⟨fun hv => ?_, h.keeps.reachable hs.store⟩
    obtain ⟨n, hn⟩ := Option.isSome_iff_exists.mp
      ((Store.isSome_bare _ v).trans (h.sound.diagram.stored v hv))
    rcases h.descends v hv n hn with ⟨hv', -⟩ | ⟨-, c, -, rfl⟩
    · exact hv'
    · exact absurd (List.mem_singleton_self _) (hquiet v hv _ hn)
  · intro v m hv hm
    obtain ⟨hv', n, hn, hgains⟩ := h.exists_gains hv hm
    refine ⟨n, ?_, .inl ?_⟩
    · rw [hstore, Store.bare_of_get?_eq (hget v hv')]
      exact hn
    · refine hgains.resolve_right ?_
      rintro ⟨-, rfl⟩
      exact hquiet v hv' _ hn (List.mem_append_right _ (List.mem_singleton_self _))

/-- **If the trigger was placed**, its removal splices out its new nodes and no others,
since each of the others has something left to show. -/
theorem Filed.returned_of_placed {ok : Tree α → Change α → Prop} (hcs : cs.Lawful)
    (hreached : Reached ok cs opts tree) (h : tree.Filed cs t) {after : Tree α}
    (hcomparers : after.comparers = tree.comparers)
    (htriggers : after.triggers = (tree.triggers.push t).erase tree.triggers.nextId)
    (hstore : after.store = ((tree.filing t).2.sweep.withdraw cs (tree.triggers.push t)
      tree.triggers.nextId).2.sweep) : tree.Returned cs t after := by
  have hs := (hreached.sound hcs).store
  obtain ⟨hswept, hreach, hget⟩ := h.sound.sweep hcs
  obtain ⟨hwithdrawn, hspec⟩ := hswept.withdraw hcs (tree.triggers.push t) tree.triggers.nextId
  obtain ⟨-, hreach', hget'⟩ := hwithdrawn.sweep hcs
  have hnew : AllNodes (fun n => tree.triggers.nextId ∉ n.carried) tree.store :=
    (hreached.nodesAccounted hcs).nextId_notMem
  have hself := get?_push_nextId tree t
  set judge := (tree.triggers.push t).relate cs with hjudge
  set id := tree.triggers.nextId
  -- what becomes of a node of the tree before
  have hback : ∀ v m, tree.store.Reachable v → tree.store.bare v = some m →
      (tree.filing t).2.sweep.Reachable v ∧ ∃ n, (tree.filing t).2.sweep.bare v = some n ∧
        n.Accounted cs (tree.triggers.push t) ∧ (n.without judge id).carried = m.carried ∧
        (n.without judge id = m ∨ t.Has cs m.clause ∧ id ∉ m.carried ∧
          n.without judge id = (m.join (judge id) id).without judge id) := by
    intro v m hv hm
    obtain ⟨hv', n, hn, hgains⟩ := h.exists_gains hv hm
    have haccounted := h.nodes v hv' n hn
    refine ⟨(hreach v).mpr hv', n, (Store.bare_of_get?_eq (hget v hv')).trans hn, haccounted, ?_⟩
    rcases hgains with rfl | ⟨habsent, rfl⟩
    · rw [Node.without_eq_self judge (hnew v hv n hm)]
      exact ⟨rfl, .inl rfl⟩
    · obtain ⟨u, hu, hhas⟩ := haccounted.has id
        (List.mem_append_right _ (List.mem_singleton_self id))
      obtain rfl := Option.some.inj (hself.symm.trans hu)
      exact ⟨Node.carried_without_join judge habsent, .inr ⟨hhas, habsent, rfl⟩⟩
  have hremains : ∀ v, tree.store.Reachable v → v ∈ (tree.filing t).2.sweep.remaining cs
      (tree.triggers.push t) id {v | (tree.filing t).2.sweep.Reachable v} := by
    intro v hv
    obtain ⟨x, hx⟩ := Option.isSome_iff_exists.mp (hs.diagram.stored v hv)
    obtain ⟨hv', n, hn, haccounted, hcarried, -⟩ := hback v x.bare hv (Store.bare_eq_some hx)
    refine ⟨hv', or_iff_not_imp_left.mpr fun hne hsilenced => ?_⟩
    rw [Store.silenced, hn, Option.any_some, List.isEmpty_iff] at hsilenced
    obtain ⟨u, hu⟩ := List.exists_mem_of_ne_nil _ (hreached.carried_ne_nil hcs hv hne hx)
    obtain ⟨w, hw, -⟩ := (haccounted.without hcs id).shown u (hcarried ▸ hu)
    rw [hsilenced] at hw
    exact List.not_mem_nil hw
  constructor
  · exact hcomparers
  · intro i
    rw [trigger?, htriggers]
    exact get?_erase_push tree t i
  · intro v
    rw [hstore, hreach', ← hspec.diagram.mem_iff_reachable hcs]
    refine ⟨fun hv => ?_, hremains v⟩
    have hv' := (hreach v).mp hv.1
    obtain ⟨n, hn⟩ := Option.isSome_iff_exists.mp
      ((Store.isSome_bare _ v).trans (h.sound.diagram.stored v hv'))
    rcases h.descends v hv' n hn with ⟨hbefore, -⟩ | ⟨hfresh, c, -, rfl⟩
    · exact hbefore
    · rcases hv.2 with rfl | hloud
      · exact Relation.ReflTransGen.refl
      · refine absurd ?_ hloud
        rw [Store.silenced, Store.bare_of_get?_eq (hget v hv'), hn, Option.any_some,
          Node.visible_without_ofTrigger]
        rfl
  · intro v m hv hm
    obtain ⟨hv', n, hn, -, -, hn'⟩ := hback v m hv hm
    have hremain := (hspec.diagram.mem_iff_reachable hcs v).mp (hremains v hv)
    refine ⟨n.without judge id, ?_, hn'⟩
    rw [hstore, Store.bare_of_get?_eq (hget' v hremain), hspec.bare v hv', hn]
    rfl

/-- **An addition and its removal** lead back to the same nodes, after any history. -/
theorem Reached.returned {ok : Tree α → Change α → Prop} (hcs : cs.Lawful)
    (h : Reached ok cs opts tree) (expression : Expression) (action : α)
    (quantifiers : List Quantifier) :
    tree.Returned cs (tree.incoming expression action quantifiers)
      (tree.passing expression action quantifiers) := by
  have hs := h.sound hcs
  have hid := tree.fst_add expression action quantifiers
  have htrigger := tree.trigger?_nextId_add expression action quantifiers
  obtain ⟨hcomparers, -, hstore, htriggers⟩ := tree.add_cases expression action quantifiers
  unfold passing
  set t := tree.incoming expression action quantifiers
  set added := (tree.add expression action quantifiers).2
  rw [hid]
  have hfiled := (h.nodesAccounted hcs).filing hcs hs t
  by_cases hplaced : (tree.filing t).1.contains true = true
  · rw [if_pos hplaced] at htrigger htriggers
    rcases added.remove_cases tree.triggers.nextId with
      ⟨hnone, -⟩ | ⟨-, hcomparers', -, hstore', htriggers'⟩
    · exact (Option.some_ne_none t (htrigger.symm.trans hnone)).elim
    · refine hfiled.returned_of_placed hcs h (hcomparers'.trans hcomparers) ?_ ?_
      · rw [htriggers', htriggers]
      · rw [hstore', hstore, htriggers, hcomparers, hs.comparers]
  · -- the trigger is not there any more, so its removal does nothing
    rw [if_neg hplaced] at htrigger htriggers
    rcases added.remove_cases tree.triggers.nextId with ⟨-, heq⟩ | ⟨hsome, -⟩
    · rw [heq]
      exact hfiled.returned_of_notMem hcs hs (mt List.contains_iff_mem.mpr hplaced) hcomparers
        htriggers hstore
    · rw [htrigger] at hsome
      exact absurd hsome Bool.false_ne_true

omit [DecidableEq α] in
/-- What an addition and its removal lead back to has the shape of the tree before. -/
theorem Returned.sameShape {after : Tree α} (h : tree.Returned cs t after) :
    tree.SameShape after where
  comparers := h.comparers
  triggers := h.triggers
  reachable := h.reachable
  nodes v m hv hm := by
    obtain ⟨n, hn, rfl | ⟨-, hnew, rfl⟩⟩ := h.nodes v m hv hm
    · exact ⟨n, hn, rfl, rfl⟩
    · exact ⟨_, hn, Node.clause_without _ _ _, Node.carried_without_join _ hnew⟩

/-! ## Matching after an addition and its removal -/

/-- **Does the trigger make room for itself** at a node? It must have the clause and be
narrower than something visible. -/
def Displaces (tree : Tree α) (t : Trigger α) (n : Node) : Prop :=
  t.Has tree.comparers n.clause ∧
    ∃ u ∈ n.visible, ∃ x, tree.trigger? u = some x ∧ t.relate tree.comparers x = .specializes

/-- **Nodes show again what they showed**, if those that the trigger makes room in were in
the order of arrival. -/
theorem Returned.mem_visible_iff (hcs : cs.Lawful) (hreached : Reached Plain cs opts tree)
    {after : Tree α} (h : tree.Returned cs t after) (hsharp : t.Sharp cs)
    (hroom : ∀ v n, tree.store.Reachable v → tree.store.bare v = some n → tree.Displaces t n →
      n.Chronological cs tree.triggers) {n : Node} (hv : tree.store.Reachable v)
    (hm : tree.store.bare v = some m) (hn : after.store.bare v = some n) (u : TriggerId) :
    u ∈ n.visible ↔ u ∈ m.visible := by
  have haccounted := hreached.nodesAccounted hcs v hv m hm
  obtain ⟨n', hn', hcases⟩ := h.nodes v m hv hm
  obtain rfl := Option.some.inj (hn.symm.trans hn')
  rcases hcases with rfl | ⟨hhas, hnew, rfl⟩
  · rfl
  · -- registering the trigger leaves the entries of what the node carries alone
    have hget : ∀ w ∈ m.carried, (tree.triggers.push t).get? w = tree.triggers.get? w :=
      fun w hw => get?_push_of_ne tree t (ne_of_mem_of_not_mem hw hnew)
    have hsharp' : (tree.triggers.push t).Sharp cs := by
      intro i x hx
      rw [Register.get?_push] at hx
      split at hx
      · rw [← Option.some.inj hx]
        exact hsharp
      · exact hreached.sharp hcs i x hx
    refine Node.mem_visible_without_join hcs hsharp' (haccounted.congr hget)
      (hreached.pairwise_carried hcs v hv m hm) hnew ?_ u
    rintro ⟨w, hw, hnarrow⟩
    have hdisplaces : tree.Displaces t m := by
      obtain ⟨x, hx, -⟩ := haccounted.has w (haccounted.carried w hw)
      unfold Register.relate at hnarrow
      rw [get?_push_nextId, hget w (haccounted.carried w hw), hx] at hnarrow
      rw [Displaces, (hreached.sound hcs).comparers]
      exact ⟨hhas, w, hw, x, hx, hnarrow⟩
    exact (hroom v m hv hm hdisplaces).congr haccounted.carried hget

/-- **Matching need not be restored**: a wide trigger that came before the narrower one it
was hidden behind is promoted first and stays, and of two equal triggers that gave way only
the first is promoted. -/
theorem matched_passing_ne :
    let m := Memory.ofList [("a", .bool true)]
    let ab : Expression := .or [.accessor "a", .accessor "b"]
    let wideFirst : Tree Nat :=
      .run .empty [] [.add (.or [.accessor "a", .accessor "b", .accessor "c"]) 1 [], .add ab 2 []]
    let twice : Tree Nat := .run .empty [] [.add ab 1 [], .add ab 2 []]
    ∀ tree ∈ [wideFirst, twice], Reached Plain .empty [] tree ∧
      tree.Plain (.add (.accessor "a") 3 []) ∧ tree.Fresh (.add (.accessor "a") 3 []) ∧
      (tree.passing (.accessor "a") 3 []).matched m ≠ tree.matched m := by
  intro m ab wideFirst twice
  have hactions : ∀ tree : Tree Nat, ((tree.passing (.accessor "a") 3 []).matched m).map
      Trigger.action ≠ (tree.matched m).map Trigger.action →
      (tree.passing (.accessor "a") 3 []).matched m ≠ tree.matched m :=
    fun _ hne heq => hne (congrArg (List.map Trigger.action) heq)
  refine List.forall_mem_cons.mpr ⟨⟨?_, by decide +kernel, by decide +kernel,
      hactions _ (by decide +kernel)⟩,
    List.forall_mem_singleton.mpr ⟨?_, by decide +kernel, by decide +kernel,
      hactions _ (by decide +kernel)⟩⟩
  · exact .change (.change .empty (.add _ 1 []) (by decide +kernel)) (.add _ 2 [])
      (by decide +kernel)
  · exact .change (.change .empty (.add _ 1 []) (by decide +kernel)) (.add _ 2 [])
      (by decide +kernel)

/-- **Taking an addition back** leaves for all that was matched something at most as wide,
and the other way round. It restores matching, if the nodes in which the trigger made room
were in the order of arrival. -/
theorem matched_passing (hcs : cs.Lawful) (h : Reached Plain cs opts tree)
    {expression : Expression} {action : α} {quantifiers : List Quantifier}
    (hplain : tree.Plain (.add expression action quantifiers)) (m : Memory) :
    let t := tree.incoming expression action quantifiers
    let after := tree.passing expression action quantifiers
    (∀ u ∈ tree.matched m, ∃ w ∈ after.matched m, w.Within cs u) ∧
      (∀ u ∈ after.matched m, ∃ w ∈ tree.matched m, w.Within cs u) ∧
      ((∀ v n, tree.store.Reachable v → tree.store.get? v = some n → tree.Displaces t n →
          n.Chronological cs tree.triggers) → after.matched m = tree.matched m) := by
  intro t after
  have hs := h.sound hcs
  have hreturned : tree.Returned cs t after := h.returned hcs expression action quantifiers
  have hafter : Reached Plain cs opts after :=
    (h.change (.add expression action quantifiers) hplain).change (.remove _) trivial
  have hshape := hreturned.sameShape
  have hsharp : t.Sharp tree.comparers := Trigger.Unconditional.sharp hplain
  rw [hs.comparers] at hsharp
  refine ⟨fun u => hshape.exists_matched hcs h hafter,
    fun u => (hshape.symm hs).exists_matched hcs hafter h, fun hroom => ?_⟩
  refine hshape.matched_eq hcs h hafter fun v n n' hv hn hn' id => ?_
  refine hreturned.mem_visible_iff hcs h hsharp (fun w k hw hk hdisplaces => ?_) hv hn hn' id
  obtain ⟨x, hx, rfl⟩ := Option.map_eq_some_iff.mp hk
  obtain ⟨hapart, hbehind⟩ := hroom w x hw hx hdisplaces
  exact ⟨hapart, hbehind⟩

/-- A trigger that came after the narrower one it is hidden behind stays hidden. -/
theorem matched_passing_hidden_later :
    let tree : Tree Nat := .run .empty [] [.add (.or [.accessor "a", .accessor "b"]) 1 [],
      .add (.or [.accessor "a", .accessor "b", .accessor "c"]) 2 []]
    let m := Memory.ofList [("a", .bool true)]
    (tree.passing (.accessor "a") 3 []).matched m = tree.matched m := by
  intro tree m
  have hreached : Reached Plain .empty [] tree :=
    .change (.change .empty (.add _ 1 []) (by decide +kernel)) (.add _ 2 []) (by decide +kernel)
  have hplain : tree.Plain (.add (.accessor "a") 3 []) := by decide +kernel
  have hnodes : ∀ v ∈ tree.store.preorder, ∀ n ∈ tree.store.get? v,
      (n.visible.Pairwise fun u w => tree.triggers.relate .empty u w = .incomparable) ∧
        ∀ u ∈ n.carried, u ∉ n.visible → ∃ w ∈ n.visible, w.index < u.index ∧
          (tree.triggers.relate .empty w u).isCovered = true := by
    decide +kernel
  refine (matched_passing Comparers.lawful_empty hreached hplain m).2.2 fun v n hv hn _ => ?_
  obtain ⟨hapart, hbehind⟩ := hnodes v ((Store.mem_preorder_iff _ v).mpr hv) n hn
  refine ⟨hapart, fun u hu hhidden => ?_⟩
  obtain ⟨w, hw, hlt, hle⟩ := hbehind u hu hhidden
  exact ⟨w, hw, hlt, (tree.triggers.within_of_relate w u).1 hle⟩

end Tree

end Specificity
