import Specificity.Proofs.Accounting

/-!
# Every clause is filed

If no trigger is added whose action is in the tree already, every active clause of
a trigger that fits below the root is *filed*: a reachable node has an equal clause
and carries the trigger. A trigger with the action of another one may be turned away
from a node that this one holds, and then go missing when it is removed.

A withdrawal never takes a filed clause away from another trigger: a node that
carries it has something to show for it, hence is not spliced out.

What a node hides is accounted for after any history, whatever the actions are.
-/

namespace Specificity

namespace Store

variable {α : Type} {cs : Comparers} {r : Register α} {trigger id : TriggerId}
  {c clause : Clause} {s t : Store} {placed found : Bool}

/-! ## Filed clauses -/

/-- **Is a clause filed for a trigger?** A reachable node must have an equal one and
carry the trigger. -/
def Files (cs : Comparers) (s : Store) (id : TriggerId) (c : Clause) : Prop :=
  ∃ v n, s.Reachable v ∧ s.bare v = some n ∧ n.clause.relate cs c = .equal ∧ id ∈ n.carried

/-- **A store that keeps its nodes**: each of them is still there, with its clause and
with all that it carried. -/
def Keeps (s t : Store) : Prop :=
  ∀ v, s.Reachable v → ∀ m, s.bare v = some m →
    t.Reachable v ∧ ∃ n, t.bare v = some n ∧ n.clause = m.clause ∧ m.carried ⊆ n.carried

theorem Files.keeps (h : s.Files cs id c) (hkeeps : s.Keeps t) : t.Files cs id c := by
  obtain ⟨v, m, hv, hm, hequal, hid⟩ := h
  obtain ⟨hv', n, hn, hclause, hsub⟩ := hkeeps v hv m hm
  exact ⟨v, n, hv', hn, by rw [hclause, hequal], hsub hid⟩

/-- Nodes that are kept are still reached. -/
theorem Keeps.reachable (hs : s.Sound cs) (h : s.Keeps t) {v : NodeId} (hv : s.Reachable v) :
    t.Reachable v := by
  obtain ⟨m, hm⟩ := Option.isSome_iff_exists.mp
    ((isSome_bare s v).trans (hs.diagram.stored v hv))
  exact (h v hv m hm).1

/-- Nodes that are kept relate as before. -/
theorem Keeps.relate (hs : s.Sound cs) (h : s.Keeps t) {u v : NodeId} (hu : s.Reachable u)
    (hv : s.Reachable v) : t.relate cs u v = s.relate cs u v := by
  have hclause : ∀ w, s.Reachable w → ∃ n n', s.get? w = some n ∧ t.get? w = some n' ∧
      n'.clause = n.clause := fun w hw => by
    obtain ⟨n, hn⟩ := Option.isSome_iff_exists.mp (hs.diagram.stored w hw)
    obtain ⟨-, n', hn', hclause, -⟩ := h w hw n.bare (bare_eq_some hn)
    obtain ⟨x, hx, rfl⟩ := Option.map_eq_some_iff.mp hn'
    exact ⟨n, x, hn, hx, hclause⟩
  obtain ⟨a, a', ha, ha', hclauseA⟩ := hclause u hu
  obtain ⟨b, b', hb, hb', hclauseB⟩ := hclause v hv
  rw [relate_eq ha hb, relate_eq ha' hb', hclauseA, hclauseB]

theorem Keeps.trans {u : Store} (hst : s.Keeps t) (htu : t.Keeps u) : s.Keeps u := by
  intro v hv m hm
  obtain ⟨hv', n, hn, hclause, hsub⟩ := hst v hv m hm
  obtain ⟨hv'', k, hk, hclause', hsub'⟩ := htu v hv' n hn
  exact ⟨hv'', k, hk, hclause'.trans hclause, List.Subset.trans hsub hsub'⟩

/-- **Where nodes come from over two changes**, if a change to a node that was changed is
one change, and to a new node none. -/
theorem Descends.trans {u : Store} {change : Node → Node → Prop} {new : Node → Prop}
    (hst : s.Descends t change new) (htu : t.Descends u change new)
    (hreach : ∀ v, s.Reachable v → t.Reachable v)
    (htrans : ∀ k m n, change k m → change m n → change k n)
    (hnew : ∀ m n, new m → change m n → new n) : s.Descends u change new := by
  intro v hv n hn
  rcases htu v hv n hn with ⟨hv', m, hm, hmn⟩ | ⟨hfresh, hn'⟩
  · rcases hst v hv' m hm with ⟨hv'', k, hk, hkm⟩ | ⟨hfresh, hm'⟩
    · exact .inl ⟨hv'', k, hk, htrans k m n hkm hmn⟩
    · exact .inr ⟨hfresh, hnew m n hm' hmn⟩
  · exact .inr ⟨mt (hreach v) hfresh, hn'⟩

/-- Sweeping keeps the nodes. -/
theorem Sound.keeps_sweep (hcs : cs.Lawful) (hs : s.Sound cs) : s.Keeps s.sweep := by
  obtain ⟨-, hreach, hget⟩ := hs.sweep hcs
  intro v hv m hm
  exact ⟨(hreach v).mpr hv, m, by rw [bare_of_get?_eq (hget v hv), hm], rfl, List.Subset.refl _⟩

section

variable [DecidableEq α]

/-- **An insertion keeps the nodes.** -/
theorem Inserted.keeps (hcs : cs.Lawful)
    (h : Inserted cs r trigger clause s {v | s.Reachable v} placed t) : s.Keeps t := by
  intro v hv m hm
  cases h with
  | @joined e n t he hn hequal hdiagram hmembers =>
    refine ⟨(hdiagram.mem_iff_reachable hcs v).mp hv, ?_⟩
    rw [bare_of_get?_eq (hmembers v hv)]
    rcases join_cases cs r trigger e s with hjoin | hjoin
    · rw [hjoin]
      exact ⟨m, hm, rfl, List.Subset.refl _⟩
    · rw [hjoin]
      by_cases hve : v = e
      · subst hve
        refine ⟨m.join (r.relate cs trigger) trigger, ?_, rfl, ?_⟩
        · rw [bare_update_self _ _ (Node.bare_join _ _), hm]
          rfl
        · show m.carried ⊆ m.carried ++ [trigger]
          exact fun w hw => List.mem_append_left _ hw
      · rw [bare_update_of_ne hve]
        exact ⟨m, hm, rfl, List.Subset.refl _⟩
  | @filed x t hfresh hunequal hdiagram hnew hold =>
    refine ⟨(hdiagram.mem_iff_reachable hcs v).mp (.inl hv), m, ?_, rfl, List.Subset.refl _⟩
    rw [hold v hv, hm]
  | @refused t hwide hdiagram hmembers =>
    refine ⟨(hdiagram.mem_iff_reachable hcs v).mp hv, m, ?_, rfl, List.Subset.refl _⟩
    rw [bare_of_get?_eq (hmembers v hv), hm]

/-- **A clause that finds a place is filed** by its insertion. -/
theorem Inserted.files_of_placed (hcs : cs.Lawful) {u : Trigger α}
    (hu : r.get? trigger = some u) (hplaced : placed = true)
    (h : Inserted cs r trigger clause s {v | s.Reachable v} placed t) :
    t.Files cs trigger clause := by
  cases h with
  | @joined e n t he hn hequal hdiagram hmembers =>
    have hbare := bare_of_get?_eq (hmembers e he)
    rcases join_eq cs hu hn with ⟨hjoin, -⟩ | ⟨hjoin, -⟩
    · rw [hjoin, decide_eq_true_eq] at hplaced
      exact Outcome.noConfusion hplaced
    · refine ⟨e, n.bare.join (r.relate cs trigger) trigger,
        (hdiagram.mem_iff_reachable hcs e).mp he, ?_, hequal, ?_⟩
      · rw [hbare, hjoin, bare_update_self _ _ (Node.bare_join _ _), bare, hn]
        rfl
      · exact List.mem_append_right _ (List.mem_singleton_self _)
  | @filed x t hnotmem hunequal hdiagram hnew hold =>
    exact ⟨x, _, (hdiagram.mem_iff_reachable hcs x).mp (.inr rfl), hnew,
      Clause.relate_self hcs clause, List.mem_singleton_self _⟩
  | refused _ _ _ => exact absurd hplaced Bool.false_ne_true

/-- **A clause that fits below the root is filed** by its insertion, unless another trigger
with the same action is there. -/
theorem Inserted.files (hcs : cs.Lawful) {u : Trigger α} (hu : r.get? trigger = some u)
    (hfits : clause.Fits)
    (hfresh : ∀ w x, w ≠ trigger → r.get? w = some x → x.action ≠ u.action)
    (h : Inserted cs r trigger clause s {v | s.Reachable v} placed t) :
    t.Files cs trigger clause := by
  by_cases hplaced : placed = true
  · exact h.files_of_placed hcs hu hplaced
  · cases h with
    | @joined e n t he hn hequal hdiagram hmembers =>
      rcases join_eq cs hu hn with ⟨hjoin, w, hw, x, hx, haction⟩ | ⟨hjoin, -⟩
      · -- only the trigger itself can be there with this action
        by_cases hwt : w = trigger
        · subst hwt
          refine ⟨e, n.bare, (hdiagram.mem_iff_reachable hcs e).mp he, ?_, hequal, hw⟩
          rw [bare_of_get?_eq (hmembers e he), hjoin, bare, hn]
          rfl
        · exact absurd haction (hfresh w x hwt hx)
      · rw [hjoin] at hplaced
        exact absurd (decide_eq_true rfl) hplaced
    | filed _ _ _ _ _ => exact absurd rfl hplaced
    | refused hwide _ _ =>
      rw [Clause.fits_iff cs, hwide] at hfits
      exact absurd hfits Bool.false_ne_true

/-- **A trigger that is turned away** is not carried after an insertion if it was not
before. -/
theorem Inserted.quiet (hcs : cs.Lawful) {u : Trigger α} (hu : r.get? trigger = some u)
    (hturned : placed = false)
    (hquiet : ∀ v, s.Reachable v → ∀ n, s.bare v = some n → trigger ∉ n.carried)
    (h : Inserted cs r trigger clause s {v | s.Reachable v} placed t) :
    ∀ v, t.Reachable v → ∀ n, t.bare v = some n → trigger ∉ n.carried := by
  intro v hv n hn
  cases h with
  | @joined e m t he hm hequal hdiagram hmembers =>
    have hmem := (hdiagram.mem_iff_reachable hcs v).mpr hv
    rw [bare_of_get?_eq (hmembers v hmem)] at hn
    rcases join_eq cs hu hm with ⟨hjoin, -⟩ | ⟨hjoin, -⟩
    · rw [hjoin] at hn
      exact hquiet v hmem n hn
    · rw [hjoin, decide_eq_false_iff_not] at hturned
      exact absurd rfl hturned
  | filed _ _ _ _ _ => exact absurd hturned.symm Bool.false_ne_true
  | refused _ hdiagram hmembers =>
    have hmem := (hdiagram.mem_iff_reachable hcs v).mpr hv
    rw [bare_of_get?_eq (hmembers v hmem)] at hn
    exact hquiet v hmem n hn

end

/-- **A withdrawal keeps what is filed for other triggers.** -/
theorem Files.withdraw (hcs : cs.Lawful) (h : s.Files cs id c)
    (haccounted : ∀ v, s.Reachable v → ∀ n, s.bare v = some n → n.Accounted cs r)
    (hne : id ≠ trigger) (hwithdrawn : Withdrawn cs r trigger s {v | s.Reachable v} found t) :
    t.Files cs id c := by
  obtain ⟨v, n, hv, hn, hequal, hid⟩ := h
  have hid' : id ∈ (n.without (r.relate cs) trigger).carried :=
    (Node.mem_carried_without _ _ _ _).mpr ⟨hid, hne⟩
  obtain ⟨w, hw, -⟩ := ((haccounted v hv n hn).without hcs trigger).shown id hid'
  have hsilenced : ¬ s.silenced cs r trigger v = true := by
    rw [silenced, hn, Option.any_some, List.isEmpty_iff]
    exact List.ne_nil_of_mem hw
  refine ⟨v, n.without (r.relate cs) trigger,
    (hwithdrawn.diagram.mem_iff_reachable hcs v).mp ⟨hv, .inr hsilenced⟩, ?_, ?_, hid'⟩
  · show t.bare v = _
    rw [hwithdrawn.bare v hv, hn]
    rfl
  · show (n.without (r.relate cs) trigger).clause.relate cs c = .equal
    rw [Node.clause_without, hequal]

end Store

namespace Node

variable {judge : TriggerId → Relationship} {id : TriggerId} {k m n : Node} {c : Clause}

/-- **Gaining a trigger**: the node stays as it is, or the trigger joins it for the first
time. -/
def Gains (judge : TriggerId → Relationship) (id : TriggerId) (m n : Node) : Prop :=
  n = m ∨ id ∉ m.carried ∧ n = m.join judge id

/-- What joined a node does not join it again. -/
theorem Gains.eq_of_mem (h : m.Gains judge id n) (hid : id ∈ m.carried) : n = m :=
  h.resolve_right fun hjoin => hjoin.1 hid

theorem Gains.trans (hkm : k.Gains judge id m) (hmn : m.Gains judge id n) :
    k.Gains judge id n := by
  rcases hkm with rfl | ⟨hnot, rfl⟩
  · exact hmn
  · have hid : id ∈ (k.join judge id).carried :=
      List.mem_append_right _ (List.mem_singleton_self _)
    exact .inr ⟨hnot, hmn.eq_of_mem hid⟩

end Node

namespace Tree

variable {α : Type} {cs : Comparers} {opts : List Optimizer} {tree : Tree α}

/-! ## What nodes account for -/

/-- **Do all nodes account** for what they hide? -/
def NodesAccounted (cs : Comparers) (tree : Tree α) : Prop :=
  AllNodes (Node.Accounted cs tree.triggers) tree.store

/-- The tree without triggers has nothing to account for. -/
theorem nodesAccounted_empty : (Tree.empty cs opts : Tree α).NodesAccounted cs := by
  intro v _ n hn
  obtain ⟨m, hm, rfl⟩ := Option.map_eq_some_iff.mp hn
  rw [(Store.get?_initial hm).2]
  exact Node.accounted_ofClause cs _ _

/-- **After a removal** all nodes still account for what they hide. -/
theorem NodesAccounted.remove (hcs : cs.Lawful) (hs : tree.Sound cs opts)
    (h : tree.NodesAccounted cs) (id : TriggerId) : (tree.remove id).2.NodesAccounted cs := by
  unfold NodesAccounted at *
  rcases tree.remove_cases id with ⟨-, heq⟩ | ⟨-, -, -, hstore, htriggers⟩
  · rw [heq]
    exact h
  · obtain ⟨hwithdrawn, hspec⟩ := hs.store.withdraw hcs tree.triggers id
    rw [hs.comparers] at hstore
    rw [hstore, htriggers]
    refine AllNodes.sweep hcs hwithdrawn fun v hv n hn => ?_
    obtain ⟨hv, m, hm, rfl, -⟩ := (hspec.descends hcs v hv n hn).resolve_right And.right
    refine ((h v hv m hm).without hcs id).congr fun u hu => ?_
    rw [Register.get?_erase, if_neg ((Node.mem_carried_without _ _ _ _).mp hu).2]

/-- The handle of the next trigger is not in use. -/
theorem NodesAccounted.nextId_notMem (h : tree.NodesAccounted cs) :
    AllNodes (fun n => tree.triggers.nextId ∉ n.carried) tree.store := by
  intro v hv n hn hmem
  obtain ⟨t, ht, -⟩ := (h v hv n hn).has _ hmem
  rw [Register.get?_nextId] at ht
  exact Option.some_ne_none t ht.symm

/-- Registering a trigger changes no other entry. -/
theorem get?_push_of_ne (tree : Tree α) (t : Trigger α) {id : TriggerId}
    (hne : id ≠ tree.triggers.nextId) :
    (tree.triggers.push t).get? id = tree.triggers.get? id := by
  rw [Register.get?_push, if_neg hne]

/-- Registering a trigger and striking it off again changes no entry. -/
theorem get?_erase_push (tree : Tree α) (t : Trigger α) (id : TriggerId) :
    ((tree.triggers.push t).erase tree.triggers.nextId).get? id = tree.triggers.get? id := by
  rw [Register.get?_erase]
  split
  · next heq => rw [heq, Register.get?_nextId]
  · next hne => exact get?_push_of_ne tree t hne

/-- No other trigger has the action of a fresh one. -/
theorem Fresh.action_ne {expression : Expression} {action : α} {quantifiers : List Quantifier}
    (h : tree.Fresh (.add expression action quantifiers)) (t : Trigger α) {id : TriggerId}
    {u : Trigger α} (hne : id ≠ tree.triggers.nextId)
    (hu : (tree.triggers.push t).get? id = some u) : u.action ≠ action := by
  rw [get?_push_of_ne tree t hne] at hu
  exact h u ((Register.mem_live_iff _ _).mpr ⟨id, hu⟩)

variable [DecidableEq α]

/-! ## Filing a trigger -/

/-- **An insertion keeps the account**, if the trigger has the clause. -/
theorem allNodes_accounted_of_inserted (hcs : cs.Lawful) {r : Register α} {id : TriggerId}
    {t : Trigger α} {c : Clause} {placed : Bool} {s s' : Store} (hget : r.get? id = some t)
    (hhas : t.Has cs c) (hinserted : Store.Inserted cs r id c s {v | s.Reachable v} placed s')
    (h : AllNodes (Node.Accounted cs r) s) : AllNodes (Node.Accounted cs r) s' := by
  intro v hv n hn
  have hregistered : (r.get? id).isSome = true := by
    rw [hget]
    rfl
  rcases hinserted.descends hcs hregistered v hv n hn with
    ⟨hv, m, hm, rfl | ⟨hequal, -, rfl⟩⟩ | ⟨-, rfl⟩
  · exact h v hv n hm
  · exact (h v hv m hm).join hcs hget
      (hhas.of_equal hcs ((Clause.orderly_relate hcs).equal_symm hequal))
  · exact Node.accounted_ofTrigger hcs hget hhas

/-- **The store that an incoming trigger** `t` **was filed in**, before it is swept. -/
structure Filed (cs : Comparers) (tree : Tree α) (t : Trigger α) : Prop where
  /-- The store is in order. -/
  sound : (tree.filing t).2.Sound cs
  /-- Nodes account for what they hide. -/
  nodes : AllNodes (Node.Accounted cs (tree.triggers.push t)) (tree.filing t).2
  /-- The nodes that were there still are. -/
  keeps : tree.store.Keeps (tree.filing t).2
  /-- Each of them gained the trigger at most, and the new ones have no other. -/
  descends : tree.store.Descends (tree.filing t).2
    (Node.Gains ((tree.triggers.push t).relate cs tree.triggers.nextId) tree.triggers.nextId)
    fun n => ∃ c ∈ t.active, n = .ofTrigger c.core tree.triggers.nextId
  /-- If one of the clauses found a place, the trigger has a clause that is filed. -/
  placed : true ∈ (tree.filing t).1 → ∃ c, (tree.filing t).2.Files cs tree.triggers.nextId c
  /-- If none of the clauses found a place, no node carries the trigger. -/
  quiet : true ∉ (tree.filing t).1 →
    AllNodes (fun n => tree.triggers.nextId ∉ n.carried) (tree.filing t).2

theorem filing_eq (hs : tree.Sound cs opts) (t : Trigger α) :
    tree.filing t = tree.store.insertAll cs (tree.triggers.push t) tree.triggers.nextId
      (t.active.map Clause.core) := by
  rw [filing, hs.comparers]

/-- **Filing a trigger**, whatever its action is. -/
theorem NodesAccounted.filing (hcs : cs.Lawful) (hs : tree.Sound cs opts)
    (h : tree.NodesAccounted cs) (t : Trigger α) : tree.Filed cs t := by
  have hself := get?_push_nextId tree t
  have hregistered := isSome_get?_push_nextId tree t
  have hactive : ∀ c ∈ t.active.map Clause.core, t.Has cs c := by
    intro c hc
    obtain ⟨d, hd, rfl⟩ := List.mem_map.mp hc
    exact ⟨d, hd, Clause.relate_self hcs d⟩
  -- the nodes that were there do not know the trigger, so registering it changes nothing
  have hnodes : AllNodes (Node.Accounted cs (tree.triggers.push t)) tree.store := by
    refine fun v hv n hn => (h v hv n hn).congr fun u hu => get?_push_of_ne tree t ?_
    rintro rfl
    exact h.nextId_notMem v hv n hn hu
  obtain ⟨hsound, ⟨haccounted, hkeeps, hdescends⟩, -⟩ := hs.store.insertAll hcs hregistered
    (t.active.map Clause.core)
    (fun s => AllNodes (Node.Accounted cs (tree.triggers.push t)) s ∧ tree.store.Keeps s ∧
      tree.store.Descends s
        (Node.Gains ((tree.triggers.push t).relate cs tree.triggers.nextId) tree.triggers.nextId)
        fun n => ∃ c ∈ t.active, n = .ofTrigger c.core tree.triggers.nextId)
    (fun _ _ => True)
    (fun c hc placed a b hsound ha _ hinserted => by
      obtain ⟨haccounted, hkeeps, hdescends⟩ := ha
      have hstep : a.Descends b
          (Node.Gains ((tree.triggers.push t).relate cs tree.triggers.nextId)
            tree.triggers.nextId)
          fun n => ∃ c ∈ t.active, n = .ofTrigger c.core tree.triggers.nextId := by
        intro v hv n hn
        rcases hinserted.descends hcs hregistered v hv n hn with
          ⟨hv, m, hm, rfl | ⟨-, hjoin⟩⟩ | ⟨hfresh, hnew⟩
        · exact .inl ⟨hv, n, hm, .inl rfl⟩
        · exact .inl ⟨hv, m, hm, .inr hjoin⟩
        · obtain ⟨d, hd, rfl⟩ := List.mem_map.mp hc
          exact .inr ⟨hfresh, d, hd, hnew⟩
      refine ⟨⟨allNodes_accounted_of_inserted hcs hself (hactive c hc) hinserted haccounted,
        hkeeps.trans (hinserted.keeps hcs), hdescends.trans hstep
          (fun v => hkeeps.reachable hs.store) (fun _ _ _ => Node.Gains.trans) ?_⟩,
        trivial, fun _ _ => trivial⟩
      -- a new node carries the trigger already
      rintro m n ⟨d, hd, rfl⟩ hgains
      exact ⟨d, hd, hgains.eq_of_mem (List.mem_singleton_self _)⟩)
    ⟨hnodes, fun v hv m hm => ⟨hv, m, hm, rfl, List.Subset.refl _⟩,
      fun v hv n hn => .inl ⟨hv, n, hn, .inl rfl⟩⟩
  have heq := filing_eq hs t
  exact {
    sound := heq ▸ hsound
    nodes := heq ▸ haccounted
    keeps := heq ▸ hkeeps
    descends := heq ▸ hdescends
    placed := fun hyes => by
      rw [heq] at hyes ⊢
      refine visitAll_achieves _ _ _ (fun s => s.Sound cs)
        (fun s => ∃ c, s.Files cs tree.triggers.nextId c) (fun c hc a ha => ?_) hs.store
        (.inr hyes)
      obtain ⟨hb, hinserted⟩ := ha.insert hcs hregistered c
      exact ⟨hb, fun hplaced => ⟨c, hinserted.files_of_placed hcs hself hplaced⟩,
        fun ⟨d, hd⟩ => ⟨d, hd.keeps (hinserted.keeps hcs)⟩⟩
    quiet := fun hno => by
      rw [heq] at hno ⊢
      refine visitAll_quiet _ _ _ (fun s => s.Sound cs) _ (fun c hc a ha => ?_) hs.store
        h.nextId_notMem hno
      obtain ⟨hb, hinserted⟩ := ha.insert hcs hregistered c
      exact ⟨hb, fun hturned hquiet => hinserted.quiet hcs hself hturned hquiet⟩ }

/-- **A trigger whose action is not in the tree** is filed under all its clauses that fit
below the root. -/
theorem Fresh.files (hcs : cs.Lawful) (hs : tree.Sound cs opts) {expression : Expression}
    {action : α} {quantifiers : List Quantifier}
    (hfresh : tree.Fresh (.add expression action quantifiers)) :
    ∀ c ∈ (tree.incoming expression action quantifiers).active, c.Fits →
      (tree.filing (tree.incoming expression action quantifiers)).2.Files cs
        tree.triggers.nextId c := by
  set t := tree.incoming expression action quantifiers with ht
  have haction : ∀ w x, w ≠ tree.triggers.nextId →
      (tree.triggers.push t).get? w = some x → x.action ≠ t.action := fun w x hw hx => by
    rw [ht]
    exact hfresh.action_ne _ hw (ht ▸ hx)
  obtain ⟨-, -, hfiled⟩ := hs.store.insertAll hcs (isSome_get?_push_nextId tree t)
    (t.active.map Clause.core) (fun _ => True)
    (fun c s => c.Fits → s.Files cs tree.triggers.nextId c)
    (fun c _ placed a b _ _ _ hinserted =>
      ⟨trivial, fun hfits => hinserted.files hcs (get?_push_nextId tree t) hfits haction,
        fun d hd hfits => (hd hfits).keeps (hinserted.keeps hcs)⟩)
    trivial
  rw [← filing_eq hs t] at hfiled
  exact fun c hc hfits => hfiled c.core (List.mem_map_of_mem hc) hfits

/-- **After an addition** all nodes still account for what they hide. -/
theorem NodesAccounted.add (hcs : cs.Lawful) (hs : tree.Sound cs opts)
    (h : tree.NodesAccounted cs) (expression : Expression) (action : α)
    (quantifiers : List Quantifier) :
    (tree.add expression action quantifiers).2.NodesAccounted cs := by
  obtain ⟨-, -, hstore, htriggers⟩ := tree.add_cases expression action quantifiers
  set t := tree.incoming expression action quantifiers
  have hfiled := h.filing hcs hs t
  unfold NodesAccounted
  rw [hstore, htriggers]
  refine AllNodes.sweep hcs hfiled.sound ?_
  split
  · exact hfiled.nodes
  · -- the trigger is struck off again
    next hplaced =>
    refine fun v hv n hn => (hfiled.nodes v hv n hn).congr fun w hw => ?_
    rw [Register.get?_erase, if_neg]
    rintro rfl
    exact hfiled.quiet (mt List.contains_iff_mem.mpr hplaced) v hv n hn hw

/-- **In every reached tree** all nodes account for what they hide. -/
theorem Reached.nodesAccounted {ok : Tree α → Change α → Prop} (hcs : cs.Lawful)
    (h : Reached ok cs opts tree) : tree.NodesAccounted cs := by
  induction h with
  | empty => exact nodesAccounted_empty
  | change h c _ ih =>
    cases c with
    | add expression action quantifiers =>
      exact ih.add hcs (h.sound hcs) expression action quantifiers
    | remove id => exact ih.remove hcs (h.sound hcs) id

/-! ## Histories of fresh actions -/

/-- **A tree that accounts for its triggers**: every node does for what it hides, and
every active clause that fits below the root is filed. -/
structure Accounted (cs : Comparers) (tree : Tree α) : Prop where
  /-- Nodes account for what they hide. -/
  nodes : tree.NodesAccounted cs
  /-- Clauses are filed. -/
  filed : ∀ id t, tree.trigger? id = some t → ∀ c ∈ t.active, c.Fits →
    tree.store.Files cs id c

omit [DecidableEq α] in
/-- **Removing a trigger keeps the account.** -/
theorem Accounted.remove (hcs : cs.Lawful) (hs : tree.Sound cs opts) (h : tree.Accounted cs)
    (id : TriggerId) : (tree.remove id).2.Accounted cs := by
  refine ⟨h.nodes.remove hcs hs id, fun i t ht c hc hfits => ?_⟩
  obtain ⟨ht, hne⟩ := trigger?_remove ht
  rcases tree.remove_cases id with ⟨-, heq⟩ | ⟨-, -, -, hstore, -⟩
  · rw [heq]
    exact h.filed i t ht c hc hfits
  · obtain ⟨hwithdrawn, hspec⟩ := hs.store.withdraw hcs tree.triggers id
    rw [hstore, hs.comparers]
    exact ((h.filed i t ht c hc hfits).withdraw hcs h.nodes hne hspec).keeps
      (hwithdrawn.keeps_sweep hcs)

/-- **Adding a trigger keeps the account**, if its action is not in the tree. -/
theorem Accounted.add (hcs : cs.Lawful) (hs : tree.Sound cs opts) (h : tree.Accounted cs)
    {expression : Expression} {action : α} {quantifiers : List Quantifier}
    (hfresh : tree.Fresh (.add expression action quantifiers)) :
    (tree.add expression action quantifiers).2.Accounted cs := by
  refine ⟨h.nodes.add hcs hs expression action quantifiers, ?_⟩
  obtain ⟨-, -, hstore, -⟩ := tree.add_cases expression action quantifiers
  have hfiles := hfresh.files hcs hs
  set t := tree.incoming expression action quantifiers
  have hfiled := h.nodes.filing hcs hs t
  intro i u hu c hc hfits
  have hfilesIt : (tree.filing t).2.Files cs i c := by
    rcases trigger?_add hu with ⟨rfl, rfl⟩ | hu
    · exact hfiles c hc hfits
    · exact (h.filed i u hu c hc hfits).keeps hfiled.keeps
  rw [hstore]
  exact hfilesIt.keeps (hfiled.sound.keeps_sweep hcs)

/-- **Every reached tree accounts for its triggers**, if no action was added that was
there. -/
theorem Reached.accounted (hcs : cs.Lawful) (h : Reached Fresh cs opts tree) :
    tree.Accounted cs := by
  induction h with
  | empty => exact ⟨nodesAccounted_empty, fun id t ht => (Option.some_ne_none t ht.symm).elim⟩
  | @change tree h c hfresh ih =>
    have hs := h.sound hcs
    cases c with
    | add expression action quantifiers => exact ih.add hcs hs hfresh
    | remove id => exact ih.remove hcs hs id

omit [DecidableEq α] in
/-- **Whatever has a clause** is carried by the node that stands for it. -/
theorem Accounted.mem_carried (hcs : cs.Lawful) (hs : tree.Sound cs opts) (h : tree.Accounted cs)
    {v : NodeId} {n : Node} (hv : tree.store.Reachable v) (hn : tree.store.bare v = some n)
    {c : Clause} (hequal : n.clause.relate cs c = .equal) (hfits : c.Fits) {id : TriggerId}
    {t : Trigger α} (ht : tree.trigger? id = some t) (hhas : t.Has cs c) : id ∈ n.carried := by
  have hord := Clause.orderly_relate hcs
  obtain ⟨d, hd, hdc⟩ := hhas
  have hdfits := hfits.of_isCovered hcs (Relationship.isCovered_of_equal hdc)
  obtain ⟨w, p, hw, hp, hpd, hid⟩ := h.filed id t ht d hd hdfits
  -- both nodes stand for `c`, and no two nodes have equal clauses
  have hsame : w = v := by
    obtain ⟨x, hx, rfl⟩ := Option.map_eq_some_iff.mp hn
    obtain ⟨y, hy, rfl⟩ := Option.map_eq_some_iff.mp hp
    refine hs.store.diagram.distinct w hw v hv ?_
    rw [Store.relate_eq hy hx]
    show y.bare.clause.relate cs x.bare.clause = .equal
    rw [hord.eq_of_equal hpd, hord.eq_of_equal hdc]
    exact hord.equal_symm hequal
  subst hsame
  obtain rfl := Option.some.inj (hn.symm.trans hp)
  exact hid

end Tree

end Specificity
