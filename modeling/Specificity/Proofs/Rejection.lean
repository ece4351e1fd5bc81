import Specificity.Proofs.Bookkeeping

/-!
# Additions that are turned away

A trigger is turned away if none of its active clauses finds a place: there is none, or each
of them has a node already that carries its action, or does not fit below the root. This shows
only at the end of a descent. By then the incoming node was stored, and the narrower members
that were met have been placed below it. Yet nothing was taken from a member. A place is
made for the incoming node below the lowest wider members and nowhere else, and there is no
such member where an equal one is there or the root is narrower. No way leads from the root
to the incoming node, so the sweep removes it and its children stay where they are.

What an addition of this kind leaves is the tree it found, as far as anything can be looked up
in it (`Tree.Unchanged`). Only spare slots and spent handles tell of it.
-/

namespace Specificity

namespace Store

variable {α : Type} {cs : Comparers} {r : Register α} {trigger : TriggerId} {clause : Clause}
  {s t u : Store} {placed : Bool}

/-! ## Stores that agree -/

/-- **Stores agree** if the same nodes are reached, and stored as they were. -/
structure Agrees (s t : Store) : Prop where
  /-- The same nodes are reached. -/
  reachable : ∀ v, t.Reachable v ↔ s.Reachable v
  /-- They are stored as they were. -/
  get? : ∀ v, s.Reachable v → t.get? v = s.get? v

theorem Agrees.refl (s : Store) : s.Agrees s := ⟨fun _ => Iff.rfl, fun _ _ => rfl⟩

theorem Agrees.trans (hst : s.Agrees t) (htu : t.Agrees u) : s.Agrees u where
  reachable v := (htu.reachable v).trans (hst.reachable v)
  get? v hv := (htu.get? v ((hst.reachable v).mpr hv)).trans (hst.get? v hv)

/-- A store with the same members agrees if they form a diagram there too. -/
theorem Diagram.agrees (hcs : cs.Lawful) (h : t.Diagram cs {v | s.Reachable v})
    (hget : ∀ v, s.Reachable v → t.get? v = s.get? v) : s.Agrees t :=
  ⟨fun v => (h.mem_iff_reachable hcs v).symm, hget⟩

/-- A store agrees with what a sweep leaves of it. -/
theorem Sound.agrees_sweep (hcs : cs.Lawful) (hs : s.Sound cs) : s.Agrees s.sweep :=
  ⟨(hs.sweep hcs).2.1, (hs.sweep hcs).2.2⟩

/-! ## Clauses that find no place -/

/-- **A clause is taken** for an action if a node that is reached has an equal one and carries
a trigger with that action. -/
def Taken (cs : Comparers) (r : Register α) (s : Store) (action : α) (c : Clause) : Prop :=
  ∃ v n, s.Reachable v ∧ s.get? v = some n ∧ n.clause.relate cs c = .equal ∧
    ∃ w ∈ n.carried, ∃ x, r.get? w = some x ∧ x.action = action

theorem Agrees.taken_iff (h : s.Agrees t) (cs : Comparers) (r : Register α) (action : α)
    (c : Clause) : Taken cs r t action c ↔ Taken cs r s action c := by
  refine exists_congr fun v => exists_congr fun n => ?_
  rw [h.reachable]
  exact and_congr_right fun hv => by rw [h.get? v hv]

variable [DecidableEq α]

/-- **A clause finds a place** exactly if it fits below the root and is not taken. Otherwise
the store agrees with the one before. -/
theorem Inserted.placed_iff (hcs : cs.Lawful) (hs : s.Sound cs) (ht : t.Sound cs)
    {x : Trigger α} (hx : r.get? trigger = some x)
    (h : Inserted cs r trigger clause s {v | s.Reachable v} placed t) :
    (placed = true ↔ clause.Fits ∧ ¬ Taken cs r s x.action clause) ∧
      (¬ placed = true → s.Agrees t) := by
  cases h with
  | @joined e n t he hn hequal hdiagram hmembers =>
    rw [decide_eq_true_iff]
    rcases join_eq cs hx hn with ⟨hjoin, w, hw, y, hy, haction⟩ | ⟨hjoin, hnone⟩
    · rw [hjoin] at hmembers ⊢
      refine ⟨⟨fun hplaced => Outcome.noConfusion hplaced, fun hfree => ?_⟩,
        fun _ => hdiagram.agrees hcs hmembers⟩
      exact absurd ⟨e, n, he, hn, hequal, w, hw, y, hy, haction⟩ hfree.2
    · rw [hjoin]
      have hle : (clause.relate cs n.clause).isCovered = true :=
        Relationship.isCovered_of_equal ((Clause.orderly_relate hcs).equal_symm hequal)
      refine ⟨⟨fun _ => ⟨(hs.fits hcs he hn).of_isCovered hcs hle, ?_⟩, fun _ => rfl⟩,
        fun hnot => absurd rfl hnot⟩
      rintro ⟨v, m, hv, hm, hequal', w, hw, y, hy, haction⟩
      obtain rfl := hs.eq_of_equal hcs hv he hm hn hequal' hequal
      obtain rfl := Option.some.inj (hm.symm.trans hn)
      exact hnone w hw y hy haction
  | @filed v t hfresh hunequal hdiagram hnew hold =>
    refine ⟨⟨fun _ => ⟨?_, ?_⟩, fun _ => rfl⟩, fun hnot => absurd rfl hnot⟩
    · obtain ⟨n, hn, hbare⟩ := Option.map_eq_some_iff.mp hnew
      have hv : t.Reachable v := (hdiagram.mem_iff_reachable hcs v).mp (.inr rfl)
      have hclause : n.clause = clause := congrArg Node.clause hbare
      exact hclause ▸ ht.fits hcs hv hn
    · rintro ⟨w, m, hw, hm, hequal, -⟩
      exact hunequal w hw m hm hequal
  | refused hwide hdiagram hmembers =>
    refine ⟨⟨fun hplaced => absurd hplaced Bool.false_ne_true, fun hfree => ?_⟩,
      fun _ => hdiagram.agrees hcs hmembers⟩
    have hle := (Clause.fits_iff cs clause).mp hfree.1
    rw [hwide] at hle
    exact absurd hle (by decide)

/-- **Of several clauses one finds a place** exactly if one fits below the root and is not
taken. Otherwise the store agrees with the one before. The induction is on the clauses: up to
the first one that finds a place nothing changes, so each is judged by the store as it was. -/
theorem Sound.insertAll_placed_iff (hcs : cs.Lawful) (hs : s.Sound cs) {x : Trigger α}
    (hx : r.get? trigger = some x) (clauses : List Clause) :
    ((s.insertAll cs r trigger clauses).1.contains true = true ↔
        ∃ c ∈ clauses, c.Fits ∧ ¬ s.Taken cs r x.action c) ∧
      (¬ (s.insertAll cs r trigger clauses).1.contains true = true →
        s.Agrees (s.insertAll cs r trigger clauses).2) := by
  rw [List.contains_iff_mem]
  induction clauses generalizing s with
  | nil =>
    exact ⟨⟨fun hmem => absurd hmem List.not_mem_nil,
      fun ⟨c, hc, _⟩ => absurd hc List.not_mem_nil⟩, fun _ => .refl s⟩
  | cons c clauses ih =>
    obtain ⟨hsound, hinserted⟩ := hs.insert hcs (Option.isSome_of_eq_some hx) c
    obtain ⟨hplaced, hagrees⟩ := hinserted.placed_iff hcs hs hsound hx
    rw [insertAll_cons, List.mem_cons, List.exists_mem_cons_iff, eq_comm, hplaced]
    by_cases hfree : c.Fits ∧ ¬ s.Taken cs r x.action c
    · exact ⟨⟨fun _ => .inl hfree, fun _ => .inl hfree⟩, fun hnot => absurd (.inl hfree) hnot⟩
    · obtain ⟨hiff, hlast⟩ := ih hsound
      have hsame := hagrees (mt hplaced.mp hfree)
      simp only [hsame.taken_iff] at hiff
      exact ⟨or_congr_right hiff, fun hnot => hsame.trans (hlast fun hmem => hnot (.inr hmem))⟩

/-- **Stores that agree are the same to look up**, if their slots hold nothing but the nodes
that are reached. -/
theorem Agrees.get?_eq (h : s.Agrees t) (hs : ∀ v, (s.get? v).isSome = true ↔ s.Reachable v)
    (ht : ∀ v, (t.get? v).isSome = true ↔ t.Reachable v) (v : NodeId) : t.get? v = s.get? v := by
  by_cases hv : s.Reachable v
  · exact h.get? v hv
  · have hnone : s.get? v = none := Option.not_isSome_iff_eq_none.mp (mt (hs v).mp hv)
    have hnone' : t.get? v = none :=
      Option.not_isSome_iff_eq_none.mp (mt (ht v).mp (mt (h.reachable v).mp hv))
    rw [hnone, hnone']

end Store

namespace Tree

variable {α : Type} [DecidableEq α] {ok : Tree α → Change α → Prop} {cs : Comparers}
  {opts : List Optimizer} {tree : Tree α} {expression : Expression} {action : α}
  {quantifiers : List Quantifier}

/-! ## Triggers that find no place -/

/-- **A trigger finds a place** exactly if an active clause of it fits below the root and is
not taken for its action. Otherwise the store agrees with the one before. -/
theorem Reached.contains_filing_iff (hcs : cs.Lawful) (h : Reached ok cs opts tree)
    (t : Trigger α) :
    ((tree.filing t).1.contains true = true ↔
        ∃ c ∈ t.active, c.Fits ∧ ¬ tree.store.Taken cs tree.triggers t.action c) ∧
      (¬ (tree.filing t).1.contains true = true → tree.store.Agrees (tree.filing t).2) := by
  have hsound := h.sound hcs
  have htaken : ∀ c : Clause, tree.store.Taken cs (tree.triggers.push t) t.action c.core ↔
      tree.store.Taken cs tree.triggers t.action c := fun c => by
    refine exists_congr fun v => exists_congr fun n => and_congr_right fun hv =>
      and_congr_right fun hn => and_congr_right fun _ => exists_congr fun w =>
      and_congr_right fun hw => ?_
    rw [get?_push_of_ne]
    rintro rfl
    exact (h.nodesAccounted hcs).nextId_notMem v hv n.bare (Store.bare_eq_some hn) hw
  have hall := hsound.store.insertAll_placed_iff hcs (get?_push_nextId tree t)
    (t.active.map Clause.core)
  simp only [List.mem_map, exists_exists_and_eq_and, htaken] at hall
  rw [filing, hsound.comparers]
  exact hall

/-- An addition is turned away if no clause of its trigger found a place. -/
theorem rejected_iff_filing :
    (tree.add expression action quantifiers).2.trigger?
        (tree.add expression action quantifiers).1 = none ↔
      ¬ (tree.filing (tree.incoming expression action quantifiers)).1.contains true = true := by
  rw [fst_add, trigger?_nextId_add, ite_eq_right_iff]
  exact ⟨fun hnone hfound => Option.some_ne_none _ (hnone hfound),
    fun hnone hfound => absurd hfound hnone⟩

/-- **An addition that is turned away** leaves a store that agrees with the one before. -/
theorem Reached.agrees_add (hcs : cs.Lawful) (h : Reached ok cs opts tree)
    (hrejected : ¬ (tree.filing (tree.incoming expression action quantifiers)).1.contains true =
      true) :
    tree.store.Agrees (tree.add expression action quantifiers).2.store := by
  obtain ⟨-, -, hstore, -⟩ := tree.add_cases expression action quantifiers
  set t := tree.incoming expression action quantifiers
  have hfiled := ((h.nodesAccounted hcs).filing hcs (h.sound hcs) t).sound
  rw [hstore]
  exact ((h.contains_filing_iff hcs t).2 hrejected).trans (hfiled.agrees_sweep hcs)

/-! ## Trees that were left alone -/

/-- **A tree that a call left unchanged**, as far as it can be looked up: the same nodes are
reached, in the same order, with the same clauses, triggers and children, and handles stand
for the same triggers. -/
structure Unchanged (before after : Tree α) : Prop where
  /-- The registry is the same. -/
  comparers : after.comparers = before.comparers
  /-- The optimizers are the same. -/
  optimizers : after.optimizers = before.optimizers
  /-- The same nodes are reached. -/
  reachable : ∀ v, after.store.Reachable v ↔ before.store.Reachable v
  /-- Every slot holds the node it held, with its clause, the triggers it shows and carries,
  and its children in their order. -/
  nodes : ∀ v, after.store.get? v = before.store.get? v
  /-- The nodes are listed in the same order. -/
  preorder : after.preorder = before.preorder
  /-- There are as many of them. -/
  size : after.size = before.size
  /-- Handles stand for the same triggers. -/
  triggers : ∀ id, after.trigger? id = before.trigger? id
  /-- The live triggers are listed in the same order. -/
  live : after.triggers.live = before.triggers.live
  /-- As many triggers are counted. -/
  total : after.total = before.total

/-- **An addition that is turned away changes nothing**, whatever the reason. -/
theorem unchanged_of_rejected (hcs : cs.Lawful) (h : Reached Free cs opts tree)
    (hrejected : (tree.add expression action quantifiers).2.trigger?
      (tree.add expression action quantifiers).1 = none) :
    tree.Unchanged (tree.add expression action quantifiers).2 := by
  have hafter : Reached Free cs opts (tree.add expression action quantifiers).2 :=
    .change h (.add expression action quantifiers) trivial
  obtain ⟨hcomparers, hoptimizers, -, htriggers⟩ := tree.add_cases expression action quantifiers
  have htotal := tree.total_add expression action quantifiers
  have hnone := rejected_iff_filing.mp hrejected
  have hagrees := h.agrees_add hcs hnone
  -- the slots hold nothing but the nodes that are reached, before and after
  have hget := hagrees.get?_eq h.isSome_iff hafter.isSome_iff
  have hsize : (tree.add expression action quantifiers).2.size + 1 = tree.size + 1 := by
    rw [hafter.size_add_one, h.size_add_one]
    exact congrArg Set.ncard (Set.ext hagrees.reachable)
  rw [if_neg hnone] at htriggers htotal
  exact {
    comparers := hcomparers
    optimizers := hoptimizers
    reachable := hagrees.reachable
    nodes := hget
    preorder := Store.preorder_congr fun v => Store.children_of_get?_eq (hget v)
    size := Nat.succ.inj hsize
    triggers := fun id => by
      by_cases heq : id = tree.triggers.nextId
      · rw [heq, trigger?_nextId_add, if_neg hnone, trigger?, Register.get?_nextId]
      · exact trigger?_add_of_ne expression action quantifiers heq
    live := by
      rw [htriggers, Register.live_erase_push]
    total := htotal }

/-- A second trigger with the same clause and action is turned away after the descent has hung
the narrower node below the incoming one, and the slot that it needed is there still. -/
theorem unchanged_of_rejected_below :
    let a : Expression := .accessor "a"
    let b : Expression := .accessor "b"
    let tree : Tree Nat := .run .empty [] [.add b 1 [], .add a 2 [], .add (.and [a, b]) 3 []]
    let (id, after) := tree.add a 2 []
    Comparers.empty.Lawful ∧ after.trigger? id = none ∧ tree.Unchanged after ∧
      tree.store.slots.size < after.store.slots.size := by
  intro a b tree
  have hlawful := Comparers.lawful_empty
  have hrejected : (tree.add a 2 []).2.trigger? (tree.add a 2 []).1 = none :=
    Option.isNone_iff_eq_none.mp (by decide +kernel)
  have hslots : tree.store.slots.size < (tree.add a 2 []).2.store.slots.size := by
    decide +kernel
  exact ⟨hlawful, hrejected, unchanged_of_rejected hlawful (reached_run _ _ _) hrejected, hslots⟩

end Tree

end Specificity
