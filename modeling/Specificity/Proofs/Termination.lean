import Specificity.Proofs.Bounds
import Specificity.Proofs.History
import Specificity.Proofs.Store.Calling

/-!
# Additions and removals come to an end

An addition stores a node for each active clause in turn and has it seen at the root, and a
removal withdraws the trigger from the root down. Everything else is called from there
(`Tree.Begins`). In a tree that additions and removals lead to, the nodes form a covering
diagram, so all ways lead down in it, also with a node that was just stored. Hence every one of
these calls terminates under a lawful registry (`Tree.terminates_of_reached`), and every addition
returns (`Tree.Adds`).

The law that matters is transitivity. Nothing but the order of the clauses keeps a placing, which
remembers no nodes, from going round in circles.
-/

namespace Specificity

namespace Store

variable {α : Type} [DecidableEq α] {cs : Comparers} {r : Register α} {trigger : TriggerId}
  {s : Store}

/-- **The first call of an insertion**: the node stored for a clause is seen at the root. -/
def arrival (s : Store) (clause : Clause) (trigger : TriggerId) : Call :=
  .sink (s.put (.ofTrigger clause trigger)).1 .root
    ⟨(s.put (.ofTrigger clause trigger)).2, .empty⟩

/-- **The first call of a withdrawal**: the trigger is withdrawn at and below the root. -/
def departure (s : Store) : Call := .withdraw .root ⟨s, .empty, false⟩

/-- **An insertion terminates** on a store in order. -/
theorem Sound.terminates_arrival (hcs : cs.Lawful) (hs : s.Sound cs)
    (ht : (r.get? trigger).isSome = true) (clause : Clause) :
    (s.arrival clause trigger).Terminates cs r trigger := by
  obtain ⟨fate, hincoming⟩ := exists_incoming hcs hs.diagram hs.free ht clause
  set p := (s.put (.ofTrigger clause trigger)).2
  set x := (s.put (.ofTrigger clause trigger)).1
  -- the members are the nodes that are reached, and the one that was just stored
  have horder : (s.arrival clause trigger).InOrder cs p ({v | s.Reachable v} ∪ {x}) :=
    ⟨hincoming.downward, .inr rfl, .inl hincoming.diagram.root_mem⟩
  have hreached : ∀ v, s.Reachable v → v ∈ p.preorder := fun v hv =>
    (mem_preorder_iff p v).mpr ((hincoming.diagram.mem_iff_reachable hcs v).mp hv)
  refine horder.terminates hcs (x :: p.preorder) ?_ (Nat.le_refl _)
  rintro v (hv | rfl)
  · exact List.mem_cons_of_mem x (hreached v hv)
  · exact List.mem_cons_self

/-- **A withdrawal terminates** on a store in order. -/
theorem Sound.terminates_departure (hcs : cs.Lawful) (hs : s.Sound cs) (r : Register α)
    (trigger : TriggerId) : s.departure.Terminates cs r trigger := by
  have horder : s.departure.InOrder cs s {v | s.Reachable v} :=
    ⟨hs.diagram.downward, hs.diagram.root_mem⟩
  exact horder.terminates hcs s.preorder (fun v hv => (mem_preorder_iff s v).mpr hv)
    (Nat.le_succ _)

end Store

namespace Tree

variable {α : Type} [DecidableEq α] {ok : Tree α → Change α → Prop} {cs : Comparers}
  {opts : List Optimizer} {tree : Tree α} {r : Register α} {trigger : TriggerId}
  {start : Store.Call}

/-- **What changes to a tree begin with**, and the register and the trigger that all calls from
there have in common. -/
inductive Begins (tree : Tree α) : Register α → TriggerId → Store.Call → Prop where
  /-- An addition inserts the active clauses in order. -/
  | add (expression : Expression) (action : α) (quantifiers : List Quantifier)
      {earlier later : List Clause} {clause : Clause}
      (active : (tree.incoming expression action quantifiers).active.map Clause.core =
        earlier ++ clause :: later) :
      Begins tree (tree.triggers.push (tree.incoming expression action quantifiers))
        tree.triggers.nextId
        ((tree.store.insertAll tree.comparers
          (tree.triggers.push (tree.incoming expression action quantifiers))
          tree.triggers.nextId earlier).2.arrival clause tree.triggers.nextId)
  /-- A removal withdraws a trigger that is in the tree. -/
  | remove (id : TriggerId) (present : (tree.trigger? id).isSome = true) :
      Begins tree tree.triggers id tree.store.departure

/-- **The insertions of an addition terminate** in every reached tree, whatever was inserted
before, under a lawful registry. -/
theorem Reached.terminates_arrival (hcs : cs.Lawful) (h : Reached ok cs opts tree)
    (expression : Expression) (action : α) (quantifiers : List Quantifier)
    (earlier : List Clause) (clause : Clause) :
    let t := tree.incoming expression action quantifiers
    ((tree.store.insertAll tree.comparers (tree.triggers.push t) tree.triggers.nextId
      earlier).2.arrival clause tree.triggers.nextId).Terminates cs (tree.triggers.push t)
        tree.triggers.nextId := by
  intro t
  have ht := isSome_get?_push_nextId tree t
  rw [h.comparers]
  exact ((h.sound hcs).store.sound_insertAll hcs ht earlier).terminates_arrival hcs ht clause

/-- **An addition that returns**: all insertions of active clauses come to an end, with this
handle and this tree. -/
structure Adds (tree : Tree α) (expression : Expression) (action : α)
    (quantifiers : List Quantifier) (id : TriggerId) (after : Tree α) : Prop where
  /-- The call that each insertion begins with returns. -/
  returns : ∀ earlier clause later,
    (tree.incoming expression action quantifiers).active.map Clause.core =
      earlier ++ clause :: later →
    ((tree.store.insertAll tree.comparers
      (tree.triggers.push (tree.incoming expression action quantifiers))
      tree.triggers.nextId earlier).2.arrival clause tree.triggers.nextId).Returns tree.comparers
      (tree.triggers.push (tree.incoming expression action quantifiers)) tree.triggers.nextId
  /-- This is the handle, and the tree afterwards. -/
  result : tree.add expression action quantifiers = (id, after)

/-- **Every addition returns** under a lawful registry. -/
theorem Reached.adds (hcs : cs.Lawful) (h : Reached ok cs opts tree) (expression : Expression)
    (action : α) (quantifiers : List Quantifier) :
    ∃ id after, tree.Adds expression action quantifiers id after :=
  ⟨_, _, fun earlier clause _ _ => h.comparers ▸
    (h.terminates_arrival hcs expression action quantifiers earlier clause).returns, rfl⟩

/-- **Additions and removals terminate** in every reached tree, under a lawful registry. -/
theorem terminates_of_reached (hcs : cs.Lawful) (h : Reached ok cs opts tree)
    (hbegins : tree.Begins r trigger start) : start.Terminates cs r trigger := by
  cases hbegins with
  | @add expression action quantifiers earlier later clause hactive =>
    exact h.terminates_arrival hcs expression action quantifiers earlier clause
  | remove id hpresent =>
    exact (h.sound hcs).store.terminates_departure hcs tree.triggers trigger

/-- The wider `a` comes last, and is seen at `a ∧ b ∧ c` before `a ∧ b`: this one is placed below
it, and is handed the other one. -/
theorem terminates_of_reached_handed_over :
    let tree : Tree Nat := .run .empty [] [.add (.accessor "c") 1 [], .add (.accessor "b") 2 [],
      .add (.and [.accessor "a", .accessor "b"]) 3 [],
      .add (.and [.accessor "a", .accessor "b", .accessor "c"]) 4 []]
    let r := tree.triggers.push (tree.incoming (.accessor "a") 5 [])
    let id := tree.triggers.nextId
    let start := tree.store.arrival (.ofConjuncts [.accessor "a"]) id
    Reached Free .empty [] tree ∧ tree.Begins r id start ∧ start.Terminates .empty r id ∧
      ∃ s inner, start.Enters .empty r id (.place s ⟨5⟩ ⟨3⟩) ∧
        Store.Call.Makes .empty r id (.place s ⟨5⟩ ⟨3⟩) inner := by
  intro tree r id start
  have hreached : Reached Free .empty [] tree := reached_run _ _ _
  have hbegins : tree.Begins r id start :=
    .add (.accessor "a") 5 [] (show _ = [] ++ Clause.ofConjuncts [.accessor "a"] :: [] by
      decide +kernel)
  refine ⟨hreached, hbegins, terminates_of_reached Comparers.lawful_empty hreached hbegins, ?_⟩
  let p := (tree.store.put (.ofTrigger (.ofConjuncts [.accessor "a"]) id)).2
  let d := (visitAll (Store.sink .empty r id ⟨5⟩ 10) [⟨1⟩] ⟨p, .empty⟩).2
  have hx : (tree.store.put (.ofTrigger (.ofConjuncts [.accessor "a"]) id)).1 = ⟨5⟩ := by
    decide +kernel
  have hstart : start = .sink ⟨5⟩ .root ⟨p, .empty⟩ :=
    congrArg (fun x => Store.Call.sink x .root ⟨p, .empty⟩) hx
  rw [hstart]
  -- from the root to `b`, once `c` was visited, and on to `a ∧ b`
  have hb : Store.Call.Makes .empty r id (.sink ⟨5⟩ .root ⟨p, .empty⟩) (.sink ⟨5⟩ ⟨2⟩ d) :=
    .descend (by decide +kernel) (.inr (by decide +kernel))
      (show _ = [⟨1⟩] ++ ⟨2⟩ :: [] by decide +kernel) 10
  have hab : Store.Call.Makes .empty r id (.sink ⟨5⟩ ⟨2⟩ d) (.sink ⟨5⟩ ⟨3⟩ d) :=
    .descend (by decide +kernel) (.inl (by decide +kernel))
      (show _ = [] ++ ⟨3⟩ :: [] by decide +kernel) 10
  have hadopt : Store.Call.Makes .empty r id (.sink ⟨5⟩ ⟨3⟩ d) (.place d.store ⟨5⟩ ⟨3⟩) :=
    .adopt (by decide +kernel) (by decide +kernel)
  have hposition : d.store.position .empty ⟨3⟩ (d.store.children ⟨5⟩) =
      .beside ([] ++ ⟨4⟩ :: []) := by
    decide +kernel
  exact ⟨d.store, _, .tail (.tail (.single hb) hab) hadopt, .handOver (by decide) hposition 10⟩

end Tree

end Specificity
