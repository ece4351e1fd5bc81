import Std.Data.TreeMap.Lemmas
import Specificity.Tree

/-!
# Matching

A memory is answered by the most specific clauses that hold in it. A node
fires if its clause holds, one of its visible triggers fires with it, and no
node below it fires. A node with several parents is asked once.
-/

namespace Specificity

/-- The state of a search. -/
structure Search where
  /-- For each node asked so far, whether it or a node below it fired. -/
  answers : Marks Bool
  /-- Which triggers fired at which nodes, in the order of firing. -/
  firings : List (TriggerId × NodeId)

/-- A trigger that fired, with the clauses it fired for. -/
structure Firing (α : Type) where
  /-- The trigger. -/
  trigger : Trigger α
  /-- The clauses of the nodes it fired at, in the order of firing. -/
  clauses : List Clause

/-- The nodes of a list of firings, in their order, by the handle of the trigger. -/
def nodesByTrigger (firings : List (TriggerId × NodeId)) : Std.TreeMap Nat (List NodeId) :=
  firings.foldr (fun f nodes => nodes.insert f.1.index (f.2 :: nodes.getD f.1.index [])) ∅

theorem getD_nodesByTrigger (firings : List (TriggerId × NodeId)) (t : TriggerId) :
    (nodesByTrigger firings).getD t.index [] =
      firings.filterMap fun f => if f.1 = t then some f.2 else none := by
  induction firings with
  | nil => simp [nodesByTrigger]
  | cons f fs ih =>
    obtain ⟨⟨i⟩, n⟩ := f
    obtain ⟨j⟩ := t
    by_cases h : i = j
    · subst h
      simpa [nodesByTrigger] using ih
    · simpa [nodesByTrigger, Std.TreeMap.getD_insert, h] using ih

namespace Tree

variable {α : Type}

/-- The visible triggers that fire at a node, if its clause holds. -/
def firingAt (tree : Tree α) (m : Memory) (n : Node) : List TriggerId :=
  match n.clause.eval m with
  | .ok true =>
    n.visible.filter fun t =>
      (tree.trigger? t).any fun t => t.firesAt tree.comparers m n.clause
  | _ => []

/-- **The search at and below a node**: did any of them fire? -/
def search (tree : Tree α) (m : Memory) : Nat → NodeId → Search → Bool × Search
  | 0, _, st => (false, st)
  | fuel + 1, here, st =>
    match st.answers.get? here with
    | some fired => (fired, st)
    | none =>
      match tree.store.get? here with
      | none => (false, st)
      | some n =>
        let (below, st) := visitAll (tree.search m fuel) n.children st
        let firing := if below.contains true then [] else tree.firingAt m n
        let fired := below.contains true || !firing.isEmpty
        (fired,
          { answers := st.answers.set here fired
            firings := st.firings ++ firing.map fun t => (t, here) })

/-- What fired where, in the order of firing. -/
def firings (tree : Tree α) (m : Memory) : List (TriggerId × NodeId) :=
  (tree.search m tree.store.depthBound .root ⟨.empty, []⟩).2.firings

/-- **The most specific triggers that hold in a memory**, by ascending handle,
each with the clauses it fired for. -/
def matching (tree : Tree α) (m : Memory) : List (Firing α) :=
  let fired := nodesByTrigger (tree.firings m)
  tree.triggers.live.filterMap fun t =>
    match fired.getD t.id.index [] with
    | [] => none
    | nodes => some ⟨t, nodes.filterMap fun id => (tree.store.get? id).map Node.clause⟩

/-- The most specific triggers alone. -/
def matched (tree : Tree α) (m : Memory) : List (Trigger α) :=
  (tree.matching m).map Firing.trigger

end Tree

end Specificity
