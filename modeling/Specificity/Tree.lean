import Specificity.Tree.Removal

/-!
# Trees of triggers

A tree files the active clauses of its triggers by specificity: the clauses
below a node are narrower than its own, and siblings are incomparable. The
root carries the empty clause, which is wider than any other, and stays when
all else is removed.

A trigger without a clause that finds a place – because no clause is active, or
because every one is there already with the same action – is not retained; its
handle then stands for nothing.

Whether two actions are the same is decided by their equality, which is taken to hold of
every action and itself.
-/

namespace Specificity

/-- Triggers with actions of type `α`, filed by specificity. -/
structure Tree (α : Type) where
  /-- The nodes. -/
  store : Store
  /-- The triggers. -/
  triggers : Register α
  /-- The judges of predicates. -/
  comparers : Comparers
  /-- The changes made to fresh clauses, in the order they are applied. -/
  optimizers : List Optimizer
  /-- The number of triggers in the tree. -/
  total : Nat

namespace Tree

variable {α : Type}

/-- **The tree without triggers**, with given comparers and optimizers. -/
def empty (comparers : Comparers) (optimizers : List Optimizer) : Tree α :=
  ⟨.initial, .empty, comparers, optimizers, 0⟩

instance : Inhabited (Tree α) := ⟨empty .empty []⟩

/-- The trigger with a handle, if it is in the tree. -/
def trigger? (tree : Tree α) (id : TriggerId) : Option (Trigger α) := tree.triggers.get? id

/-- The number of nodes, the root not counted. -/
def size (tree : Tree α) : Nat := tree.store.size - 1

/-- The number of nodes directly below the root. -/
def breadth (tree : Tree α) : Nat := (tree.store.children .root).length

/-- The nodes in use, each after one of its parents. -/
def preorder (tree : Tree α) : List NodeId := tree.store.preorder

/-- **Adding a trigger**: its handle, and the tree with its active clauses filed. -/
def add [DecidableEq α] (tree : Tree α) (expression : Expression) (action : α)
    (quantifiers : List Quantifier) : TriggerId × Tree α :=
  let id := tree.triggers.nextId
  let trigger := Trigger.build tree.comparers tree.optimizers id expression action quantifiers
  let triggers := tree.triggers.push trigger
  let insert (clause : Clause) (store : Store) : Bool × Store :=
    store.insert tree.comparers triggers id clause
  let (placed, store) := visitAll insert (trigger.active.map Clause.core) tree.store
  let store := store.sweep
  if placed.contains true then (id, { tree with store, triggers, total := tree.total + 1 })
  else (id, { tree with store, triggers := triggers.erase id })

/-- **Removing a trigger**, and whether it was there. -/
def remove (tree : Tree α) (id : TriggerId) : Bool × Tree α :=
  match tree.trigger? id with
  | none => (false, tree)
  | some _ =>
    let (found, store) := tree.store.withdraw tree.comparers tree.triggers id
    (found,
      { tree with
        store := store.sweep
        triggers := tree.triggers.erase id
        total := if found then tree.total - 1 else tree.total })

end Tree

end Specificity
