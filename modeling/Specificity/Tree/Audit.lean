import Specificity.Tree

/-!
# Auditing a tree

An audit walks over the nodes in use and answers the first fault it meets: a
child that is not narrower than its parent, two children that are comparable,
a trigger that is listed but not in the tree, or a carried trigger that is
neither visible nor wider than a visible one.
-/

namespace Specificity

/-- What a tree must keep at every node. -/
inductive Invariant where
  /-- Every child is narrower than its parent. -/
  | specialization
  /-- Children are incomparable to each other. -/
  | siblings
  /-- Every carried trigger is visible or covered by a visible one. -/
  | completeness
deriving DecidableEq

/-- The name of an invariant. -/
def Invariant.name : Invariant → String
  | specialization => "specialization"
  | siblings => "sibling incomparability"
  | completeness => "trigger completeness"

/-- What an audit may find wrong at a node. -/
inductive Fault where
  /-- A child that stands otherwise to its parent than it should. -/
  | child (node child : NodeId) (relationship : Relationship)
  /-- Two children that are comparable. -/
  | siblings (node a b : NodeId) (relationship : Relationship)
  /-- A trigger that is not in the tree. -/
  | unknown (node : NodeId) (trigger : TriggerId)
  /-- A carried trigger that no visible one accounts for. -/
  | uncovered (node : NodeId) (trigger : TriggerId) (visible : List TriggerId)
deriving DecidableEq

namespace Fault

/-- The invariant that a fault violates, if it is one of the three. -/
def invariant? : Fault → Option Invariant
  | child .. => some .specialization
  | siblings .. => some .siblings
  | unknown .. => none
  | uncovered .. => some .completeness

/-- The message about a violated invariant. -/
def violation (node : NodeId) (invariant : Invariant) (detail : String) : String :=
  s!"Tree error: {invariant.name} violated at {node}: {detail}"

/-- A list of handles, as messages write it. -/
def printHandles (ts : List TriggerId) : String :=
  "[" ++ ", ".intercalate (ts.map fun t => s!"TriggerId({t.index})") ++ "]"

/-- The message about a fault. -/
def message : Fault → String
  | child node c r => violation node .specialization s!"child {c} {r} its parent"
  | siblings node a b r => violation node .siblings s!"{a} {r} {b}"
  | unknown node t => s!"Tree error: {node} refers to unknown trigger {t}"
  | uncovered node t visible =>
    violation node .completeness s!"{t} is not covered by {printHandles visible}"

end Fault

/-- All pairs of an earlier and a later member, by the earlier one first. -/
def pairs {β : Type} : List β → List (β × β)
  | [] => []
  | x :: xs => xs.map (fun y => (x, y)) ++ pairs xs

namespace Tree

variable {α : Type}

/-- A child of the node that is not narrower. -/
def childFault? (tree : Tree α) (id : NodeId) (n : Node) : Option Fault :=
  n.children.findSome? fun c =>
    let r := tree.store.relate tree.comparers c id
    if r = .specializes then none else some (.child id c r)

/-- Two children of the node that are comparable. -/
def siblingFault? (tree : Tree α) (id : NodeId) (n : Node) : Option Fault :=
  (pairs n.children).findSome? fun (a, b) =>
    let r := tree.store.relate tree.comparers a b
    if r = .incomparable then none else some (.siblings id a b r)

/-- A trigger of the node that is not in the tree. -/
def unknownFault? (tree : Tree α) (id : NodeId) (n : Node) : Option Fault :=
  (n.carried ++ n.visible).findSome? fun t =>
    if (tree.trigger? t).isSome then none else some (.unknown id t)

/-- Does a visible trigger of the node account for `t`? -/
def isCovered (tree : Tree α) (n : Node) (t : TriggerId) : Bool :=
  n.visible.any fun v => v = t || (tree.triggers.relate tree.comparers t v).covers

/-- A carried trigger of the node that no visible one accounts for. -/
def coverageFault? (tree : Tree α) (id : NodeId) (n : Node) : Option Fault :=
  n.carried.findSome? fun t =>
    if tree.isCovered n t then none else some (.uncovered id t n.visible)

/-- The first fault at one node. -/
def faultAt? (tree : Tree α) (id : NodeId) : Option Fault :=
  match tree.store.get? id with
  | none => none
  | some n =>
    (tree.childFault? id n).or <| (tree.siblingFault? id n).or <|
      (tree.unknownFault? id n).or <| tree.coverageFault? id n

/-- **Auditing a tree**: the first fault, if there is one. -/
def fault? (tree : Tree α) : Option Fault := tree.preorder.findSome? tree.faultAt?

end Tree

end Specificity
