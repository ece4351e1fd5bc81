import Specificity.Tree

/-!
# Drawing a tree

A tree is drawn in two ways: as an indented outline and as a graph description
in the DOT language. Both show every node in use once with its caption. In the
outline a node with several parents is spelled out below the first one and
referred to below the others.

Each drawing is first made as a list of entries and then written out, so that
what a drawing shows can be told from how it is written.
-/

namespace Specificity

/-- An entry of an outline. -/
structure OutlineEntry where
  /-- What stands before the branch, drawn by the levels above. -/
  lead : String
  /-- Is this the last entry of its level? -/
  last : Bool
  /-- The node. -/
  node : NodeId
  /-- Was the node spelled out before? -/
  repeated : Bool

/-- A statement of a graph description. -/
inductive DotStatement where
  /-- There is a node. -/
  | node (id : NodeId)
  /-- There is an edge from a node to a child. -/
  | edge (parent child : NodeId)
deriving DecidableEq

/-- A list with each member told whether it is the last. -/
def withLast {β : Type} : List β → List (β × Bool)
  | [] => []
  | x :: xs => (x, xs.isEmpty) :: withLast xs

/-- A text with backslashes and double quotes escaped by a backslash. -/
def escapeQuoted (s : String) : String :=
  String.join (s.toList.map fun c =>
    if c = '\\' then "\\\\" else if c = '"' then "\\\"" else c.toString)

namespace Tree

variable {α : Type}

/-- **The caption of a node**: its handle, its clause, and its visible triggers. -/
def caption (tree : Tree α) (id : NodeId) : String :=
  match tree.store.get? id with
  | none => s!"{id} <freed>"
  | some n =>
    if n.visible.isEmpty then s!"{id} {n.clause}"
    else s!"{id} {n.clause} [" ++ ", ".intercalate (n.visible.map toString) ++ "]"

/-! ## The outline -/

/-- The entries at and below a node, and the nodes spelled out so far. -/
def outlineBelow (tree : Tree α) :
    Nat → String → NodeId × Bool → Marks Unit → List OutlineEntry × Marks Unit
  | 0, _, _, shown => ([], shown)
  | fuel + 1, lead, (id, last), shown =>
    if shown.has id then ([⟨lead, last, id, true⟩], shown)
    else
      let (below, shown) :=
        visitAll (tree.outlineBelow fuel (lead ++ if last then "    " else "│   "))
          (withLast (tree.store.children id)) (shown.set id ())
      (⟨lead, last, id, false⟩ :: below.flatten, shown)

/-- **The entries of the outline.** A way down that repeats no node, followed by
one repeated node, is no longer than the number of slots and one. -/
def outline (tree : Tree α) : List OutlineEntry :=
  (tree.outlineBelow (tree.store.slots.size + 1) "" (.root, true) .empty).1

/-- The line of an entry. -/
def outlineLine (tree : Tree α) (e : OutlineEntry) : String :=
  e.lead ++ (if e.last then "└── " else "├── ") ++
    (if e.repeated then s!"^{e.node}" else tree.caption e.node) ++ "\n"

/-- The outline in writing. -/
def print (tree : Tree α) : String := String.join (tree.outline.map tree.outlineLine)

instance : ToString (Tree α) := ⟨print⟩

/-! ## The graph description -/

/-- **The statements of the graph description**: each node followed by its edges. -/
def dotStatements (tree : Tree α) : List DotStatement :=
  tree.preorder.flatMap fun id =>
    .node id :: (tree.store.children id).map (DotStatement.edge id)

/-- The line of a statement. -/
def dotLine (tree : Tree α) : DotStatement → String
  | .node id => s!"    {id} [label=\"" ++ escapeQuoted (tree.caption id) ++ "\"];\n"
  | .edge parent child => s!"    {parent} -> {child};\n"

/-- The graph description in writing. -/
def printDot (tree : Tree α) : String :=
  "digraph TriggerTree \x7b\n    node [shape=box];\n" ++
    String.join (tree.dotStatements.map tree.dotLine) ++ "\x7d\n"

end Tree

end Specificity
