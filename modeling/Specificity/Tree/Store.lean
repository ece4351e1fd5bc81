import Specificity.Tree.Node

/-!
# Node stores

The nodes of a tree live in numbered slots and refer to each other by number,
so a node can hang below several others and moving it is a matter of changing
lists of children. Slots that fall empty are reused, the one emptied last
first. The root is in slot 0.
-/

namespace Specificity

/-- Nodes in numbered slots. -/
structure Store where
  /-- The slots, some of them empty. -/
  slots : Array (Option Node)
  /-- The empty slots, in the order in which they will be reused. -/
  free : List NodeId
deriving Inhabited

namespace Store

/-- The store of a tree without triggers: a root with the empty clause. -/
def initial : Store := ⟨#[some (.ofClause .empty)], []⟩

/-- The node in a slot, if there is one. -/
def get? (s : Store) (id : NodeId) : Option Node := (s.slots[id.index]?).join

/-- The children of a node, none if the slot is empty. -/
def children (s : Store) (id : NodeId) : List NodeId :=
  match s.get? id with
  | some n => n.children
  | none => []

/-- The number of nodes in the store. -/
def size (s : Store) : Nat := s.slots.size - s.free.length

/-- The store with the node in a slot changed by `f`. -/
def update (s : Store) (id : NodeId) (f : Node → Node) : Store :=
  { s with slots := s.slots.modify id.index (Option.map f) }

/-- The store with `child` made a child of a node. -/
def link (s : Store) (id child : NodeId) : Store := s.update id (Node.link child)

/-- The store with `child` no longer a child of a node. -/
def unlink (s : Store) (id child : NodeId) : Store := s.update id (Node.unlink child)

/-- **Storing a node**: it takes the first slot to be reused, or a new one. -/
def put (s : Store) (n : Node) : NodeId × Store :=
  match s.free with
  | id :: free => (id, { slots := s.slots.setIfInBounds id.index (some n), free })
  | [] => (⟨s.slots.size⟩, { s with slots := s.slots.push (some n) })

/-- The store with a slot emptied, to be reused before any other. -/
def release (s : Store) (id : NodeId) : Store :=
  { slots := s.slots.setIfInBounds id.index none, free := id :: s.free }

/-- The relationship of the clauses of two nodes. -/
def relate (cs : Comparers) (s : Store) (a b : NodeId) : Relationship :=
  match s.get? a, s.get? b with
  | some m, some n => m.clause.relate cs n.clause
  | _, _ => .incomparable

/-! ## Walking over the store -/

/-- The total number of children of all nodes. -/
def edgeCount (s : Store) : Nat :=
  s.slots.foldl (fun total slot => total + (slot.elim 0 fun n => n.children.length)) 0

/-- More than the number of nodes on any way down, also while nodes are being moved. -/
def depthBound (s : Store) : Nat := (s.slots.size + 1) * (s.slots.size + 1)

/-- Takes the nodes off a stack one by one, replacing each by its children, and
lists those that come up for the first time. -/
def walk (s : Store) : Nat → List NodeId → Marks Unit → List NodeId
  | 0, _, _ => []
  | _ + 1, [], _ => []
  | fuel + 1, id :: stack, seen =>
    if seen.has id then s.walk fuel stack seen
    else id :: s.walk fuel (s.children id ++ stack) (seen.set id ())

/-- **The nodes below the root**, the root first and each child after the parent it
was reached from. A node comes up once for each parent at most, so the number
of edges bounds the walk. -/
def preorder (s : Store) : List NodeId := s.walk (s.edgeCount + 1) [.root] .empty

/-- All slots, in order. -/
def ids (s : Store) : List NodeId := (List.range s.slots.size).map NodeId.mk

/-- **Emptying unreachable slots**, in ascending order. -/
def sweep (s : Store) : Store :=
  let reached : Marks Unit := s.preorder.foldl (fun marks id => marks.set id ()) .empty
  (s.ids.filter fun id => (s.get? id).isSome && !reached.has id).foldl release s

/-! ## What the operations do to a node -/

theorem get?_update (s : Store) (id other : NodeId) (f : Node → Node) :
    (s.update id f).get? other = if other = id then (s.get? other).map f else s.get? other := by
  obtain ⟨i⟩ := id
  obtain ⟨j⟩ := other
  simp only [get?, update, Array.getElem?_modify, NodeId.mk.injEq]
  by_cases h : i = j
  · subst h
    cases s.slots[i]? with
    | none => simp
    | some slot => cases slot <;> simp
  · simp [h, Ne.symm h]

theorem get?_release (s : Store) (id other : NodeId) :
    (s.release id).get? other = if other = id then none else s.get? other := by
  obtain ⟨i⟩ := id
  obtain ⟨j⟩ := other
  simp only [get?, release, Array.getElem?_setIfInBounds, NodeId.mk.injEq]
  by_cases h : i = j
  · subst h
    simp only [if_true]
    split <;> rfl
  · simp [h, Ne.symm h]

/-- A stored node is found in the slot it was given, as long as the slots to be
reused exist. -/
theorem get?_put (s : Store) (n : Node) (other : NodeId)
    (h : ∀ id ∈ s.free, id.index < s.slots.size) :
    (s.put n).2.get? other = if other = (s.put n).1 then some n else s.get? other := by
  obtain ⟨j⟩ := other
  unfold put
  split
  · next i free hfree =>
    have hi : i.index < s.slots.size := h i (hfree ▸ List.mem_cons_self)
    obtain ⟨i⟩ := i
    simp only [get?, Array.getElem?_setIfInBounds, NodeId.mk.injEq]
    by_cases hij : i = j
    · subst hij
      simp only at hi
      simp [hi]
    · simp [hij, Ne.symm hij]
  · simp only [get?, Array.getElem?_push, NodeId.mk.injEq]
    split <;> rfl

theorem children_unlink (s : Store) (id other child : NodeId) :
    (s.unlink id child).children other =
      if other = id then (s.children other).filter fun c => c ≠ child else s.children other := by
  simp only [children, unlink, get?_update]
  by_cases h : other = id
  · simp only [h, if_true]
    cases s.get? id <;> rfl
  · simp [h]

theorem mem_children_link (s : Store) (id other child c : NodeId) :
    c ∈ (s.link id child).children other ↔
      c ∈ s.children other ∨ (other = id ∧ (s.get? id).isSome ∧ c = child) := by
  simp only [children, link, get?_update]
  by_cases h : other = id
  · subst h
    cases s.get? other <;> simp [Node.mem_children_link]
  · simp [h]

end Store

end Specificity
