import Specificity.Trigger

/-!
# Nodes

A node of a tree stands for one clause. It lists the triggers that have this
clause: all of them as *carried*, and as *visible* only those that no other
carried trigger makes too general to be worth reporting here. Its *children*
are the nodes directly below it, whose clauses are narrower.

`Marks` attach a piece of data to some of the nodes, as a walk over the tree
does.
-/

namespace Specificity

/-- The place of a node in the store of its tree. -/
structure NodeId where
  /-- The number of the slot. -/
  index : Nat
deriving DecidableEq, Inhabited

instance : ToString NodeId := ⟨fun n => "n" ++ toString n.index⟩

/-- The place of the node every walk starts from. -/
def NodeId.root : NodeId := ⟨0⟩

/-- A clause together with the triggers that have it. -/
structure Node where
  /-- The clause the node stands for. -/
  clause : Clause
  /-- The triggers that are reported when the node fires. -/
  visible : List TriggerId
  /-- The triggers that have the clause. -/
  carried : List TriggerId
  /-- The nodes directly below. -/
  children : List NodeId
deriving Inhabited

namespace Node

/-- A node without children that only `trigger` has. -/
def ofTrigger (clause : Clause) (trigger : TriggerId) : Node := ⟨clause, [trigger], [trigger], []⟩

/-- A node without children and triggers. -/
def ofClause (clause : Clause) : Node := ⟨clause, [], [], []⟩

/-- The node with `child` among its children, as the last if it is new. -/
def link (child : NodeId) (n : Node) : Node :=
  if n.children.contains child then n else { n with children := n.children ++ [child] }

/-- The node without `child` among its children. -/
def unlink (child : NodeId) (n : Node) : Node :=
  { n with children := n.children.filter fun c => c ≠ child }

theorem mem_children_link (child c : NodeId) (n : Node) :
    c ∈ (n.link child).children ↔ c ∈ n.children ∨ c = child := by
  unfold link
  split
  · next h =>
    have h : child ∈ n.children := by simpa using h
    exact ⟨.inl, fun hc => hc.elim id (· ▸ h)⟩
  · simp

end Node

/-! ## Marks -/

/-- Data of type `β` attached to some nodes. -/
structure Marks (β : Type) where
  /-- The data, by number of the slot. -/
  entries : Array (Option β)

namespace Marks

variable {β : Type}

/-- No node is marked. -/
def empty : Marks β := ⟨#[]⟩

instance : Inhabited (Marks β) := ⟨empty⟩

/-- The data attached to a node, if any. -/
def get? (marks : Marks β) (id : NodeId) : Option β := (marks.entries[id.index]?).join

/-- Is the node marked? -/
def has (marks : Marks β) (id : NodeId) : Bool := (marks.get? id).isSome

/-- The marks with `data` attached to a node, whatever was before. Where the entries
do not reach that far they are filled up. -/
def set (marks : Marks β) (id : NodeId) (data : β) : Marks β :=
  if id.index < marks.entries.size then ⟨marks.entries.setIfInBounds id.index (some data)⟩
  else
    let gap := Array.replicate (id.index - marks.entries.size) none
    ⟨(marks.entries ++ gap).push (some data)⟩

@[simp] theorem get?_empty (id : NodeId) : (empty : Marks β).get? id = none := by
  simp [empty, get?]

/-- **Reading a mark after setting one.** -/
theorem get?_set (marks : Marks β) (id other : NodeId) (data : β) :
    (marks.set id data).get? other = if other = id then some data else marks.get? other := by
  obtain ⟨entries⟩ := marks
  obtain ⟨i⟩ := id
  obtain ⟨j⟩ := other
  by_cases hi : i < entries.size
  · by_cases h : i = j
    · subst h
      simp [get?, set, hi]
    · simp [get?, set, hi, h, Ne.symm h]
  · have hsize : entries.size + (i - entries.size) = i := by omega
    simp only [get?, set, hi, if_false, Array.getElem?_push, Array.size_append,
      Array.size_replicate, hsize, NodeId.mk.injEq]
    by_cases h : j = i
    · simp [h]
    · simp only [h, if_false, Array.getElem?_append, Array.getElem?_replicate]
      by_cases hj : j < entries.size
      · simp [hj]
      · have hnone : entries[j]? = none := by simp; omega
        simp only [hj, if_false, hnone]
        split <;> rfl

end Marks

end Specificity
