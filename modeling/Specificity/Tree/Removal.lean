import Specificity.Tree.Insertion

/-!
# Removing a trigger

A trigger is withdrawn from every node that carries it. A node that showed it
may now show triggers that were hidden behind it. A node left with nothing to
show is spliced out: its parents take over its children, each of which finds
its place anew.
-/

namespace Specificity

/-- The visible triggers, joined one by one by those of `carried` that are not
wider than a visible one. -/
def Node.promote (judge : TriggerId → TriggerId → Relationship) (carried visible : List TriggerId) :
    List TriggerId :=
  carried.foldl
    (fun visible t =>
      if visible.contains t || visible.any fun v => (judge t v).covers then visible
      else visible ++ [t])
    visible

/-- **Withdrawing a trigger from a node** that carries it. If it was visible, those
hidden behind it are promoted. -/
def Node.withdraw (judge : TriggerId → TriggerId → Relationship) (trigger : TriggerId) (n : Node) :
    Node :=
  let carried := n.carried.filter fun t => t ≠ trigger
  if n.visible.contains trigger then
    let visible := n.visible.filter fun t => t ≠ trigger
    { n with carried, visible := Node.promote judge carried visible }
  else { n with carried }

/-- The state of a removal. -/
structure Withdrawal where
  /-- The store as changed so far. -/
  store : Store
  /-- The nodes met so far. -/
  met : Marks Unit
  /-- Was the trigger found anywhere? -/
  found : Bool

namespace Store

/-- Does the node in a slot have nothing to show? -/
def isSilent (s : Store) (id : NodeId) : Bool := (s.get? id).any fun n => n.visible.isEmpty

/-- **Splicing out a child**: the parent takes over its children. -/
def splice (cs : Comparers) (parent : NodeId) (s : Store) (child : NodeId) : Store :=
  let s := s.unlink parent child
  (s.children child).foldl (fun s grandchild => s.place cs s.depthBound parent grandchild) s

variable {α : Type}

/-- The withdrawal at one node, without regard to its children. -/
def withdrawHere (cs : Comparers) (r : Register α) (trigger : TriggerId) (here : NodeId)
    (w : Withdrawal) : Withdrawal :=
  let w := { w with met := w.met.set here () }
  match w.store.get? here with
  | some n =>
    if n.carried.contains trigger then
      { w with
        store := w.store.update here (Node.withdraw (r.relate cs) trigger)
        found := true }
    else w
  | none => w

/-- **The withdrawal at and below a node.** -/
def withdrawBelow (cs : Comparers) (r : Register α) (trigger : TriggerId) :
    Nat → NodeId → Withdrawal → Withdrawal
  | 0, _, w => w
  | fuel + 1, here, w =>
    if w.met.has here then w
    else
      let w := withdrawHere cs r trigger here w
      let children := w.store.children here
      let visit (child : NodeId) (w : Withdrawal) : Bool × Withdrawal :=
        let w := withdrawBelow cs r trigger fuel child w
        (w.store.isSilent child, w)
      let (silent, w) := visitAll visit children w
      { w with store := (selected children silent).foldl (splice cs here) w.store }

/-- **Withdrawing a trigger from a store**, and whether it was found there. -/
def withdraw (cs : Comparers) (r : Register α) (trigger : TriggerId) (s : Store) : Bool × Store :=
  let w := withdrawBelow cs r trigger s.depthBound .root ⟨s, .empty, false⟩
  (w.found, w.store)

end Store

end Specificity
