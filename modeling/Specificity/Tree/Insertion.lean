import Specificity.Traversal
import Specificity.Tree.Register
import Specificity.Tree.Store

/-!
# Inserting a clause

A clause that comes in with a trigger is stored as a node of its own and then
sinks from the root. Where it meets an equal clause, the trigger joins the
node that is there. Where it meets a narrower one, that one is placed below it.
Where it meets a wider one, it tries the children, and settles between the two
if none of them takes it. An outcome is recorded for every node met, so a node
with several parents is dealt with once.

`place` is the operation by which a node finds its place below another one. It
sinks to a child that is wider, and adopts the children that are narrower.
-/

namespace Specificity

/-! ## Joining a node -/

/-- The visible triggers of a node after another one asked to join them, and
whether it may. It may not if it is wider than a visible one; those that are
wider than it give way to it. -/
def Node.makeWay (judge : TriggerId → Relationship) : List TriggerId → List TriggerId × Bool
  | [] => ([], true)
  | v :: vs =>
    match judge v with
    | .generalizes => (v :: vs, false)
    | .specializes => Node.makeWay judge vs
    | _ =>
      let (vs', admitted) := Node.makeWay judge vs
      (v :: vs', admitted)

/-- **Joining a node**: it carries the trigger from now on, and shows it unless a
narrower trigger is visible. -/
def Node.join (judge : TriggerId → Relationship) (trigger : TriggerId) (n : Node) : Node :=
  let (visible, admitted) := Node.makeWay judge n.visible
  { n with
    carried := n.carried ++ [trigger]
    visible := if admitted && !visible.contains trigger then visible ++ [trigger] else visible }

/-! ## Placing a node -/

/-- Where a node stands among the children of another one. -/
inductive Position where
  /-- It is there already, or a child is equal to it. -/
  | taken
  /-- It belongs below a child. -/
  | below (child : NodeId)
  /-- It belongs beside the children, except for those that belong below it. -/
  | beside (narrower : List NodeId)
deriving DecidableEq

/-- The position of `candidate` among `children`, of which the first that is
equal to it or wider decides. -/
def Store.position (cs : Comparers) (s : Store) (candidate : NodeId) : List NodeId → Position
  | [] => .beside []
  | child :: rest =>
    if child = candidate then .taken
    else
      match s.relate cs candidate child with
      | .equal => .taken
      | .specializes => .below child
      | .incomparable => s.position cs candidate rest
      | .generalizes =>
        match s.position cs candidate rest with
        | .beside narrower => .beside (child :: narrower)
        | decided => decided

/-- **Placing a node below another one.** -/
def Store.place (cs : Comparers) : Nat → Store → NodeId → NodeId → Store
  | 0, s, _, _ => s
  | fuel + 1, s, target, candidate =>
    if target = candidate then s
    else
      match s.position cs candidate (s.children target) with
      | .taken => s
      | .below child => Store.place cs fuel s child candidate
      | .beside narrower =>
        let adopt (s : Store) (child : NodeId) :=
          Store.place cs fuel (s.unlink target child) candidate child
        (narrower.foldl adopt s).link target candidate

/-! ## Sinking from the root -/

/-- What became of the incoming node at and below another one. -/
inductive Outcome where
  /-- It has no place there. -/
  | unplaced
  /-- A trigger with the same action has the clause already. -/
  | present
  /-- The trigger has its place. -/
  | placed
  /-- The other node was placed below the incoming one. -/
  | adopted
deriving DecidableEq

/-- What the outcomes at the children come to: one child with a place for the
trigger is enough. -/
def Outcome.combine (outcomes : List Outcome) : Outcome :=
  if outcomes.contains .placed then .placed
  else if outcomes.contains .present then .present
  else .unplaced

/-- The state of a descent. -/
structure Descent where
  /-- The store as changed so far. -/
  store : Store
  /-- The outcomes at the nodes met so far. -/
  outcomes : Marks Outcome

/-- The store with `incoming` a child of `here` in place of the children that it
adopted. -/
def Store.settle (s : Store) (here incoming : NodeId) (adopted : List NodeId) : Store :=
  (adopted.foldl (fun s child => s.unlink here child) s).link here incoming

section

variable {α : Type} [DecidableEq α]

/-- Lets a trigger join the node at `here`, unless a trigger with the same action
is carried there. Actions are compared by their equality, which is decidable and reflexive;
a comparison by which an action may differ from itself, as that of floating-point numbers, is
not covered. -/
def Store.join (cs : Comparers) (r : Register α) (trigger : TriggerId) (here : NodeId)
    (s : Store) : Outcome × Store :=
  match r.get? trigger, s.get? here with
  | some t, some n =>
    if n.carried.any fun u => (r.get? u).any fun u => u.action = t.action then (.present, s)
    else (.placed, s.update here (Node.join (r.relate cs trigger) trigger))
  | _, _ => (.unplaced, s)

/-- What happens where the incoming node meets `here`, given how to visit the
children. -/
def Store.meet (cs : Comparers) (r : Register α) (trigger : TriggerId) (incoming : NodeId)
    (visit : NodeId → Descent → Outcome × Descent) (here : NodeId) (d : Descent) :
    Outcome × Descent :=
  match d.store.relate cs here incoming with
  | .equal =>
    let (outcome, store) := d.store.join cs r trigger here
    (outcome, { d with store })
  | .specializes =>
    (.adopted, { d with store := d.store.place cs d.store.depthBound incoming here })
  | .incomparable =>
    let (outcomes, d) := visitAll visit (d.store.children here) d
    (.combine outcomes, d)
  | .generalizes =>
    let children := d.store.children here
    let (outcomes, d) := visitAll visit children d
    match Outcome.combine outcomes with
    | .unplaced =>
      let adopted := selected children (outcomes.map fun o => o = .adopted)
      (.placed, { d with store := d.store.settle here incoming adopted })
    | outcome => (outcome, d)

/-- **The descent of the incoming node**, seen at `here`. -/
def Store.sink (cs : Comparers) (r : Register α) (trigger : TriggerId) (incoming : NodeId) :
    Nat → NodeId → Descent → Outcome × Descent
  | 0, _, d => (.unplaced, d)
  | fuel + 1, here, d =>
    match d.outcomes.get? here with
    | some outcome => (outcome, d)
    | none =>
      let (outcome, d) :=
        Store.meet cs r trigger incoming (Store.sink cs r trigger incoming fuel) here d
      (outcome, { d with outcomes := d.outcomes.set here outcome })

/-- **Inserting a clause of a trigger**, and whether the trigger has its place now.
If not, the node stored for the clause is left unreachable. -/
def Store.insert (cs : Comparers) (r : Register α) (trigger : TriggerId) (clause : Clause)
    (s : Store) : Bool × Store :=
  let (incoming, s) := s.put (.ofTrigger clause trigger)
  let (outcome, d) := Store.sink cs r trigger incoming s.depthBound .root ⟨s, .empty⟩
  (outcome = .placed, d.store)

end

end Specificity
