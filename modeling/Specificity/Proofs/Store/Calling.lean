import Mathlib.Data.List.Perm.Subperm
import Specificity.Proofs.Store.Splicing
import Specificity.Proofs.Store.Upkeep

/-!
# The calls that operations make

`Store.place`, `Store.sink` and `Store.withdrawBelow` call themselves on a store that they are
about to change. They are given fuel, and what they would do without it, whether they would come
to an end at all, cannot be read off their results: out of fuel they just stop. So the calls are
looked at in themselves. `Call.Makes` says which call makes which, by what the caller finds when
it starts and what the calls made before left behind, whatever fuel those had. None that draws on
the fuel of its caller is missed (`Call.Agree.succ`): where two amounts of fuel make no difference
to the calls that are made, one more of each makes no difference to the caller.

It is not the shape of the store that ends the calls, since they rewrite it: a placing goes down
from the target, or turns to the candidate and goes on with a child that it has just taken from
the target. But whatever the operations do, the children of a node stay narrower than it
(`Store.Downward`), and so every call in a descent, a withdrawal or a placing is made at a
narrower node than the one before (`Call.InOrder`). The order of the clauses does not change,
and the number of narrower ones bounds them all (`Call.rank`).
-/

namespace Specificity

namespace Store

variable {α : Type} {cs : Comparers} {r : Register α} {trigger : TriggerId} {s t u : Store}
  {N : Set NodeId} {here target candidate child incoming : NodeId} {fuel fuel' : Nat}

/-! ## Stores in which all ways lead down -/

/-- **All ways lead down** among the nodes `N` of `t`, a store with the slots and the clauses
of `s`. -/
structure Downward (cs : Comparers) (N : Set NodeId) (s t : Store) : Prop where
  /-- There are as many slots. -/
  size : t.slots.size = s.slots.size
  /-- Nodes have the clauses they had. -/
  clause : ∀ v, (t.get? v).map Node.clause = (s.get? v).map Node.clause
  /-- The children of a member are narrower members. -/
  child : ∀ v ∈ N, ∀ k ∈ t.children v, k ∈ N ∧ s.relate cs k v = .specializes

namespace Downward

theorem relate (h : Downward cs N s t) : t.relate cs = s.relate cs := relate_congr h.clause cs

theorem depthBound (h : Downward cs N s t) : t.depthBound = s.depthBound := by
  rw [Store.depthBound, Store.depthBound, h.size]

/-- Another store with the slots and the clauses, in which every child is an old one or a
narrower member. -/
theorem of_children (h : Downward cs N s t) (hsize : u.slots.size = t.slots.size)
    (hclause : ∀ v, (u.get? v).map Node.clause = (t.get? v).map Node.clause)
    (hchild : ∀ v, ∀ k ∈ u.children v,
      k ∈ t.children v ∨ k ∈ N ∧ s.relate cs k v = .specializes) : Downward cs N s u where
  size := hsize.trans h.size
  clause v := (hclause v).trans (h.clause v)
  child v hv k hk := (hchild v k hk).elim (h.child v hv k) id

/-- A change to one node that keeps its clause and its children. -/
theorem update (h : Downward cs N s t) (id : NodeId) {f : Node → Node}
    (hclause : ∀ n, (f n).clause = n.clause) (hchildren : ∀ n, (f n).children = n.children) :
    Downward cs N s (t.update id f) :=
  h.of_children (slots_size_update t id f) (clause_update hclause t id) fun v k hk => by
    rw [children_update hchildren] at hk
    exact .inl hk

theorem unlink (h : Downward cs N s t) (id child : NodeId) :
    Downward cs N s (t.unlink id child) := by
  refine h.of_children (slots_size_update t id _)
    (clause_update (f := Node.unlink child) (fun _ => rfl) t id) fun v k hk => ?_
  rw [children_unlink] at hk
  split at hk
  · exact .inl (List.mem_filter.mp hk).1
  · exact .inl hk

theorem link (h : Downward cs N s t) (hchild : child ∈ N)
    (hbelow : s.relate cs child here = .specializes) : Downward cs N s (t.link here child) := by
  have hclause : ∀ n : Node, (n.link child).clause = n.clause := fun n => by
    unfold Node.link
    split <;> rfl
  refine h.of_children (slots_size_update t here _) (clause_update hclause t here)
    fun v k hk => ?_
  rcases (mem_children_link t here v child k).mp hk with hk | ⟨rfl, -, rfl⟩
  · exact .inl hk
  · exact .inr ⟨hchild, hbelow⟩

theorem foldl {ι : Type} {step : Store → ι → Store} {is : List ι} (h : Downward cs N s t)
    (hstep : ∀ u, Downward cs N s u → ∀ i ∈ is, Downward cs N s (step u i)) :
    Downward cs N s (is.foldl step t) := List.foldlRecOn is step h hstep

/-! ### Placing -/

/-- Below a child that is wider there is a place for the candidate. -/
theorem below (h : Downward cs N s t) (htarget : target ∈ N)
    (hpos : t.position cs candidate (t.children target) = .below child) :
    child ∈ N ∧ s.relate cs child target = .specializes ∧
      s.relate cs candidate child = .specializes := by
  obtain ⟨hmem, hrel⟩ := position_below hpos
  obtain ⟨hchild, hbelow⟩ := h.child target htarget child hmem
  exact ⟨hchild, hbelow, h.relate ▸ hrel⟩

/-- Below the candidate there is a place for the children that it is wider than. -/
theorem beside (hcs : cs.Lawful) (h : Downward cs N s t) (htarget : target ∈ N)
    {narrower : List NodeId}
    (hpos : t.position cs candidate (t.children target) = .beside narrower) :
    ∀ k ∈ narrower, k ∈ N ∧ s.relate cs k candidate = .specializes := by
  intro k hk
  obtain ⟨hmem, hrel⟩ := position_beside hpos k hk
  rw [h.relate] at hrel
  exact ⟨(h.child target htarget k hmem).1, (orderly_relate hcs s).generalizes_iff.mp hrel⟩

/-- **Placing a narrower member** keeps all ways leading down. The induction is on the fuel. -/
theorem place (hcs : cs.Lawful) (h : Downward cs N s t) (fuel : Nat) (htarget : target ∈ N)
    (hcandidate : candidate ∈ N) (hbelow : s.relate cs candidate target = .specializes) :
    Downward cs N s (t.place cs fuel target candidate) := by
  induction fuel generalizing t target candidate with
  | zero => exact h
  | succ fuel ih =>
    rw [Store.place]
    split
    · exact h
    · split
      · exact h
      · next child hpos =>
        obtain ⟨hchild, -, hrel⟩ := h.below htarget hpos
        exact ih h hchild hcandidate hrel
      · next narrower hpos =>
        refine link (h.foldl fun u hu k hk => ?_) hcandidate hbelow
        obtain ⟨hmem, hrel⟩ := h.beside hcs htarget hpos k hk
        exact ih (hu.unlink target k) hcandidate hmem hrel

/-- Handing over keeps all ways leading down. -/
theorem handOver (hcs : cs.Lawful) (h : Downward cs N s t) (fuel : Nat) (target : NodeId)
    (hcandidate : candidate ∈ N) (hchild : child ∈ N)
    (hbelow : s.relate cs child candidate = .specializes) :
    Downward cs N s (t.handOver cs fuel target candidate child) :=
  (h.unlink target child).place hcs fuel hcandidate hchild hbelow

/-! ### Descents -/

section

variable [DecidableEq α] {d : Descent}

/-- **Where the incoming node meets another one**, all ways still lead down. -/
theorem meet (hcs : cs.Lawful) (h : Downward cs N s d.store) (hincoming : incoming ∈ N)
    (hhere : here ∈ N) {visit : NodeId → Descent → Outcome × Descent}
    (hvisit : ∀ k ∈ N, ∀ d : Descent, Downward cs N s d.store →
      Downward cs N s (visit k d).2.store) :
    Downward cs N s (Store.meet cs r trigger incoming visit here d).2.store := by
  have hall : Downward cs N s (visitAll visit (d.store.children here) d).2.store :=
    visitAll_invariant visit _ d (fun d => Downward cs N s d.store)
      (fun k hk a ha => hvisit k (h.child here hhere k hk).1 a ha) h
  unfold Store.meet
  split
  · exact h.of_children slots_size_join clause_join fun v k hk => by
      rw [children_join] at hk
      exact .inl hk
  · next hrel => exact h.place hcs _ hincoming hhere (h.relate ▸ hrel)
  · exact hall
  · next hrel =>
    rw [h.relate] at hrel
    dsimp only
    split
    · refine link (hall.foldl fun u hu k _ => hu.unlink here k) hincoming ?_
      exact (orderly_relate hcs s).generalizes_iff.mp hrel
    · exact hall

/-- **A descent** keeps all ways leading down. The induction is on the fuel. -/
theorem sink (hcs : cs.Lawful) (hincoming : incoming ∈ N) (fuel : Nat) (hhere : here ∈ N)
    (h : Downward cs N s d.store) :
    Downward cs N s (Store.sink cs r trigger incoming fuel here d).2.store := by
  induction fuel generalizing here d with
  | zero => exact h
  | succ fuel ih =>
    rw [Store.sink]
    split
    · exact h
    · exact h.meet hcs hincoming hhere fun k hk d hd => ih hk hd

end

/-! ### Withdrawals -/

variable {w : Withdrawal}

/-- Taking over keeps all ways leading down. -/
theorem takeOver (hcs : cs.Lawful) (h : Downward cs N s t) (hhere : here ∈ N) (hchild : child ∈ N)
    (hbelow : s.relate cs child here = .specializes) :
    Downward cs N s (t.takeOver cs here child) := h.place hcs _ hhere hchild hbelow

/-- The children of a child are narrower than the node itself. -/
theorem grandchild (hcs : cs.Lawful) (h : Downward cs N s t) (hchild : child ∈ N)
    (hbelow : s.relate cs child here = .specializes) :
    ∀ g ∈ t.children child, g ∈ N ∧ s.relate cs g here = .specializes := by
  intro g hg
  obtain ⟨hmem, hrel⟩ := h.child child hchild g hg
  exact ⟨hmem, (orderly_relate hcs s).specializes_trans hrel hbelow⟩

/-- **Splicing out a narrower member** keeps all ways leading down. -/
theorem splice (hcs : cs.Lawful) (h : Downward cs N s t) (hhere : here ∈ N) (hchild : child ∈ N)
    (hbelow : s.relate cs child here = .specializes) :
    Downward cs N s (t.splice cs here child) := by
  have hunlinked := h.unlink here child
  refine hunlinked.foldl fun u hu g hg => ?_
  obtain ⟨hmem, hrel⟩ := hunlinked.grandchild hcs hchild hbelow g hg
  exact hu.takeOver hcs hhere hmem hrel

/-- Splicing out several narrower members. -/
theorem foldl_splice (hcs : cs.Lawful) (h : Downward cs N s t) (hhere : here ∈ N)
    {ks : List NodeId} (hks : ∀ k ∈ ks, k ∈ N ∧ s.relate cs k here = .specializes) :
    Downward cs N s (ks.foldl (Store.splice cs here) t) :=
  h.foldl fun _ hu k hk => hu.splice hcs hhere (hks k hk).1 (hks k hk).2

theorem withdrawHere (h : Downward cs N s w.store) (here : NodeId) :
    Downward cs N s (Store.withdrawHere cs r trigger here w).store := by
  rw [(Splicing.withdrawHere_eq cs r trigger here w).2.1]
  exact h.update here (Node.clause_without _ _) (Node.children_without _ _)

/-- **A withdrawal** keeps all ways leading down. The induction is on the fuel. -/
theorem withdrawBelow (hcs : cs.Lawful) (fuel : Nat) (hhere : here ∈ N)
    (h : Downward cs N s w.store) :
    Downward cs N s (Store.withdrawBelow cs r trigger fuel here w).store := by
  induction fuel generalizing here w with
  | zero => exact h
  | succ fuel ih =>
    by_cases hmet : w.met.has here = true
    · rw [Store.withdrawBelow, if_pos hmet]
      exact h
    · rw [withdrawBelow_succ hmet]
      have hopened : Downward cs N s (Store.withdrawHere cs r trigger here w).store :=
        h.withdrawHere here
      have hall := visitAll_invariant (withdrawChild cs r trigger fuel) _ _
        (fun w => Downward cs N s w.store)
        (fun k hk a ha => ih (hopened.child here hhere k hk).1 ha) hopened
      exact hall.foldl_splice hcs hhere fun k hk =>
        hopened.child here hhere k (mem_of_mem_selected hk)

/-- Withdrawing from a node and its children keeps all ways leading down. -/
theorem withdrawChildren (hcs : cs.Lawful) (h : Downward cs N s w.store) (hhere : here ∈ N)
    (fuel : Nat) : Downward cs N s (Store.withdrawChildren cs r trigger fuel here w).2.store := by
  have hopened : Downward cs N s (Store.withdrawHere cs r trigger here w).store :=
    h.withdrawHere here
  exact visitAll_invariant (withdrawChild cs r trigger fuel) _ _ (fun w => Downward cs N s w.store)
    (fun k hk a ha => ha.withdrawBelow hcs fuel (hopened.child here hhere k hk).1) hopened

end Downward

/-- In a covering diagram all ways lead down. -/
theorem Diagram.downward (h : s.Diagram cs N) : Downward cs N s s where
  size := rfl
  clause _ := rfl
  child v hv k hk := ⟨(h.covers v hv).mem k hk, (h.covers v hv).narrower k hk⟩

/-- With an incoming node, which has no children yet, all ways lead down. -/
theorem Incoming.downward [DecidableEq α] {fate : Outcome}
    (h : Incoming cs r trigger s N incoming fate) : Downward cs (N ∪ {incoming}) s s where
  size := rfl
  clause _ := rfl
  child := by
    rintro v (hv | rfl) k hk
    · obtain ⟨hmem, hbelow⟩ := h.diagram.downward.child v hv k hk
      exact ⟨.inl hmem, hbelow⟩
    · rw [h.leaf] at hk
      exact absurd hk List.not_mem_nil

/-! ## Calls -/

/-- **A call** of one of the operations that call themselves. -/
inductive Call where
  /-- A node is placed below another one. -/
  | place (s : Store) (target candidate : NodeId)
  /-- An incoming node is seen at `here` in its descent. -/
  | sink (incoming here : NodeId) (d : Descent)
  /-- A trigger is withdrawn at and below `here`. -/
  | withdraw (here : NodeId) (w : Withdrawal)

namespace Call

/-- The store that a call is made on. -/
def store : Call → Store
  | place s _ _ => s
  | sink _ _ d => d.store
  | withdraw _ w => w.store

variable [DecidableEq α] {outer inner : Call}

/-- **Which call makes which**, to store a clause of a trigger or to withdraw one. The nodes
that a call goes through are split at the one that the call is made for; what was done for the
earlier ones may have had any fuel. -/
inductive Makes (cs : Comparers) (r : Register α) (trigger : TriggerId) : Call → Call → Prop where
  /-- The candidate belongs below a child of the target. -/
  | below {s : Store} {target candidate child : NodeId} (distinct : target ≠ candidate)
      (position : s.position cs candidate (s.children target) = .below child) :
      Makes cs r trigger (place s target candidate) (place s child candidate)
  /-- The candidate is handed a child of the target. -/
  | handOver {s : Store} {target candidate child : NodeId} {earlier later : List NodeId}
      (distinct : target ≠ candidate)
      (position : s.position cs candidate (s.children target) =
        .beside (earlier ++ child :: later)) (fuel : Nat) :
      Makes cs r trigger (place s target candidate)
        (place ((earlier.foldl (Store.handOver cs fuel target candidate) s).unlink target child)
          candidate child)
  /-- A narrower node is placed below the incoming one. -/
  | adopt {incoming here : NodeId} {d : Descent} (new : d.outcomes.get? here = none)
      (narrower : d.store.relate cs here incoming = .specializes) :
      Makes cs r trigger (sink incoming here d) (place d.store incoming here)
  /-- The incoming node is seen at a child of a node that is wider or incomparable. -/
  | descend {incoming here child : NodeId} {d : Descent} {earlier later : List NodeId}
      (new : d.outcomes.get? here = none)
      (relation : d.store.relate cs here incoming = .incomparable ∨
        d.store.relate cs here incoming = .generalizes)
      (children : d.store.children here = earlier ++ child :: later) (fuel : Nat) :
      Makes cs r trigger (sink incoming here d)
        (sink incoming child (visitAll (Store.sink cs r trigger incoming fuel) earlier d).2)
  /-- The trigger is withdrawn at and below a child. -/
  | withdraw {here child : NodeId} {w : Withdrawal} {earlier later : List NodeId}
      (new : ¬ w.met.has here = true)
      (children : (withdrawHere cs r trigger here w).store.children here =
        earlier ++ child :: later) (fuel : Nat) :
      Makes cs r trigger (withdraw here w)
        (withdraw child (visitAll (withdrawChild cs r trigger fuel) earlier
          (withdrawHere cs r trigger here w)).2)
  /-- A child of a silent child is taken over. -/
  | takeOver {here child grandchild : NodeId} {w w' : Withdrawal} {silent : List Bool} {s : Store}
      {earlier later before after : List NodeId} (new : ¬ w.met.has here = true) (fuel : Nat)
      (withdrawn : withdrawChildren cs r trigger fuel here w = (silent, w'))
      (silenced : selected ((withdrawHere cs r trigger here w).store.children here) silent =
        earlier ++ child :: later)
      (unlinked : (earlier.foldl (splice cs here) w'.store).unlink here child = s)
      (grandchildren : s.children child = before ++ grandchild :: after) :
      Makes cs r trigger (withdraw here w)
        (place (before.foldl (Store.takeOver cs here) s) here grandchild)

/-! ### No call is missed -/

/-- **Do two amounts of fuel make no difference** to a call? -/
def Agree (cs : Comparers) (r : Register α) (trigger : TriggerId) (fuel fuel' : Nat) : Call → Prop
  | place s target candidate => s.place cs fuel target candidate = s.place cs fuel' target candidate
  | sink incoming here d => Store.sink cs r trigger incoming fuel here d =
      Store.sink cs r trigger incoming fuel' here d
  | withdraw here w => withdrawBelow cs r trigger fuel here w =
      withdrawBelow cs r trigger fuel' here w

/-- **All that a call depends on are the calls it makes**: if two amounts of fuel make no
difference to these, one more of each makes none to the call. -/
theorem Agree.succ
    (h : ∀ inner, Makes cs r trigger outer inner → inner.Agree cs r trigger fuel fuel') :
    outer.Agree cs r trigger (fuel + 1) (fuel' + 1) := by
  cases outer with
  | place s target candidate =>
    show s.place cs (fuel + 1) target candidate = s.place cs (fuel' + 1) target candidate
    rw [Store.place, Store.place]
    by_cases heq : target = candidate
    · rw [if_pos heq, if_pos heq]
    · rw [if_neg heq, if_neg heq]
      cases hpos : s.position cs candidate (s.children target) with
      | taken => rfl
      | below child => exact h _ (.below heq hpos)
      | beside narrower =>
        have hfold : narrower.foldl (Store.handOver cs fuel target candidate) s =
            narrower.foldl (Store.handOver cs fuel' target candidate) s :=
          foldl_congr_of_split narrower s fun earlier child later hsplit =>
            h _ (.handOver heq (hsplit ▸ hpos) fuel)
        exact congrArg (fun s : Store => s.link target candidate) hfold
  | sink incoming here d =>
    show Store.sink cs r trigger incoming (fuel + 1) here d =
      Store.sink cs r trigger incoming (fuel' + 1) here d
    rw [Store.sink, Store.sink]
    cases hnew : d.outcomes.get? here with
    | some outcome => rfl
    | none =>
      have hvisit (hopen : d.store.relate cs here incoming = .incomparable ∨
          d.store.relate cs here incoming = .generalizes) :
          visitAll (Store.sink cs r trigger incoming fuel) (d.store.children here) d =
            visitAll (Store.sink cs r trigger incoming fuel') (d.store.children here) d :=
        visitAll_congr _ d fun earlier child later hsplit =>
          h _ (.descend hnew hopen hsplit fuel)
      have hmeet : Store.meet cs r trigger incoming (Store.sink cs r trigger incoming fuel) here d =
          Store.meet cs r trigger incoming (Store.sink cs r trigger incoming fuel') here d := by
        unfold Store.meet
        cases hrel : d.store.relate cs here incoming with
        | equal => rfl
        | specializes => rfl
        | incomparable => simp only [hvisit (.inl hrel)]
        | generalizes => simp only [hvisit (.inr hrel)]
      simp only [hmeet]
  | withdraw here w =>
    show withdrawBelow cs r trigger (fuel + 1) here w =
      withdrawBelow cs r trigger (fuel' + 1) here w
    by_cases hmet : w.met.has here = true
    · rw [withdrawBelow, withdrawBelow, if_pos hmet, if_pos hmet]
    · have hvisit : withdrawChildren cs r trigger fuel here w =
          withdrawChildren cs r trigger fuel' here w :=
        visitAll_congr _ _ fun earlier child later hsplit =>
          congrArg (fun w : Withdrawal => (w.store.isSilent child, w))
            (h _ (.withdraw hmet hsplit fuel))
      rw [withdrawBelow_succ hmet, withdrawBelow_succ hmet, hvisit]

/-! ### Calls in order -/

/-- **A call in order**: it is made on a store with the clauses of `s` in which all ways lead down
among the nodes `N`, at members, and a placing is of a narrower member. -/
def InOrder (cs : Comparers) (s : Store) (N : Set NodeId) : Call → Prop
  | place t target candidate => Downward cs N s t ∧ target ∈ N ∧ candidate ∈ N ∧
      s.relate cs candidate target = .specializes
  | sink incoming here d => Downward cs N s d.store ∧ incoming ∈ N ∧ here ∈ N
  | withdraw here w => Downward cs N s w.store ∧ here ∈ N

/-- **The rank of a call**: the number of slots with a narrower clause than the node it is made
at. Descents and withdrawals come before all placings. -/
def rank (cs : Comparers) (s : Store) : Call → Nat
  | place _ target _ => s.height cs target
  | sink _ here _ => s.slots.size + s.height cs here
  | withdraw here _ => s.slots.size + s.height cs here

theorem InOrder.downward (h : outer.InOrder cs s N) : Downward cs N s outer.store := by
  cases outer <;> exact h.1

/-- **Calls in order make calls in order**, and these have a lower rank. -/
theorem InOrder.makes (hcs : cs.Lawful) (h : outer.InOrder cs s N)
    (hmakes : Makes cs r trigger outer inner) :
    inner.InOrder cs s N ∧ inner.rank cs s < outer.rank cs s := by
  cases hmakes with
  | below hne hpos =>
    obtain ⟨hdown, htarget, hcandidate, -⟩ := h
    obtain ⟨hchild, hbelow, hrel⟩ := hdown.below htarget hpos
    exact ⟨⟨hdown, hchild, hcandidate, hrel⟩, height_lt hcs hbelow⟩
  | @handOver t target candidate child earlier later hne hpos fuel =>
    obtain ⟨hdown, htarget, hcandidate, hbelow⟩ := h
    obtain ⟨⟨hchild, hrel⟩, hearlier⟩ := forall_mem_split (hdown.beside hcs htarget hpos)
    have hhanded := hdown.foldl fun u hu k hk =>
      hu.handOver hcs fuel target hcandidate (hearlier k hk).1 (hearlier k hk).2
    exact ⟨⟨hhanded.unlink target child, hcandidate, hchild, hrel⟩, height_lt hcs hbelow⟩
  | @adopt incoming here d hnew hnarrow =>
    obtain ⟨hdown, hincoming, hhere⟩ := h
    rw [hdown.relate] at hnarrow
    -- the incoming node is no matter how wide, but a descent comes before every placing
    have hlt : s.height cs incoming < s.slots.size :=
      height_lt_size hcs (isSome_of_relate (by rw [hnarrow]; decide)).2
    exact ⟨⟨hdown, hincoming, hhere, hnarrow⟩, Nat.lt_add_right _ hlt⟩
  | @descend incoming here child d earlier later hnew hrelation hsplit fuel =>
    obtain ⟨hdown, hincoming, hhere⟩ := h
    obtain ⟨⟨hchild, hbelow⟩, hearlier⟩ := forall_mem_split (hsplit ▸ hdown.child here hhere)
    have hvisited := visitAll_invariant (Store.sink cs r trigger incoming fuel) earlier d
      (fun d => Downward cs N s d.store)
      (fun k hk a ha => ha.sink hcs hincoming fuel (hearlier k hk).1) hdown
    exact ⟨⟨hvisited, hincoming, hchild⟩, Nat.add_lt_add_left (height_lt hcs hbelow) _⟩
  | @withdraw here child w earlier later hnew hsplit fuel =>
    obtain ⟨hdown, hhere⟩ := h
    have hopened : Downward cs N s (withdrawHere cs r trigger here w).store :=
      hdown.withdrawHere here
    obtain ⟨⟨hchild, hbelow⟩, hearlier⟩ := forall_mem_split (hsplit ▸ hopened.child here hhere)
    have hvisited := visitAll_invariant (withdrawChild cs r trigger fuel) earlier _
      (fun w => Downward cs N s w.store)
      (fun k hk a ha => ha.withdrawBelow hcs fuel (hearlier k hk).1) hopened
    exact ⟨⟨hvisited, hchild⟩, Nat.add_lt_add_left (height_lt hcs hbelow) _⟩
  | @takeOver here child grandchild w w' silent t earlier later before after hnew fuel hwithdrawn
      hsilenced hunlinked hsplit =>
    obtain ⟨hdown, hhere⟩ := h
    have hopened : Downward cs N s (withdrawHere cs r trigger here w).store :=
      hdown.withdrawHere here
    have hsilent : ∀ k ∈ earlier ++ child :: later, k ∈ N ∧ s.relate cs k here = .specializes :=
      fun k hk => hopened.child here hhere k (mem_of_mem_selected (hsilenced ▸ hk))
    obtain ⟨⟨hchild, hbelow⟩, hearlier⟩ := forall_mem_split hsilent
    have hall : Downward cs N s (withdrawChildren cs r trigger fuel here w).2.store :=
      hdown.withdrawChildren hcs hhere fuel
    rw [hwithdrawn] at hall
    have ht : Downward cs N s t := by
      rw [← hunlinked]
      exact (hall.foldl_splice hcs hhere hearlier).unlink here child
    obtain ⟨⟨hgrand, hrel⟩, hbefore⟩ :=
      forall_mem_split (hsplit ▸ ht.grandchild hcs hchild hbelow)
    have htaken := ht.foldl fun u hu g hg =>
      hu.takeOver hcs hhere (hbefore g hg).1 (hbefore g hg).2
    have hlt : s.height cs here < s.slots.size :=
      height_lt_size hcs (isSome_of_relate (by rw [hrel]; decide)).2
    exact ⟨⟨htaken, hhere, hgrand, hrel⟩, Nat.lt_add_right _ hlt⟩

/-! ### Calls come to an end -/

/-- **Is a call entered** on the way from another one? -/
def Enters (cs : Comparers) (r : Register α) (trigger : TriggerId) : Call → Call → Prop :=
  Relation.ReflTransGen (Makes cs r trigger)

variable {start call : Call}

/-- Whatever is entered from a call in order is in order. -/
theorem InOrder.enters (hcs : cs.Lawful) (h : start.InOrder cs s N)
    (henters : start.Enters cs r trigger call) : call.InOrder cs s N := by
  induction henters with
  | refl => exact h
  | tail _ hmakes ih => exact (ih.makes hcs hmakes).1

/-- **A call in order comes to an end**: there is no infinite sequence of calls each of which is
made by the one before. The induction is on the rank. -/
theorem InOrder.acc (hcs : cs.Lawful) (h : call.InOrder cs s N) :
    Acc (fun inner outer => Makes cs r trigger outer inner) call := by
  induction hrank : call.rank cs s using Nat.strong_induction_on generalizing call with
  | _ n ih =>
    refine Acc.intro call fun inner hmakes => ?_
    obtain ⟨hinner, hlt⟩ := h.makes hcs hmakes
    exact ih _ (hrank ▸ hlt) hinner rfl

/-- **Fuel beyond the rank** makes no difference. The induction is on the fuel. -/
theorem InOrder.agree (hcs : cs.Lawful) (h : call.InOrder cs s N)
    (hfuel : call.rank cs s < fuel) (hfuel' : call.rank cs s < fuel') :
    call.Agree cs r trigger fuel fuel' := by
  induction fuel generalizing call fuel' with
  | zero => exact absurd hfuel (Nat.not_lt_zero _)
  | succ fuel ih =>
    obtain ⟨fuel', rfl⟩ := Nat.exists_eq_succ_of_ne_zero (Nat.ne_zero_of_lt hfuel')
    refine Agree.succ fun inner hmakes => ?_
    obtain ⟨hinner, hlt⟩ := h.makes hcs hmakes
    exact ih hinner (Nat.lt_of_lt_of_le hlt (Nat.le_of_lt_succ hfuel))
      (Nat.lt_of_lt_of_le hlt (Nat.le_of_lt_succ hfuel'))

/-- The fuel that operations are given is beyond the rank. -/
theorem rank_lt_depthBound (cs : Comparers) (s : Store) (call : Call) :
    call.rank cs s < s.depthBound := by
  have hsquare : s.depthBound =
      s.slots.size * s.slots.size + s.slots.size + (s.slots.size + 1) := by
    rw [depthBound, Nat.mul_succ, Nat.succ_mul]
  cases call with
  | place t target candidate =>
    have hle := height_le_size cs s target
    show s.height cs target < _
    omega
  | sink incoming here d =>
    have hle := height_le_size cs s here
    show s.slots.size + s.height cs here < _
    omega
  | withdraw here w =>
    have hle := height_le_size cs s here
    show s.slots.size + s.height cs here < _
    omega

/-- A placing makes placings only, with a narrower target. -/
theorem InOrder.place_makes (h : (place t target candidate).InOrder cs s N)
    (hmakes : Makes cs r trigger (place t target candidate) inner) :
    ∃ t' target' candidate', inner = place t' target' candidate' ∧
      s.relate cs target' target = .specializes := by
  obtain ⟨hdown, htarget, -, hbelow⟩ := h
  cases hmakes with
  | below _ hpos => exact ⟨_, _, _, rfl, (hdown.below htarget hpos).2.1⟩
  | handOver _ _ _ => exact ⟨_, _, _, rfl, hbelow⟩

/-- **A placing goes down**: the targets of nested placings, and the candidate of the last one,
are members each of which is narrower than the one before. -/
theorem InOrder.exists_isChain (hcs : cs.Lawful) {nested : List Call}
    (h : (place t target candidate).InOrder cs s N)
    (hnested : List.IsChain (Makes cs r trigger) (place t target candidate :: nested)) :
    ∃ vs : List NodeId, vs.length = nested.length + 1 ∧ (∀ v ∈ vs, v ∈ N) ∧
      List.IsChain (fun v k => s.relate cs k v = .specializes) (target :: vs) := by
  induction nested generalizing t target candidate with
  | nil =>
    obtain ⟨-, -, hcandidate, hbelow⟩ := h
    exact ⟨[candidate], rfl, List.forall_mem_singleton.mpr hcandidate, List.isChain_pair.mpr hbelow⟩
  | cons inner nested ih =>
    obtain ⟨hmakes, hrest⟩ := List.isChain_cons_cons.mp hnested
    obtain ⟨t', target', candidate', rfl, hbelow⟩ := h.place_makes hmakes
    have hinner := (h.makes hcs hmakes).1
    obtain ⟨vs, hlength, hmem, hchain⟩ := ih hinner hrest
    exact ⟨target' :: vs, by rw [List.length_cons, List.length_cons, hlength],
      List.forall_mem_cons.mpr ⟨hinner.2.1, hmem⟩, List.isChain_cons_cons.mpr ⟨hbelow, hchain⟩⟩

/-- **Nested placings are fewer than the members**: no member is narrower than itself, so the
targets and the last candidate are as many different ones. -/
theorem InOrder.length_lt (hcs : cs.Lawful) {nested : List Call} {members : List NodeId}
    (h : (place t target candidate).InOrder cs s N)
    (hnested : List.IsChain (Makes cs r trigger) (place t target candidate :: nested))
    (hmembers : ∀ v ∈ N, v ∈ members) :
    (place t target candidate :: nested).length < members.length := by
  have hord := orderly_relate hcs s
  obtain ⟨vs, hlength, hmem, hchain⟩ := h.exists_isChain hcs hnested
  have htrans : Trans (fun v k => s.relate cs k v = .specializes)
      (fun v k => s.relate cs k v = .specializes) (fun v k => s.relate cs k v = .specializes) :=
    ⟨fun hab hbc => hord.specializes_trans hbc hab⟩
  have hnodup : (target :: vs).Nodup := hchain.pairwise.imp fun {a b} hba => by
    rintro rfl
    exact hord.specializes_irrefl _ hba
  have hsubset : target :: vs ⊆ members := by
    intro v hv
    rcases List.mem_cons.mp hv with rfl | hv
    · exact hmembers v h.2.1
    · exact hmembers v (hmem v hv)
  have hle := (List.subperm_of_subset hnodup hsubset).length_le
  rw [List.length_cons, hlength] at hle
  exact hle

/-- **A call terminates**, and all calls it enters do. Where a placing is entered, the candidate
is narrower than the target; where it goes on, the new target is narrower than the old one; and
so placings are nested no deeper than there are nodes below the root. -/
structure Terminates (cs : Comparers) (r : Register α) (trigger : TriggerId) (start : Call) :
    Prop where
  /-- There is no infinite sequence of calls each of which is made by the one before. -/
  wellFounded : Acc (fun inner outer => Makes cs r trigger outer inner) start
  /-- A placing is of a narrower node. -/
  narrower : ∀ t target candidate, start.Enters cs r trigger (place t target candidate) →
    t.relate cs candidate target = .specializes
  /-- A placing that makes another one makes it at a narrower target. -/
  descends : ∀ t target candidate t' target' candidate',
    start.Enters cs r trigger (place t target candidate) →
    Makes cs r trigger (place t target candidate) (place t' target' candidate') →
    t'.relate cs target' target = .specializes
  /-- Placings are nested no deeper than there are nodes. -/
  depth : ∀ t target candidate nested, start.Enters cs r trigger (place t target candidate) →
    List.IsChain (Makes cs r trigger) (place t target candidate :: nested) →
    (place t target candidate :: nested).length ≤ start.store.preorder.length
  /-- No call runs out of the fuel that operations are given. -/
  settled : ∀ call, start.Enters cs r trigger call → ∀ fuel, call.store.depthBound ≤ fuel →
    call.Agree cs r trigger fuel call.store.depthBound

/-- **A call returns** what its operation gives: it comes to an end, and no call it enters runs
out of the fuel that operations are given. -/
structure Returns (cs : Comparers) (r : Register α) (trigger : TriggerId) (start : Call) :
    Prop where
  /-- There is no infinite sequence of calls each of which is made by the one before. -/
  wellFounded : Acc (fun inner outer => Makes cs r trigger outer inner) start
  /-- More fuel makes no difference to any call. -/
  settled : ∀ call, start.Enters cs r trigger call → ∀ fuel, call.store.depthBound ≤ fuel →
    call.Agree cs r trigger fuel call.store.depthBound

theorem Terminates.returns (h : start.Terminates cs r trigger) : start.Returns cs r trigger :=
  ⟨h.wellFounded, h.settled⟩

/-- **Calls in order terminate.** Among the members there may be one node more than those below
the root, as the incoming one is. -/
theorem InOrder.terminates (hcs : cs.Lawful) (h : start.InOrder cs start.store N)
    (members : List NodeId) (hmembers : ∀ v ∈ N, v ∈ members)
    (hlength : members.length ≤ start.store.preorder.length + 1) :
    start.Terminates cs r trigger where
  wellFounded := h.acc hcs
  narrower t target candidate henters := by
    obtain ⟨hdown, -, -, hbelow⟩ := h.enters hcs henters
    rwa [hdown.relate]
  descends t target candidate t' target' candidate' henters hmakes := by
    have houter := h.enters hcs henters
    obtain ⟨u, v, k, heq, hbelow⟩ := houter.place_makes hmakes
    obtain ⟨rfl, rfl, rfl⟩ := place.inj heq
    rwa [(houter.makes hcs hmakes).1.1.relate]
  depth t target candidate nested henters hnested :=
    Nat.le_of_lt_succ (((h.enters hcs henters).length_lt hcs hnested hmembers).trans_le hlength)
  settled call henters fuel hfuel := by
    have hcall := h.enters hcs henters
    rw [hcall.downward.depthBound] at hfuel ⊢
    have hlt := rank_lt_depthBound cs start.store call
    exact hcall.agree hcs (hlt.trans_le hfuel) hlt

end Call

end Store

end Specificity
