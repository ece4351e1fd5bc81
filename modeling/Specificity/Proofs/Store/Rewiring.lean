import Mathlib.Data.Finset.Card
import Mathlib.Data.Finset.Range
import Specificity.Proofs.ClauseOrder
import Specificity.Tree.Store

/-!
# Rewiring a store

What an operation does to a store is said in two views: the *bare* nodes,
which carry a clause and triggers but no children, and the lists of children.
Moving nodes about leaves the bare nodes alone. `Store.rewire` gives one node
a new list of children, and linking and unlinking are rewirings.

How two nodes relate is a matter of their clauses. It does not change while
nodes are being moved, and neither does `Store.height`, the number of slots
with a narrower clause, which bounds every way down from a node.
-/

namespace Specificity

/-- A node without its children. -/
def Node.bare (n : Node) : Node := { n with children := [] }

namespace Store

variable {cs : Comparers} {s t : Store}

/-! ## Two views of a store -/

/-- The node in a slot, without its children. -/
def bare (s : Store) (id : NodeId) : Option Node := (s.get? id).map Node.bare

/-- A node is its bare node and its children. -/
theorem get?_eq_bare (s : Store) (id : NodeId) :
    s.get? id = (s.bare id).map fun n => { n with children := s.children id } := by
  unfold bare children
  cases s.get? id <;> rfl

/-- The bare node of a slot that holds a node. -/
theorem bare_eq_some {id : NodeId} {n : Node} (h : s.get? id = some n) :
    s.bare id = some n.bare := by
  rw [bare, h]
  rfl

theorem isSome_bare (s : Store) (id : NodeId) : (s.bare id).isSome = (s.get? id).isSome :=
  Option.isSome_map

theorem children_eq_nil_of_get?_eq_none {id : NodeId} (h : s.get? id = none) :
    s.children id = [] := by
  rw [children, h]

/-- In the store of a tree without triggers there is nothing but the root. -/
theorem get?_initial {v : NodeId} {n : Node} (h : initial.get? v = some n) :
    v = .root ∧ n = .ofClause .empty := by
  obtain ⟨i⟩ := v
  cases i with
  | zero => exact ⟨rfl, (Option.some.inj h).symm⟩
  | succ i => simp [initial, get?] at h

/-- **Two stores are the same** if their slots hold the same nodes and the same
slots are free. -/
theorem ext_get? (hsize : s.slots.size = t.slots.size) (hfree : s.free = t.free)
    (hget : ∀ id, s.get? id = t.get? id) : s = t := by
  obtain ⟨slots, free⟩ := s
  obtain ⟨slots', free'⟩ := t
  obtain rfl : free = free' := hfree
  congr 1
  refine Array.ext hsize fun i hi hi' => ?_
  have h := hget ⟨i⟩
  simp only [get?] at h
  rw [Array.getElem?_eq_getElem hi, Array.getElem?_eq_getElem hi'] at h
  exact h

/-- The slots and their bare nodes of the first store are those of the second. -/
structure Rewired (s t : Store) : Prop where
  /-- There are as many slots. -/
  size : t.slots.size = s.slots.size
  /-- The same slots are free. -/
  free : t.free = s.free
  /-- Clauses and triggers are the same. -/
  bare : ∀ id, t.bare id = s.bare id

namespace Rewired

variable {u : Store}

theorem refl (s : Store) : s.Rewired s := ⟨rfl, rfl, fun _ => rfl⟩

theorem trans (h : s.Rewired t) (h' : t.Rewired u) : s.Rewired u :=
  ⟨h'.size.trans h.size, h'.free.trans h.free, fun id => (h'.bare id).trans (h.bare id)⟩

theorem isSome (h : s.Rewired t) (id : NodeId) : (t.get? id).isSome = (s.get? id).isSome := by
  rw [← isSome_bare, ← isSome_bare, h.bare]

theorem depthBound (h : s.Rewired t) : t.depthBound = s.depthBound := by
  rw [Store.depthBound, Store.depthBound, h.size]

end Rewired

/-! ## Giving a node new children -/

/-- **Rewiring a node**: the store with a node's list of children replaced. -/
def rewire (s : Store) (id : NodeId) (children : List NodeId) : Store :=
  s.update id fun n => { n with children }

theorem get?_rewire (s : Store) (id other : NodeId) (ks : List NodeId) :
    (s.rewire id ks).get? other =
      if other = id then (s.get? other).map fun n => { n with children := ks }
      else s.get? other :=
  get?_update s id other _

theorem slots_size_update (s : Store) (id : NodeId) (f : Node → Node) :
    (s.update id f).slots.size = s.slots.size := Array.size_modify

/-- Changing the children of one node leaves the bare nodes alone. -/
theorem rewired_update {f : Node → Node} (hf : ∀ n, (f n).bare = n.bare) (s : Store)
    (id : NodeId) : s.Rewired (s.update id f) := by
  refine ⟨slots_size_update s id f, rfl, fun other => ?_⟩
  unfold bare
  rw [get?_update]
  split
  · rw [Option.map_map]
    exact congrArg (fun g => Option.map g (s.get? other)) (funext hf)
  · rfl

theorem rewired_rewire (s : Store) (id : NodeId) (ks : List NodeId) :
    s.Rewired (s.rewire id ks) :=
  rewired_update (f := fun n => { n with children := ks }) (fun _ => rfl) s id

theorem children_rewire_of_ne {id other : NodeId} (h : other ≠ id) (s : Store)
    (ks : List NodeId) : (s.rewire id ks).children other = s.children other := by
  unfold children
  rw [get?_rewire, if_neg h]

theorem children_rewire_self {id : NodeId} (h : (s.get? id).isSome = true) (ks : List NodeId) :
    (s.rewire id ks).children id = ks := by
  obtain ⟨n, hn⟩ := Option.isSome_iff_exists.mp h
  unfold children
  rw [get?_rewire, if_pos rfl, hn]
  rfl

/-- Of two rewirings of a node the second counts. -/
theorem rewire_rewire (s : Store) (id : NodeId) (ks ls : List NodeId) :
    (s.rewire id ks).rewire id ls = s.rewire id ls := by
  refine ext_get? ?_ rfl fun other => ?_
  · rw [(rewired_rewire _ _ _).size, (rewired_rewire _ _ _).size, (rewired_rewire _ _ _).size]
  · simp only [get?_rewire]
    split
    · rw [Option.map_map]
      rfl
    · rfl

/-- Giving a node the children it has changes nothing. -/
theorem rewire_children (s : Store) (id : NodeId) : s.rewire id (s.children id) = s := by
  refine ext_get? (rewired_rewire _ _ _).size rfl fun other => ?_
  rw [get?_rewire]
  split
  · next heq =>
    subst heq
    unfold children
    cases s.get? other <;> rfl
  · rfl

/-- **Unlinking is rewiring.** -/
theorem unlink_eq_rewire (s : Store) (id child : NodeId) :
    s.unlink id child = s.rewire id ((s.children id).filter fun c => c ≠ child) := by
  refine ext_get? ?_ rfl fun other => ?_
  · rw [(rewired_rewire _ _ _).size, unlink, slots_size_update]
  · rw [unlink, get?_update, get?_rewire]
    split
    · next heq =>
      subst heq
      unfold children
      cases s.get? other <;> rfl
    · rfl

/-- **Linking is rewiring**, for a child that is new. -/
theorem link_eq_rewire {id child : NodeId} (h : child ∉ s.children id) :
    s.link id child = s.rewire id (s.children id ++ [child]) := by
  refine ext_get? ?_ rfl fun other => ?_
  · rw [(rewired_rewire _ _ _).size, link, slots_size_update]
  · rw [link, get?_update, get?_rewire]
    split
    · next heq =>
      subst heq
      unfold children at h ⊢
      cases hget : s.get? other with
      | none => rfl
      | some n =>
        rw [hget] at h
        simp only [Option.map_some, Node.link]
        rw [if_neg (by simpa using h)]
    · rfl

/-- Unlinking several children one after the other. -/
theorem foldl_unlink_eq_rewire (s : Store) (id : NodeId) (ks : List NodeId) :
    ks.foldl (fun s k => s.unlink id k) s =
      s.rewire id ((s.children id).filter fun c => c ∉ ks) := by
  induction ks generalizing s with
  | nil => simp [rewire_children]
  | cons k ks ih =>
    rw [List.foldl_cons, ih, unlink_eq_rewire, rewire_rewire]
    cases hstored : s.get? id with
    | none =>
      rw [children_eq_nil_of_get?_eq_none hstored, List.filter_nil, List.filter_nil]
      rw [children_eq_nil_of_get?_eq_none, List.filter_nil]
      rw [get?_rewire, if_pos rfl, hstored]
      rfl
    | some n =>
      rw [children_rewire_self (by rw [hstored]; rfl), List.filter_filter]
      congr 1
      refine List.filter_congr fun c _ => ?_
      simp [Bool.and_comm]

/-! ## How nodes relate -/

/-- Two stored nodes relate as their clauses do. -/
theorem relate_eq {a b : NodeId} {m n : Node} (ha : s.get? a = some m)
    (hb : s.get? b = some n) : s.relate cs a b = m.clause.relate cs n.clause := by
  rw [relate, ha, hb]

/-- **Relationships are a matter of clauses.** -/
theorem relate_congr (h : ∀ id, (t.get? id).map Node.clause = (s.get? id).map Node.clause)
    (cs : Comparers) : t.relate cs = s.relate cs := by
  have hrelate : ∀ (u : Store) (a b : NodeId), u.relate cs a b =
      (((u.get? a).map Node.clause).bind fun c =>
        ((u.get? b).map Node.clause).map fun d => c.relate cs d).getD .incomparable := by
    intro u a b
    unfold relate
    cases u.get? a <;> cases u.get? b <;> rfl
  funext a b
  rw [hrelate, hrelate, h, h]

theorem clause_bare (s : Store) (id : NodeId) :
    (s.bare id).map Node.clause = (s.get? id).map Node.clause := by
  unfold bare
  rw [Option.map_map]
  rfl

/-- Rewiring keeps relationships. -/
theorem Rewired.relate (h : s.Rewired t) (cs : Comparers) : t.relate cs = s.relate cs :=
  relate_congr (fun id => by rw [← clause_bare, ← clause_bare, h.bare]) cs

/-- Two nodes that relate at all are stored. -/
theorem isSome_of_relate {a b : NodeId} (h : s.relate cs a b ≠ .incomparable) :
    (s.get? a).isSome = true ∧ (s.get? b).isSome = true := by
  unfold Store.relate at h
  cases ha : s.get? a <;> cases hb : s.get? b <;> simp_all

/-- **Nodes are judged in an orderly way** under a lawful registry. -/
theorem orderly_relate (hcs : cs.Lawful) (s : Store) :
    Relationship.Orderly (s.relate cs) where
  swap a b := by
    unfold Store.relate
    cases s.get? a <;> cases s.get? b <;>
      first | rfl | exact Clause.relate_swap cs _ _
  trans a b c hab hbc := by
    unfold Store.relate at *
    cases ha : s.get? a <;> cases hb : s.get? b <;> cases hc : s.get? c <;>
      simp only [ha, hb, hc, Relationship.covers_incomparable, Bool.false_eq_true] at hab hbc ⊢
    exact (Clause.orderly_relate hcs).trans _ _ _ hab hbc

/-- A stored node is equal to itself under a lawful registry. -/
theorem relate_self (hcs : cs.Lawful) {a : NodeId} (h : (s.get? a).isSome = true) :
    s.relate cs a a = .equal := by
  obtain ⟨n, hn⟩ := Option.isSome_iff_exists.mp h
  rw [relate_eq hn hn, Clause.relate_self hcs]

/-- A stored node is at most as wide as itself. -/
theorem isCovered_self (hcs : cs.Lawful) {a : NodeId} (h : (s.get? a).isSome = true) :
    (s.relate cs a a).isCovered = true := Relationship.isCovered_of_equal (relate_self hcs h)

/-! ## Height -/

/-- **The height of a node**: the number of slots with a narrower clause. -/
def height (cs : Comparers) (s : Store) (id : NodeId) : Nat :=
  ((Finset.range s.slots.size).filter fun i => s.relate cs ⟨i⟩ id = .specializes).card

theorem Rewired.height (h : s.Rewired t) (cs : Comparers) : t.height cs = s.height cs := by
  funext id
  rw [Store.height, Store.height, h.size, h.relate]

theorem index_lt_of_isSome {id : NodeId} (h : (s.get? id).isSome = true) :
    id.index < s.slots.size := by
  by_contra hge
  rw [get?, Array.getElem?_eq_none (Nat.not_lt.mp hge)] at h
  exact Bool.false_ne_true h

/-- **A narrower node is less high.** -/
theorem height_lt (hcs : cs.Lawful) {a b : NodeId} (h : s.relate cs a b = .specializes) :
    s.height cs a < s.height cs b := by
  have hord := orderly_relate hcs s
  have ha : (s.get? a).isSome = true := (isSome_of_relate (by rw [h]; decide)).1
  refine Finset.card_lt_card (Finset.ssubset_iff_of_subset ?_ |>.mpr ⟨a.index, ?_, ?_⟩)
  · intro i hi
    rw [Finset.mem_filter] at hi ⊢
    exact ⟨hi.1, hord.specializes_trans hi.2 h⟩
  · exact Finset.mem_filter.mpr ⟨Finset.mem_range.mpr (index_lt_of_isSome ha), h⟩
  · intro hmem
    exact hord.specializes_irrefl a (Finset.mem_filter.mp hmem).2

/-- No node is higher than there are slots. -/
theorem height_le_size (cs : Comparers) (s : Store) (a : NodeId) :
    s.height cs a ≤ s.slots.size :=
  (Finset.card_filter_le _ _).trans_eq (Finset.card_range _)

/-- A stored node is less high than there are slots. -/
theorem height_lt_size (hcs : cs.Lawful) {a : NodeId} (h : (s.get? a).isSome = true) :
    s.height cs a < s.slots.size := by
  have hlt : s.height cs a < (Finset.range s.slots.size).card := by
    refine Finset.card_lt_card (Finset.ssubset_iff_of_subset (Finset.filter_subset _ _)
      |>.mpr ⟨a.index, Finset.mem_range.mpr (index_lt_of_isSome h), fun hmem => ?_⟩)
    exact (orderly_relate hcs s).specializes_irrefl a (Finset.mem_filter.mp hmem).2
  rwa [Finset.card_range] at hlt

/-- **The fuel of a descent** exceeds the height of every node, by one at least. -/
theorem height_succ_lt_depthBound (hcs : cs.Lawful) {a : NodeId}
    (h : (s.get? a).isSome = true) : s.height cs a + 1 < s.depthBound := by
  have hlt := height_lt_size hcs h
  have hle : s.slots.size + 1 ≤ (s.slots.size + 1) * (s.slots.size + 1) :=
    Nat.le_mul_of_pos_left _ (Nat.succ_pos _)
  unfold depthBound
  omega

end Store

end Specificity
