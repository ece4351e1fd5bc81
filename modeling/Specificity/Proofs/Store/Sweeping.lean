import Mathlib.Algebra.BigOperators.Fin
import Mathlib.Algebra.BigOperators.Group.Finset.Basic
import Specificity.Proofs.Store.Inserting

/-!
# Walking over a store and sweeping it

The walk from the root lists just the nodes that are reached from it. Its fuel
suffices because a node leaves the stack once for each edge that leads to it:
the edges out of the nodes still to come, together with the stack, become one
fewer with every step (`Store.openEdges`). Sweeping therefore empties all
slots that are not reached and leaves the others alone; what it keeps of a
covering diagram is the diagram.
-/

namespace Specificity

namespace Store

variable {cs : Comparers} {s : Store} {V : Set NodeId} {seen : Marks Unit}

/-! ## The fuel of a walk -/

/-- The number of edges out of nodes that were not seen. -/
def openEdges (s : Store) (seen : Marks Unit) : Nat :=
  ∑ i ∈ Finset.range s.slots.size, if seen.has ⟨i⟩ then 0 else (s.children ⟨i⟩).length

/-- At the start of a walk all edges are open. -/
theorem openEdges_empty (s : Store) : s.openEdges .empty = s.edgeCount := by
  have hchildren : ∀ i : Fin s.slots.toList.length,
      (if (Marks.empty : Marks Unit).has ⟨i⟩ then 0 else (s.children ⟨i⟩).length)
        = (s.slots.toList[i.1]).elim 0 fun n => n.children.length := by
    intro i
    have hi : i.1 < s.slots.size := i.2
    rw [if_neg (Marks.not_has_empty _), children, get?,
      Array.getElem?_eq_getElem hi, Option.join_some, Array.getElem_toList]
    cases s.slots[i.1] <;> rfl
  have hsum : s.openEdges .empty = ∑ i : Fin s.slots.toList.length,
      (s.slots.toList[i.1]).elim 0 fun n => n.children.length := by
    rw [openEdges, ← Array.length_toList, Finset.sum_range]
    exact Finset.sum_congr rfl fun i _ => hchildren i
  rw [hsum, Fin.sum_univ_fun_getElem s.slots.toList fun slot : Option Node =>
    slot.elim 0 fun n => n.children.length]
  rw [edgeCount, ← Array.foldl_toList, List.sum_eq_foldl_nat, List.foldl_map]

/-- **Seeing a node** closes the edges that lead out of it. -/
theorem openEdges_set {id : NodeId} (hnew : ¬ seen.has id = true) :
    s.openEdges (seen.set id ()) + (s.children id).length = s.openEdges seen := by
  by_cases hstored : (s.get? id).isSome = true
  · have hmem := Finset.mem_range.mpr (index_lt_of_isSome hstored)
    have hsplit : ∀ f : Nat → Nat, ∑ i ∈ Finset.range s.slots.size, f i =
        ∑ i ∈ (Finset.range s.slots.size).erase id.index, f i + f id.index := fun f =>
      (Finset.sum_erase_add _ f hmem).symm
    rw [openEdges, openEdges, hsplit, hsplit,
      if_pos ((Marks.has_set _ _ _ _).mpr (.inl rfl)), if_neg hnew, Nat.add_zero]
    congr 1
    refine Finset.sum_congr rfl fun i hi => ?_
    have hne : (⟨i⟩ : NodeId) ≠ id := by
      rintro rfl
      exact (Finset.mem_erase.mp hi).1 rfl
    have hsame : (seen.set id ()).has ⟨i⟩ = seen.has ⟨i⟩ := by
      rw [Bool.eq_iff_iff, Marks.has_set]
      exact ⟨fun h => h.resolve_left hne, .inr⟩
    rw [hsame]
  · have hnone : s.get? id = none := by simpa using hstored
    rw [children_eq_nil_of_get?_eq_none hnone, List.length_nil, Nat.add_zero]
    refine Finset.sum_congr rfl fun i _ => ?_
    by_cases heq : (⟨i⟩ : NodeId) = id
    · rw [heq, children_eq_nil_of_get?_eq_none hnone, List.length_nil, ite_self, ite_self]
    · have hsame : (seen.set id ()).has ⟨i⟩ = seen.has ⟨i⟩ := by
        rw [Bool.eq_iff_iff, Marks.has_set]
        exact ⟨fun h => h.resolve_left heq, .inr⟩
      rw [hsame]

/-! ## The nodes of a walk -/

/-- What a walk from a stack lists, when some nodes were seen before: nodes below the
stack, those on the stack that were not seen, and with each node its children. -/
structure Walks (s : Store) (seen : Marks Unit) (stack answer : List NodeId) : Prop where
  below : ∀ v ∈ answer, ∃ u ∈ stack, s.Reaches u v
  taken : ∀ u ∈ stack, seen.has u = true ∨ u ∈ answer
  closed : ∀ a, (seen.has a = true ∨ a ∈ answer) →
    ∀ b ∈ s.children a, seen.has b = true ∨ b ∈ answer

theorem Walks.nil (hclosed : ∀ a, seen.has a = true → ∀ b ∈ s.children a, seen.has b = true) :
    s.Walks seen [] [] where
  below _ hv := absurd hv List.not_mem_nil
  taken _ hu := absurd hu List.not_mem_nil
  closed a ha b hb := .inl (hclosed a (ha.resolve_right List.not_mem_nil) b hb)

/-- A node that was seen before adds nothing. -/
theorem Walks.skip {id : NodeId} {stack answer : List NodeId} (h : s.Walks seen stack answer)
    (hseen : seen.has id = true) : s.Walks seen (id :: stack) answer where
  below v hv := by
    obtain ⟨u, hu, huv⟩ := h.below v hv
    exact ⟨u, List.mem_cons_of_mem _ hu, huv⟩
  taken u hu := by
    rcases List.mem_cons.mp hu with rfl | hu
    · exact .inl hseen
    · exact h.taken u hu
  closed := h.closed

/-- A node that was not seen is listed, and its children join the stack. -/
theorem Walks.visit {id : NodeId} {stack answer : List NodeId}
    (h : s.Walks (seen.set id ()) (s.children id ++ stack) answer) :
    s.Walks seen (id :: stack) (id :: answer) := by
  have hkeep : ∀ b, ((seen.set id ()).has b = true ∨ b ∈ answer) ↔
      (seen.has b = true ∨ b ∈ id :: answer) := fun b => by
    rw [Marks.has_set, List.mem_cons, or_assoc, or_left_comm]
  exact {
    below := fun v hv => by
      rcases List.mem_cons.mp hv with rfl | hv
      · exact ⟨v, List.mem_cons_self, Relation.ReflTransGen.refl⟩
      · obtain ⟨u, hu, huv⟩ := h.below v hv
        rcases List.mem_append.mp hu with hu | hu
        · exact ⟨id, List.mem_cons_self, Relation.ReflTransGen.head hu huv⟩
        · exact ⟨u, List.mem_cons_of_mem _ hu, huv⟩
    taken := fun u hu => by
      rcases List.mem_cons.mp hu with rfl | hu
      · exact .inr List.mem_cons_self
      · exact (hkeep u).mp (h.taken u (List.mem_append_right _ hu))
    closed := fun a ha b hb => (hkeep b).mp (h.closed a ((hkeep a).mpr ha) b hb) }

/-- **A walk with fuel for its open edges** lists what it should, when the children of
a node that was seen were seen or wait on the stack. -/
theorem walk_spec (s : Store) (fuel : Nat) (stack : List NodeId) (seen : Marks Unit)
    (hfuel : stack.length + s.openEdges seen ≤ fuel)
    (hclosed : ∀ a, seen.has a = true → ∀ b ∈ s.children a, seen.has b = true ∨ b ∈ stack) :
    s.Walks seen stack (s.walk fuel stack seen) := by
  induction fuel generalizing stack seen with
  | zero =>
    obtain rfl : stack = [] := List.eq_nil_of_length_eq_zero (by omega)
    exact Walks.nil fun a ha b hb => (hclosed a ha b hb).resolve_right List.not_mem_nil
  | succ fuel ih =>
    cases stack with
    | nil => exact Walks.nil fun a ha b hb => (hclosed a ha b hb).resolve_right List.not_mem_nil
    | cons id stack =>
      rw [List.length_cons] at hfuel
      by_cases hseen : seen.has id = true
      · rw [walk, if_pos hseen]
        refine (ih stack seen (by omega) fun a ha b hb => ?_).skip hseen
        -- a child that waited as `id` itself was seen
        rcases hclosed a ha b hb with hb | hb
        · exact .inl hb
        · rcases List.mem_cons.mp hb with rfl | hb
          · exact .inl hseen
          · exact .inr hb
      · rw [walk, if_neg hseen]
        have hopen := openEdges_set (s := s) hseen
        refine (ih (s.children id ++ stack) (seen.set id ())
          (by rw [List.length_append]; omega) fun a ha b hb => ?_).visit
        rw [Marks.has_set, List.mem_append]
        rcases (Marks.has_set _ _ _ _).mp ha with rfl | ha
        · exact .inr (.inl hb)
        · rcases hclosed a ha b hb with hb | hb
          · exact .inl (.inr hb)
          · rcases List.mem_cons.mp hb with rfl | hb
            · exact .inl (.inl rfl)
            · exact .inr (.inr hb)

/-- **The walk from the root lists the nodes that are reached from it.** -/
theorem mem_preorder_iff (s : Store) (v : NodeId) : v ∈ s.preorder ↔ s.Reachable v := by
  have hnone : ∀ a, ¬ (Marks.empty : Marks Unit).has a = true := Marks.not_has_empty
  have hwalk := s.walk_spec (s.edgeCount + 1) [.root] .empty
    (by rw [openEdges_empty, List.length_singleton]; omega) fun a ha => absurd ha (hnone a)
  show v ∈ s.walk (s.edgeCount + 1) [.root] .empty ↔ _
  constructor
  · intro hv
    obtain ⟨u, hu, huv⟩ := hwalk.below v hv
    rw [List.mem_singleton.mp hu] at huv
    exact huv
  · intro hv
    induction hv with
    | refl => exact (hwalk.taken .root List.mem_cons_self).resolve_left (hnone _)
    | tail _ hchild ih => exact (hwalk.closed _ (.inr ih) _ hchild).resolve_left (hnone _)

/-- **A walk lists no node twice**, and none that was seen before. -/
theorem walk_once (s : Store) (fuel : Nat) (stack : List NodeId) (seen : Marks Unit) :
    (s.walk fuel stack seen).Nodup ∧ ∀ v ∈ s.walk fuel stack seen, ¬ seen.has v = true := by
  induction fuel generalizing stack seen with
  | zero => exact ⟨.nil, fun v hv => absurd hv List.not_mem_nil⟩
  | succ fuel ih =>
    cases stack with
    | nil => exact ⟨.nil, fun v hv => absurd hv List.not_mem_nil⟩
    | cons id stack =>
      rw [walk]
      split
      · exact ih stack seen
      · next hnew =>
        obtain ⟨hnodup, hunseen⟩ := ih (s.children id ++ stack) (seen.set id ())
        simp only [Marks.has_set, not_or] at hunseen
        refine ⟨List.nodup_cons.mpr ⟨fun hid => (hunseen id hid).1 rfl, hnodup⟩, fun v hv => ?_⟩
        rcases List.mem_cons.mp hv with rfl | hv
        · exact hnew
        · exact (hunseen v hv).2

/-- The walk from the root lists no node twice. -/
theorem nodup_preorder (s : Store) : s.preorder.Nodup := (s.walk_once _ _ _).1

/-! ## Walks with all the fuel they need -/

/-- More fuel than a walk needs changes nothing. -/
theorem walk_eq_walk (s : Store) {fuel fuel' : Nat} {stack : List NodeId}
    (hfuel : stack.length + s.openEdges seen ≤ fuel)
    (hfuel' : stack.length + s.openEdges seen ≤ fuel') :
    s.walk fuel stack seen = s.walk fuel' stack seen := by
  induction fuel generalizing fuel' stack seen with
  | zero =>
    obtain rfl : stack = [] := List.eq_nil_of_length_eq_zero (by omega)
    cases fuel' <;> rfl
  | succ fuel ih =>
    cases stack with
    | nil => cases fuel' <;> rfl
    | cons id stack =>
      rw [List.length_cons] at hfuel hfuel'
      obtain ⟨fuel', rfl⟩ := Nat.exists_eq_add_one_of_ne_zero (n := fuel') (by omega)
      rw [walk, walk]
      split
      · exact ih (by omega) (by omega)
      · next hnew =>
        have hopen := openEdges_set (s := s) hnew
        refine congrArg (id :: ·) (ih ?_ ?_) <;>
        · rw [List.length_append]
          omega

/-- **A walk over all that is below a stack.** -/
def fullWalk (s : Store) (stack : List NodeId) (seen : Marks Unit) : List NodeId :=
  s.walk (stack.length + s.openEdges seen) stack seen

theorem preorder_eq_fullWalk (s : Store) : s.preorder = s.fullWalk [.root] .empty := by
  rw [preorder, fullWalk, openEdges_empty, List.length_singleton, Nat.add_comm]

theorem fullWalk_nil (s : Store) (seen : Marks Unit) : s.fullWalk [] seen = [] := by
  unfold fullWalk
  cases ([] : List NodeId).length + s.openEdges seen <;> rfl

/-- A node that was seen is passed over. -/
theorem fullWalk_of_has {id : NodeId} (hseen : seen.has id = true) (stack : List NodeId) :
    s.fullWalk (id :: stack) seen = s.fullWalk stack seen := by
  rw [fullWalk, List.length_cons, Nat.add_right_comm, walk, if_pos hseen]
  rfl

/-- A node that was not seen is listed, and its children are next. -/
theorem fullWalk_of_not_has {id : NodeId} (hnew : ¬ seen.has id = true)
    (stack : List NodeId) :
    s.fullWalk (id :: stack) seen =
      id :: s.fullWalk (s.children id ++ stack) (seen.set id ()) := by
  have hopen := openEdges_set (s := s) hnew
  rw [fullWalk, List.length_cons, Nat.add_right_comm, walk, if_neg hnew]
  refine congrArg (id :: ·) (s.walk_eq_walk ?_ (Nat.le_refl _))
  rw [List.length_append]
  omega

/-! ## Walks over stores with the same children -/

section

variable {t : Store}

/-- **The edges of a store**, counted over any range of slots that has all of its own. -/
theorem edgeCount_eq_sum {bound : Nat} (h : s.slots.size ≤ bound) :
    s.edgeCount = ∑ i ∈ Finset.range bound, (s.children ⟨i⟩).length := by
  rw [← openEdges_empty, openEdges]
  simp only [if_neg (Marks.not_has_empty _)]
  refine Finset.sum_subset (Finset.range_subset_range.mpr h) fun i _ hi => ?_
  -- beyond the slots there is nothing
  have hnone : s.get? ⟨i⟩ = none := by
    rw [get?, Array.getElem?_eq_none (Nat.le_of_not_lt (mt Finset.mem_range.mpr hi))]
    rfl
  rw [children_eq_nil_of_get?_eq_none hnone, List.length_nil]

theorem edgeCount_congr (h : ∀ v, t.children v = s.children v) : t.edgeCount = s.edgeCount := by
  rw [edgeCount_eq_sum (Nat.le_max_left t.slots.size s.slots.size),
    edgeCount_eq_sum (Nat.le_max_right t.slots.size s.slots.size)]
  simp only [h]

theorem walk_congr (h : ∀ v, t.children v = s.children v) (fuel : Nat) (stack : List NodeId)
    (seen : Marks Unit) : t.walk fuel stack seen = s.walk fuel stack seen := by
  induction fuel generalizing stack seen with
  | zero => rfl
  | succ fuel ih =>
    cases stack with
    | nil => rfl
    | cons id stack => rw [walk, walk, h, ih, ih]

/-- **Stores with the same children** list their nodes in the same order, whatever slots
they have to spare. -/
theorem preorder_congr (h : ∀ v, t.children v = s.children v) : t.preorder = s.preorder := by
  rw [preorder, preorder, edgeCount_congr h, walk_congr h]

end

/-! ## Sweeping -/

theorem nodup_ids (s : Store) : s.ids.Nodup :=
  List.Nodup.map (fun _ _ hij => congrArg NodeId.index hij) List.nodup_range

theorem mem_ids_iff (s : Store) (v : NodeId) : v ∈ s.ids ↔ v.index < s.slots.size := by
  unfold ids
  rw [List.mem_map]
  constructor
  · rintro ⟨i, hi, rfl⟩
    exact List.mem_range.mp hi
  · exact fun hlt => ⟨v.index, List.mem_range.mpr hlt, rfl⟩

/-- Marking the nodes of a list. -/
theorem has_foldl_set (ids : List NodeId) (marks : Marks Unit) (v : NodeId) :
    (ids.foldl (fun marks id => marks.set id ()) marks).has v = true ↔
      v ∈ ids ∨ marks.has v = true := by
  induction ids generalizing marks with
  | nil => simp
  | cons id ids ih => rw [List.foldl_cons, ih, Marks.has_set, List.mem_cons, or_assoc, or_left_comm]

theorem slots_size_foldl_release (ids : List NodeId) (s : Store) :
    (ids.foldl release s).slots.size = s.slots.size := by
  induction ids generalizing s with
  | nil => rfl
  | cons id ids ih =>
    rw [List.foldl_cons, ih, release, Array.size_setIfInBounds]

theorem free_foldl_release (ids : List NodeId) (s : Store) :
    (ids.foldl release s).free = ids.reverse ++ s.free := by
  induction ids generalizing s with
  | nil => rfl
  | cons id ids ih =>
    rw [List.foldl_cons, ih, List.reverse_cons, List.append_assoc]
    rfl

theorem get?_foldl_release (ids : List NodeId) (s : Store) (v : NodeId) :
    (ids.foldl release s).get? v = if v ∈ ids then none else s.get? v := by
  induction ids generalizing s with
  | nil => rw [List.foldl_nil, if_neg List.not_mem_nil]
  | cons id ids ih =>
    rw [List.foldl_cons, ih, get?_release]
    by_cases hv : v = id
    · rw [if_pos hv, ite_self, if_pos (List.mem_cons.mpr (.inl hv))]
    · by_cases hmem : v ∈ ids
      · rw [if_pos hmem, if_pos (List.mem_cons_of_mem _ hmem)]
      · rw [if_neg hmem, if_neg hv, if_neg fun h => (List.mem_cons.mp h).elim hv hmem]

/-- The slots that a sweep empties. -/
def swept (s : Store) : List NodeId :=
  s.ids.filter fun id => (s.get? id).isSome &&
    !(s.preorder.foldl (fun marks id => marks.set id ()) (Marks.empty : Marks Unit)).has id

theorem mem_swept_iff (s : Store) (v : NodeId) :
    v ∈ s.swept ↔ (s.get? v).isSome = true ∧ ¬ s.Reachable v := by
  have hmarked := has_foldl_set s.preorder .empty v
  rw [mem_preorder_iff] at hmarked
  have hids : (s.get? v).isSome = true → v ∈ s.ids := fun h =>
    (s.mem_ids_iff v).mpr (index_lt_of_isSome h)
  unfold swept
  rw [List.mem_filter, Bool.and_eq_true, Bool.not_eq_true', ← Bool.not_eq_true]
  constructor
  · rintro ⟨-, hstored, hnot⟩
    exact ⟨hstored, fun hreach => hnot (hmarked.mpr (.inl hreach))⟩
  · rintro ⟨hstored, hnot⟩
    refine ⟨hids hstored, hstored, fun hhas => ?_⟩
    rcases hmarked.mp hhas with hreach | hnone
    · exact hnot hreach
    · exact Marks.not_has_empty v hnone

theorem get?_sweep_of_reachable {v : NodeId} (h : s.Reachable v) :
    s.sweep.get? v = s.get? v := by
  show (s.swept.foldl release s).get? v = _
  rw [get?_foldl_release, if_neg fun hv => ((mem_swept_iff s v).mp hv).2 h]

theorem get?_sweep_of_not_reachable {v : NodeId} (h : ¬ s.Reachable v) :
    s.sweep.get? v = none := by
  show (s.swept.foldl release s).get? v = _
  rw [get?_foldl_release]
  split
  · rfl
  · next hv =>
    by_contra hsome
    exact hv ((mem_swept_iff s v).mpr ⟨Option.isSome_iff_ne_none.mpr hsome, h⟩)

/-- What a sweep leaves was there, and reached. -/
theorem get?_sweep_eq_some {v : NodeId} {n : Node} (h : s.sweep.get? v = some n) :
    s.Reachable v ∧ s.get? v = some n := by
  by_cases hv : s.Reachable v
  · rw [get?_sweep_of_reachable hv] at h
    exact ⟨hv, h⟩
  · rw [get?_sweep_of_not_reachable hv] at h
    exact (Option.some_ne_none n h.symm).elim

/-- A sweep leaves the nodes that are stored and reached. -/
theorem isSome_sweep_iff (s : Store) (v : NodeId) :
    (s.sweep.get? v).isSome = true ↔ s.Reachable v ∧ (s.get? v).isSome = true := by
  by_cases hv : s.Reachable v
  · rw [get?_sweep_of_reachable hv]
    exact ⟨fun hsome => ⟨hv, hsome⟩, And.right⟩
  · rw [get?_sweep_of_not_reachable hv]
    exact ⟨fun hsome => absurd hsome Bool.false_ne_true, fun h => absurd h.1 hv⟩

/-- **Sweeping cuts no way down**, and opens none. -/
theorem reachable_sweep_iff (s : Store) (v : NodeId) : s.sweep.Reachable v ↔ s.Reachable v := by
  have hchildren : ∀ u, s.Reachable u → s.sweep.children u = s.children u := fun u hu =>
    children_of_get?_eq (get?_sweep_of_reachable hu)
  constructor
  · intro hv
    induction hv with
    | refl => exact .refl
    | tail _ hchild ih =>
      rw [Child, hchildren _ ih] at hchild
      exact ih.tail hchild
  · intro hv
    induction hv with
    | refl => exact .refl
    | tail hu hchild ih =>
      refine ih.tail ?_
      rw [Child, hchildren _ hu]
      exact hchild

/-- **Sweeping keeps the free slots in order.** -/
theorem FreeSound.sweep (h : s.FreeSound) : s.sweep.FreeSound := by
  show (s.swept.foldl release s).FreeSound
  have hstored := fun v hv => ((mem_swept_iff s v).mp hv).1
  have hmem : ∀ v, v ∈ (s.swept.foldl release s).free ↔ v ∈ s.swept ∨ v ∈ s.free := fun v => by
    rw [free_foldl_release, List.mem_append, List.mem_reverse]
  exact {
    index_lt := fun v hv => by
      rw [slots_size_foldl_release]
      rcases (hmem v).mp hv with hv | hv
      · exact index_lt_of_isSome (hstored v hv)
      · exact h.index_lt v hv
    empty := fun v hv => by
      rw [get?_foldl_release]
      split
      · rfl
      · next hnot => exact h.empty v (((hmem v).mp hv).resolve_left hnot)
    listed := fun v hlt hnone => by
      rw [slots_size_foldl_release] at hlt
      rw [get?_foldl_release] at hnone
      rw [hmem]
      split at hnone
      · next hv => exact .inl hv
      · exact .inr (h.listed v hlt hnone)
    nodup := by
      rw [free_foldl_release]
      refine List.nodup_append.mpr ⟨List.nodup_reverse.mpr ?_, h.nodup, ?_⟩
      · exact s.nodup_ids.filter _
      · rintro a ha b hb rfl
        have hsome := hstored a (List.mem_reverse.mp ha)
        rw [h.empty a hb] at hsome
        exact Bool.false_ne_true hsome }

/-- **Sweeping a covering diagram** leaves a covering diagram of its members. -/
theorem Diagram.sweep (hcs : cs.Lawful) (h : s.Diagram cs V) : s.sweep.Diagram cs V :=
  h.of_get?_eq fun v hv => get?_sweep_of_reachable ((h.mem_iff_reachable hcs v).mp hv)

end Store

end Specificity
