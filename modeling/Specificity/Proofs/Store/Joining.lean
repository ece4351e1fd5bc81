import Specificity.Proofs.Store.Rewiring
import Specificity.Tree.Removal

/-!
# Changing the triggers of a node

Joining a node and withdrawing from it change the triggers it lists and
nothing else: no clause, no list of children, no other node.
-/

namespace Specificity

/-! ## One node -/

namespace Node

theorem clause_join (judge : TriggerId → Relationship) (t : TriggerId) (n : Node) :
    (n.join judge t).clause = n.clause := rfl

theorem children_join (judge : TriggerId → Relationship) (t : TriggerId) (n : Node) :
    (n.join judge t).children = n.children := rfl

theorem bare_join (judge : TriggerId → Relationship) (t : TriggerId) (n : Node) :
    (n.join judge t).bare = n.bare.join judge t := rfl

theorem clause_withdraw (judge : TriggerId → TriggerId → Relationship) (t : TriggerId)
    (n : Node) : (n.withdraw judge t).clause = n.clause := by
  unfold withdraw
  split <;> rfl

theorem children_withdraw (judge : TriggerId → TriggerId → Relationship) (t : TriggerId)
    (n : Node) : (n.withdraw judge t).children = n.children := by
  unfold withdraw
  split <;> rfl

theorem bare_withdraw (judge : TriggerId → TriggerId → Relationship) (t : TriggerId)
    (n : Node) : (n.withdraw judge t).bare = n.bare.withdraw judge t := by
  unfold withdraw
  split
  · next h =>
    rw [if_pos (show n.bare.visible.contains t = true from h)]
    rfl
  · next h =>
    rw [if_neg (show ¬ n.bare.visible.contains t = true from h)]
    rfl

/-- **The node without a trigger**: withdrawn from it if it carries the trigger. -/
def without (judge : TriggerId → TriggerId → Relationship) (t : TriggerId) (n : Node) : Node :=
  if n.carried.contains t then n.withdraw judge t else n

/-- Withdrawing what a node does not carry changes nothing. -/
theorem without_eq_self {t : TriggerId} {n : Node} (judge : TriggerId → TriggerId → Relationship)
    (h : t ∉ n.carried) : n.without judge t = n := if_neg (mt List.contains_iff_mem.mp h)

theorem clause_without (judge : TriggerId → TriggerId → Relationship) (t : TriggerId)
    (n : Node) : (n.without judge t).clause = n.clause := by
  unfold without
  split
  · exact clause_withdraw judge t n
  · rfl

theorem children_without (judge : TriggerId → TriggerId → Relationship) (t : TriggerId)
    (n : Node) : (n.without judge t).children = n.children := by
  unfold without
  split
  · exact children_withdraw judge t n
  · rfl

theorem bare_without (judge : TriggerId → TriggerId → Relationship) (t : TriggerId)
    (n : Node) : (n.without judge t).bare = n.bare.without judge t := by
  unfold without
  split
  · next h =>
    rw [if_pos (show n.bare.carried.contains t = true from h), bare_withdraw]
  · next h => rw [if_neg (show ¬ n.bare.carried.contains t = true from h)]

theorem carried_without_sublist (judge : TriggerId → TriggerId → Relationship) (t : TriggerId)
    (n : Node) : (n.without judge t).carried.Sublist n.carried := by
  unfold without
  split
  · unfold withdraw
    split <;> exact List.filter_sublist
  · exact List.Sublist.refl _

end Node

namespace Store

variable {cs : Comparers} {s t : Store} {here other : NodeId} {f : Node → Node}

/-! ## One node of a store -/

theorem bare_update_of_ne (h : other ≠ here) (s : Store) (f : Node → Node) :
    (s.update here f).bare other = s.bare other := by
  rw [bare, get?_update, if_neg h]
  rfl

theorem bare_update_self (s : Store) (here : NodeId) (hf : ∀ n, (f n).bare = f n.bare) :
    (s.update here f).bare here = (s.bare here).map f := by
  rw [bare, get?_update, if_pos rfl, bare, Option.map_map, Option.map_map]
  exact congrArg (fun g => Option.map g _) (funext hf)

theorem children_update (hf : ∀ n, (f n).children = n.children) (s : Store)
    (here other : NodeId) : (s.update here f).children other = s.children other := by
  rw [children, children, get?_update]
  by_cases h : other = here
  · rw [if_pos h]
    cases s.get? other with
    | none => rfl
    | some n => exact hf n
  · rw [if_neg h]

theorem clause_update (hf : ∀ n, (f n).clause = n.clause) (s : Store) (here other : NodeId) :
    ((s.update here f).get? other).map Node.clause = (s.get? other).map Node.clause := by
  rw [get?_update]
  split
  · rw [Option.map_map]
    exact congrArg (fun g => Option.map g _) (funext hf)
  · rfl

/-! ## Joining -/

variable {α : Type} [DecidableEq α] {r : Register α} {trigger : TriggerId}

/-- **Joining** leaves the store as it is or lets the trigger join the one node. -/
theorem join_cases (cs : Comparers) (r : Register α) (trigger : TriggerId) (here : NodeId)
    (s : Store) :
    (s.join cs r trigger here).2 = s ∨
      (s.join cs r trigger here).2 = s.update here (Node.join (r.relate cs trigger) trigger) := by
  unfold join
  split
  · split
    · exact .inl rfl
    · exact .inr rfl
  · exact .inl rfl

/-- **Joining a node** ends in one of two ways: a trigger with its action is there, or
none is and it joins. -/
theorem join_eq (cs : Comparers) {u : Trigger α} {n : Node} (hu : r.get? trigger = some u)
    (hn : s.get? here = some n) :
    (s.join cs r trigger here = (.present, s) ∧
        ∃ w ∈ n.carried, ∃ x, r.get? w = some x ∧ x.action = u.action) ∨
      (s.join cs r trigger here =
          (.placed, s.update here (Node.join (r.relate cs trigger) trigger)) ∧
        ∀ w ∈ n.carried, ∀ x, r.get? w = some x → x.action ≠ u.action) := by
  unfold join
  simp only [hu, hn]
  split
  · next hany =>
    obtain ⟨w, hw, hany⟩ := List.any_eq_true.mp hany
    cases hx : r.get? w with
    | none =>
      rw [hx] at hany
      exact absurd hany Bool.false_ne_true
    | some x =>
      rw [hx] at hany
      exact .inl ⟨rfl, w, hw, x, hx, of_decide_eq_true hany⟩
  · next hnone =>
    refine .inr ⟨rfl, fun w hw x hx haction => hnone (List.any_eq_true.mpr ⟨w, hw, ?_⟩)⟩
    rw [hx]
    exact decide_eq_true haction

theorem slots_size_join : (s.join cs r trigger here).2.slots.size = s.slots.size := by
  rcases join_cases cs r trigger here s with h | h
  · rw [h]
  · rw [h, slots_size_update]

theorem free_join : (s.join cs r trigger here).2.free = s.free := by
  rcases join_cases cs r trigger here s with h | h
  · rw [h]
  · rw [h]
    rfl

theorem children_join (other : NodeId) :
    (s.join cs r trigger here).2.children other = s.children other := by
  rcases join_cases cs r trigger here s with h | h
  · rw [h]
  · rw [h, children_update (Node.children_join _ _)]

theorem clause_join (other : NodeId) :
    ((s.join cs r trigger here).2.get? other).map Node.clause
      = (s.get? other).map Node.clause := by
  rcases join_cases cs r trigger here s with h | h
  · rw [h]
  · rw [h, clause_update (Node.clause_join _ _)]

theorem bare_join_of_ne (h : other ≠ here) :
    (s.join cs r trigger here).2.bare other = s.bare other := by
  rcases join_cases cs r trigger here s with hjoin | hjoin
  · rw [hjoin]
  · rw [hjoin, bare_update_of_ne h]

/-- **What joining does to a node depends on the bare node alone.** -/
theorem join_congr (cs : Comparers) (r : Register α) (trigger : TriggerId)
    (h : t.bare here = s.bare here) :
    (t.join cs r trigger here).1 = (s.join cs r trigger here).1 ∧
      (t.join cs r trigger here).2.bare here = (s.join cs r trigger here).2.bare here := by
  unfold join
  cases r.get? trigger with
  | none => exact ⟨rfl, h⟩
  | some u =>
    cases ht : t.get? here with
    | none =>
      have hs : s.get? here = none := by
        rw [← Option.not_isSome_iff_eq_none, ← isSome_bare, ← h, isSome_bare, ht]
        decide
      simp only [hs]
      exact ⟨trivial, h⟩
    | some n =>
      obtain ⟨m, hm⟩ : ∃ m, s.get? here = some m := by
        rw [← Option.isSome_iff_exists, ← isSome_bare, ← h, isSome_bare, ht]
        rfl
      have hbare : n.bare = m.bare := by
        have h' := h
        rw [bare, bare, ht, hm] at h'
        exact Option.some.inj h'
      have hcarried : n.bare.carried = m.bare.carried := by rw [hbare]
      change n.carried = m.carried at hcarried
      simp only [hm, hcarried]
      split
      · exact ⟨rfl, h⟩
      · refine ⟨rfl, ?_⟩
        rw [bare_update_self _ _ (Node.bare_join _ _), bare_update_self _ _ (Node.bare_join _ _), h]

end Store

end Specificity
