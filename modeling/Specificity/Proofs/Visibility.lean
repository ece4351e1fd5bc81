import Specificity.Proofs.Store.Joining

/-!
# Which triggers a node shows

A node carries all triggers that have its clause and shows those that no other
makes superfluous. Joining makes the wider ones give way, withdrawing promotes
those that were hidden. What is shown is always carried, and shown once.
-/

namespace Specificity

namespace Node

variable {n : Node} {t u : TriggerId}

/-! ## Making way -/

theorem makeWay_sublist (judge : TriggerId → Relationship) (vs : List TriggerId) :
    (makeWay judge vs).1.Sublist vs := by
  induction vs with
  | nil => exact List.Sublist.refl []
  | cons v vs ih =>
    rw [makeWay]
    cases judge v with
    | generalizes => exact List.Sublist.refl _
    | specializes => exact ih.cons v
    | equal => exact ih.cons_cons v
    | incomparable => exact ih.cons_cons v

/-- Nobody gives way to a trigger that is narrower than none of them. -/
theorem makeWay_eq_self {judge : TriggerId → Relationship} {vs : List TriggerId}
    (h : ∀ v ∈ vs, judge v ≠ .specializes) : (makeWay judge vs).1 = vs := by
  induction vs with
  | nil => rfl
  | cons v vs ih =>
    have hrest := ih fun w hw => h w (List.mem_cons_of_mem v hw)
    rw [makeWay]
    cases hv : judge v with
    | generalizes => rfl
    | specializes => exact absurd hv (h v List.mem_cons_self)
    | equal => exact congrArg (v :: ·) hrest
    | incomparable => exact congrArg (v :: ·) hrest

/-- **Asking a narrower trigger** is in vain. -/
theorem makeWay_of_generalizes {judge : TriggerId → Relationship} {vs : List TriggerId}
    (h : ∃ v ∈ vs, judge v = .generalizes) : (makeWay judge vs).2 = false := by
  induction vs with
  | nil =>
    obtain ⟨v, hv, -⟩ := h
    exact absurd hv List.not_mem_nil
  | cons w vs ih =>
    obtain ⟨v, hv, hwide⟩ := h
    have hlater (hne : judge w ≠ .generalizes) : (makeWay judge vs).2 = false := by
      rcases List.mem_cons.mp hv with rfl | hv
      · exact absurd hwide hne
      · exact ih ⟨v, hv, hwide⟩
    rw [makeWay]
    cases hw : judge w with
    | generalizes => rfl
    | _ =>
      rw [hw] at hlater
      exact hlater Relationship.noConfusion

/-- **Where nobody is narrower** than a trigger it is admitted, and just the wider ones
give way. -/
theorem makeWay_of_not_generalizes {judge : TriggerId → Relationship} {vs : List TriggerId}
    (h : ∀ v ∈ vs, judge v ≠ .generalizes) :
    (makeWay judge vs).2 = true ∧
      ∀ v, v ∈ (makeWay judge vs).1 ↔ v ∈ vs ∧ judge v ≠ .specializes := by
  induction vs with
  | nil => exact ⟨rfl, fun v => ⟨fun hv => absurd hv List.not_mem_nil, And.left⟩⟩
  | cons w vs ih =>
    obtain ⟨hadmitted, hstay⟩ := ih fun v hv => h v (List.mem_cons_of_mem w hv)
    have hkept (hw : judge w ≠ .specializes) (v : TriggerId) :
        v ∈ w :: (makeWay judge vs).1 ↔ v ∈ w :: vs ∧ judge v ≠ .specializes := by
      rw [List.mem_cons, List.mem_cons, hstay, or_and_right]
      refine or_congr_left ⟨?_, And.left⟩
      rintro rfl
      exact ⟨rfl, hw⟩
    rw [makeWay]
    cases hw : judge w with
    | generalizes => exact absurd hw (h w List.mem_cons_self)
    | specializes =>
      refine ⟨hadmitted, fun v => ?_⟩
      rw [hstay, List.mem_cons, or_and_right]
      refine ⟨.inr, fun hv => hv.resolve_left ?_⟩
      rintro ⟨rfl, hne⟩
      exact hne hw
    | equal => exact ⟨hadmitted, hkept (hw ▸ Relationship.noConfusion)⟩
    | incomparable => exact ⟨hadmitted, hkept (hw ▸ Relationship.noConfusion)⟩

theorem visible_join (judge : TriggerId → Relationship) (t : TriggerId) (n : Node) :
    (n.join judge t).visible =
      if (makeWay judge n.visible).2 && !(makeWay judge n.visible).1.contains t
      then (makeWay judge n.visible).1 ++ [t] else (makeWay judge n.visible).1 := rfl

theorem carried_join (judge : TriggerId → Relationship) (t : TriggerId) (n : Node) :
    (n.join judge t).carried = n.carried ++ [t] := rfl

/-- Joining lists a trigger once. -/
theorem nodup_visible_join (judge : TriggerId → Relationship) (t : TriggerId)
    (h : n.visible.Nodup) : (n.join judge t).visible.Nodup := by
  have hkept := h.sublist (makeWay_sublist judge n.visible)
  rw [visible_join]
  split
  · next hadmit =>
    rw [Bool.and_eq_true, Bool.not_eq_true', ← Bool.not_eq_true, List.contains_iff_mem] at hadmit
    refine List.nodup_append.mpr ⟨hkept, List.nodup_singleton t, ?_⟩
    rintro a ha b hb rfl
    exact hadmit.2 (List.mem_singleton.mp hb ▸ ha)
  · exact hkept

/-! ## Promotion -/

theorem promote_cons (judge : TriggerId → TriggerId → Relationship) (t : TriggerId)
    (ts visible : List TriggerId) :
    promote judge (t :: ts) visible = promote judge ts
      (if visible.contains t || visible.any fun v => (judge t v).covers then visible
        else visible ++ [t]) := rfl

/-- What is promoted was carried, and what was visible stays so. -/
theorem mem_promote (judge : TriggerId → TriggerId → Relationship) (ts visible : List TriggerId)
    (u : TriggerId) :
    (u ∈ visible → u ∈ promote judge ts visible) ∧
      (u ∈ promote judge ts visible → u ∈ visible ∨ u ∈ ts) := by
  induction ts generalizing visible with
  | nil => exact ⟨id, .inl⟩
  | cons t ts ih =>
    rw [promote_cons]
    split
    · exact ⟨(ih visible).1, fun h => ((ih visible).2 h).imp id (List.mem_cons_of_mem t)⟩
    · refine ⟨fun h => (ih _).1 (List.mem_append_left _ h), fun h => ?_⟩
      rcases (ih _).2 h with h | h
      · rcases List.mem_append.mp h with h | h
        · exact .inl h
        · rw [List.mem_singleton.mp h]
          exact .inr List.mem_cons_self
      · exact .inr (List.mem_cons_of_mem t h)

/-- Promotion lists a trigger once. -/
theorem nodup_promote (judge : TriggerId → TriggerId → Relationship) (ts : List TriggerId)
    {visible : List TriggerId} (h : visible.Nodup) : (promote judge ts visible).Nodup := by
  induction ts generalizing visible with
  | nil => exact h
  | cons t ts ih =>
    rw [promote_cons]
    split
    · exact ih h
    · next hnew =>
      rw [Bool.or_eq_true, not_or, List.contains_iff_mem] at hnew
      refine ih (List.nodup_append.mpr ⟨h, List.nodup_singleton t, ?_⟩)
      rintro a ha b hb rfl
      exact hnew.1 (List.mem_singleton.mp hb ▸ ha)

/-- Without a trigger the others are still listed once. -/
theorem nodup_visible_without (judge : TriggerId → TriggerId → Relationship) (t : TriggerId)
    (h : n.visible.Nodup) : (n.without judge t).visible.Nodup := by
  unfold without
  split
  · unfold withdraw
    split
    · exact nodup_promote judge _ (h.filter _)
    · exact h
  · exact h

end Node

end Specificity
