import Specificity.Proofs.Bounds
import Specificity.Proofs.TriggerOrder

/-!
# The laws of the judgement on triggers

Exchanging two triggers turns their relationship round, and a trigger that has an active
clause is equal to itself – as long as the clauses of one trigger are incomparable to each
other. Setting ignored predicates aside may make them comparable after the marking is over.
Each clause is then judged by the first one that is at least as wide, and that may be a
wider one although an equal one follows. Two triggers that are each within the other are
*entangled* if this happens to a clause of one of them (`Trigger.Entangled`): both are then
judged narrower than the other, and a trigger that is entangled with itself is judged
narrower than itself.

Nothing else goes wrong, whatever the comparers answer. Triggers without ignored conditions
are not entangled, since their clauses are an antichain.
-/

namespace Specificity

namespace Trigger

variable {α : Type} {cs : Comparers} {t u : Trigger α}

/-! ## Entangled triggers -/

/-- **Entangled triggers**: each is within the other one, but a clause of one of them is
overtaken among the clauses of the other. -/
structure Entangled (cs : Comparers) (t u : Trigger α) : Prop where
  /-- The first is within the second. -/
  within : t.Within cs u
  /-- The second is within the first. -/
  back : u.Within cs t
  /-- A clause of one of them is overtaken. -/
  overtaken : (∃ c ∈ t.active, Overtaken cs c u.active) ∨ ∃ c ∈ u.active, Overtaken cs c t.active

theorem Entangled.symm (h : Entangled cs t u) : Entangled cs u t :=
  ⟨h.back, h.within, h.overtaken.symm⟩

/-- Entangled triggers have active clauses. -/
theorem Entangled.active_ne_nil (h : Entangled cs t u) : t.active ≠ [] := by
  rcases h.overtaken with ⟨c, hc, -⟩ | ⟨c, hc, -⟩
  · exact List.ne_nil_of_mem hc
  · obtain ⟨d, hd, -⟩ := h.back c hc
    exact List.ne_nil_of_mem hd

/-- Entangled triggers cover each other, but not both with equal clauses. -/
theorem Entangled.coverage (h : Entangled cs t u) :
    (coverage cs t.active u.active).isCovered = true ∧
      (coverage cs u.active t.active).isCovered = true ∧
      ¬ (coverage cs t.active u.active = .equal ∧ coverage cs u.active t.active = .equal) := by
  refine ⟨(isCovered_coverage cs t u).mpr ⟨h.active_ne_nil, h.within⟩,
    (isCovered_coverage cs u t).mpr ⟨h.symm.active_ne_nil, h.back⟩, ?_⟩
  rintro ⟨hfirst, hsecond⟩
  rcases coverage_eq h.active_ne_nil h.within with ⟨hwider, -⟩ | ⟨-, hnone⟩
  · rw [hfirst] at hwider
    exact Relationship.noConfusion hwider
  · rcases coverage_eq h.symm.active_ne_nil h.back with ⟨hwider, -⟩ | ⟨-, hnone'⟩
    · rw [hsecond] at hwider
      exact Relationship.noConfusion hwider
    · rcases h.overtaken with ⟨c, hc, hover⟩ | ⟨c, hc, hover⟩
      · exact hnone c hc hover
      · exact hnone' c hc hover

/-- **Entangled triggers** are each judged narrower than the other. -/
theorem Entangled.relate (h : Entangled cs t u) : t.relate cs u = .specializes := by
  obtain ⟨hfirst, -, hnot⟩ := h.coverage
  unfold Trigger.relate
  dsimp only
  rw [if_neg hnot, if_pos hfirst]

/-- Triggers that cover each other and are not entangled do so with equal clauses. -/
theorem coverage_eq_equal_of_not_entangled (h : ¬ Entangled cs t u)
    (hfirst : (coverage cs t.active u.active).isCovered = true)
    (hsecond : (coverage cs u.active t.active).isCovered = true) :
    coverage cs t.active u.active = .equal ∧ coverage cs u.active t.active = .equal := by
  obtain ⟨hne, htu⟩ := (isCovered_coverage cs t u).mp hfirst
  obtain ⟨hne', hut⟩ := (isCovered_coverage cs u t).mp hsecond
  rcases coverage_eq hne htu with ⟨-, hover⟩ | ⟨hequal, -⟩
  · exact absurd ⟨htu, hut, .inl hover⟩ h
  · rcases coverage_eq hne' hut with ⟨-, hover⟩ | ⟨hequal', -⟩
    · exact absurd ⟨htu, hut, .inr hover⟩ h
    · exact ⟨hequal, hequal'⟩

/-! ## The laws -/

/-- **Exchanging two triggers turns their relationship round** exactly if they are not
entangled, under every registry. -/
theorem relate_eq_swap_iff (cs : Comparers) (t u : Trigger α) :
    u.relate cs t = (t.relate cs u).swap ↔ ¬ Entangled cs t u := by
  constructor
  · intro hswap h
    rw [h.relate, h.symm.relate] at hswap
    exact Relationship.noConfusion hswap
  · intro h
    have hequal := coverage_eq_equal_of_not_entangled h
    unfold Trigger.relate
    -- only where each covers the other could the order of the questions matter
    generalize coverage cs t.active u.active = first at hequal ⊢
    generalize coverage cs u.active t.active = second at hequal ⊢
    revert hequal
    cases first <;> cases second <;> decide

/-- **A trigger with an active clause is equal to itself** exactly if it is not entangled
with itself. -/
theorem relate_self_iff (hcs : cs.Lawful) (hne : t.active ≠ []) :
    t.relate cs t = .equal ↔ ¬ Entangled cs t t := by
  constructor
  · intro hequal h
    rw [h.relate] at hequal
    exact Relationship.noConfusion hequal
  · intro h
    have hcovered := (isCovered_coverage cs t t).mpr ⟨hne, t.within_self hcs⟩
    have hequal := coverage_eq_equal_of_not_entangled h hcovered hcovered
    unfold Trigger.relate
    dsimp only
    rw [if_pos hequal]

/-- **Sharp triggers are not entangled.** -/
theorem Sharp.not_entangled (hcs : cs.Lawful) (ht : t.Sharp cs) (hu : u.Sharp cs) :
    ¬ Entangled cs t u := by
  intro h
  rcases h.overtaken with ⟨c, hc, hover⟩ | ⟨c, hc, hover⟩
  · exact ht.not_overtaken hcs h.back hc hover
  · exact hu.not_overtaken hcs h.within hc hover

/-- **The order of the clauses decides** how a trigger with ignored conditions is judged: it
may be narrower than itself, and it and the same one with its clauses in another order may
each be narrower than the other. So may it and one that has a single clause. -/
theorem build_relate_ne_swap :
    let made (e : Expression) : Trigger Nat := build .empty [] ⟨0⟩ e 1 []
    let a : Expression := .accessor "a"
    let wide : Expression := .and [a, .ignore (.accessor "x")]
    let narrow : Expression := .and [a, .accessor "b", .ignore (.accessor "y")]
    let t := made (.or [wide, narrow])
    let u := made (.or [narrow, wide])
    Comparers.empty.BoundsOnly ∧ t.active ≠ [] ∧ t.relate .empty t ≠ .equal ∧
      u.relate .empty t ≠ (t.relate .empty u).swap ∧
      (made a).relate .empty t ≠ (t.relate .empty (made a)).swap := by
  intro made a wide narrow t u
  exact ⟨Comparers.boundsOnly_empty, by decide +kernel, by decide +kernel, by decide +kernel,
    by decide +kernel⟩

/-- **The laws of the judgement on triggers** that are built from any conditions. Exchanging
two of them turns their relationship round exactly if they are not entangled, and otherwise
each is judged narrower; one with an active clause is equal to itself exactly if it is not
entangled with itself. Triggers whose active clauses are incomparable are not entangled, and
those without ignored conditions are among them. -/
theorem build_relate_eq_swap_iff (hcs : cs.BoundsOnly) (opts : List Optimizer)
    (id id' : TriggerId) (e e' : Expression) (a a' : α) (qs qs' : List Quantifier) :
    let t := build cs opts id e a qs
    let u := build cs opts id' e' a' qs'
    (u.relate cs t = (t.relate cs u).swap ↔ ¬ Entangled cs t u) ∧
      (Entangled cs t u → t.relate cs u = .specializes ∧ u.relate cs t = .specializes) ∧
      (t.active ≠ [] → (t.relate cs t = .equal ↔ ¬ Entangled cs t t)) ∧
      (t.Unconditional → t.Sharp cs) ∧
      (t.Sharp cs → u.Sharp cs → u.relate cs t = (t.relate cs u).swap ∧
        (t.active ≠ [] → t.relate cs t = .equal)) := by
  intro t u
  have hlawful := Comparers.lawful_of_boundsOnly hcs
  have hself := fun hne : t.active ≠ [] => relate_self_iff hlawful hne
  have hswap := relate_eq_swap_iff cs t u
  refine ⟨hswap, fun h => ⟨h.relate, h.symm.relate⟩, hself, fun h => h.sharp, fun ht hu => ?_⟩
  exact ⟨hswap.mpr (ht.not_entangled hlawful hu),
    fun hne => (hself hne).mpr (ht.not_entangled hlawful ht)⟩

/-- Under bounds, a trigger that ignores a name where the bound is loose and another one where
it is tight is entangled with itself; two triggers without ignored conditions, of which one is
narrower, are not. -/
theorem build_relate_eq_swap_iff_bounds :
    let bounds := Comparers.empty.registerBounds
    let below (n : Int64) := Expression.compare .less (.accessor "x") (.constant (.integer n))
    let made (e : Expression) : Trigger Nat := build bounds [] ⟨0⟩ e 1 []
    let t := made (.or [.and [below 9, .ignore (.accessor "i")],
      .and [below 5, .ignore (.accessor "j")]])
    let narrow := made (.or [below 5, .accessor "a"])
    let wide := made (.or [.accessor "a", below 9])
    bounds.BoundsOnly ∧ t.active ≠ [] ∧ t.relate bounds t = .specializes ∧
      Entangled bounds t t ∧ narrow.Unconditional ∧ wide.Unconditional ∧
      narrow.relate bounds wide = .specializes ∧ wide.relate bounds narrow = .generalizes ∧
      narrow.active ≠ [] ∧ narrow.relate bounds narrow = .equal := by
  intro bounds below made t narrow wide
  have hbounds : bounds.BoundsOnly := Comparers.boundsOnly_registerBounds
  have hne : t.active ≠ [] := by decide +kernel
  have hself : t.relate bounds t = .specializes := by decide +kernel
  have hentangled : Entangled bounds t t := by
    obtain ⟨-, -, hiff, -⟩ := build_relate_eq_swap_iff hbounds [] ⟨0⟩ ⟨0⟩
      (.or [.and [below 9, .ignore (.accessor "i")], .and [below 5, .ignore (.accessor "j")]])
      (.constant .null) 1 1 [] []
    by_contra hnot
    rw [(hiff hne).mpr hnot] at hself
    exact Relationship.noConfusion hself
  have hnarrow : narrow.Unconditional := by decide +kernel
  have hwide : wide.Unconditional := by decide +kernel
  have hrelate : narrow.relate bounds wide = .specializes := by decide +kernel
  have hactive : narrow.active ≠ [] := by decide +kernel
  obtain ⟨-, -, -, hsharp, hlaws⟩ := build_relate_eq_swap_iff hbounds [] ⟨0⟩ ⟨0⟩
    (.or [below 5, .accessor "a"]) (.or [.accessor "a", below 9]) 1 1 [] []
  obtain ⟨hswap, hequal⟩ := hlaws (hsharp hnarrow) hwide.sharp
  refine ⟨hbounds, hne, hself, hentangled, hnarrow, hwide, hrelate, ?_, hactive, hequal hactive⟩
  rw [hswap, hrelate]
  rfl

end Trigger

end Specificity
