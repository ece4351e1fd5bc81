import Mathlib.Data.List.Pairwise
import Specificity.Proofs.Condensing
import Specificity.Proofs.ClauseOrder

/-!
# The active clauses of a trigger

Marking subsumed clauses leaves an antichain: of the clauses that stay unmarked
no two are comparable, whatever the comparers answer. This is what makes "each
clause of one trigger is at most as wide as some clause of the other" an order
of triggers that knows when two of them are equal. And nothing is lost by it: under
a lawful registry every clause is at most as wide as one that stays unmarked.

Ignored predicates are set aside after the marking, so two clauses that differed
in them alone become equal, and the antichain is lost. It is kept as long as the
active clauses carry no ignored condition (`Trigger.Unconditional`); the trigger
is then *sharp* (`Trigger.Sharp`).
-/

namespace Specificity

namespace Clause

variable {cs : Comparers} {c d : Clause} {ds : List Clause}

/-! ## What marking leaves unmarked -/

/-- Sifting only drops and marks: what is unmarked afterwards was there. -/
theorem mem_of_mem_sift_of_active (h : d ∈ (sift cs c ds).2) (hactive : d.subsumed = false) :
    d ∈ ds := by
  induction ds with
  | nil => exact absurd h List.not_mem_nil
  | cons e es ih =>
    rw [sift] at h
    split at h
    · rcases List.mem_cons.mp h with rfl | h
      · exact List.mem_cons_self
      · exact List.mem_cons_of_mem e (ih h)
    · split at h
      · exact List.mem_cons_of_mem e (ih h)
      · exact h
      · rcases List.mem_cons.mp h with rfl | h
        · exact absurd hactive.symm Bool.false_ne_true
        · exact List.mem_cons_of_mem e (ih h)
      · rcases List.mem_cons.mp h with rfl | h
        · exact List.mem_cons_self
        · exact List.mem_cons_of_mem e (ih h)

/-- **An unbeaten clause** is incomparable to every clause it leaves unmarked. -/
theorem relate_eq_incomparable_of_sift (hunbeaten : (sift cs c ds).1 = false)
    (h : d ∈ (sift cs c ds).2) (hactive : d.subsumed = false) :
    c.relate cs d = .incomparable := by
  induction ds with
  | nil => exact absurd h List.not_mem_nil
  | cons e es ih =>
    rw [sift] at h hunbeaten
    by_cases hmarked : e.subsumed = true
    · rw [if_pos hmarked] at h hunbeaten
      rcases List.mem_cons.mp h with rfl | h
      · rw [hmarked] at hactive
        exact absurd hactive.symm Bool.false_ne_true
      · exact ih hunbeaten h
    · rw [if_neg hmarked] at h hunbeaten
      cases hrel : c.relate cs e with
      | equal =>
        rw [hrel] at h hunbeaten
        exact ih hunbeaten h
      | specializes =>
        rw [hrel] at hunbeaten
        exact absurd hunbeaten.symm Bool.false_ne_true
      | generalizes =>
        rw [hrel] at h hunbeaten
        rcases List.mem_cons.mp h with rfl | h
        · exact absurd hactive.symm Bool.false_ne_true
        · exact ih hunbeaten h
      | incomparable =>
        rw [hrel] at h hunbeaten
        rcases List.mem_cons.mp h with rfl | h
        · exact hrel
        · exact ih hunbeaten h

/-- Marking only drops and marks: what is unmarked afterwards was there. -/
theorem mem_of_mem_subsume_of_active (h : d ∈ subsume cs ds) (hactive : d.subsumed = false) :
    d ∈ ds := by
  induction ds using subsume.induct cs with
  | case1 => simp [subsume] at h
  | case2 c ds hmarked ih =>
    rw [subsume, if_pos hmarked] at h
    rcases List.mem_cons.mp h with rfl | h
    · exact List.mem_cons_self
    · exact List.mem_cons_of_mem c (ih h)
  | case3 c ds hmarked _ ih =>
    rw [subsume, if_neg hmarked] at h
    rcases List.mem_cons.mp h with rfl | h
    · split at hactive
      · exact absurd hactive.symm Bool.false_ne_true
      · next hunbeaten =>
        rw [if_neg hunbeaten]
        exact List.mem_cons_self
    · exact List.mem_cons_of_mem c (mem_of_mem_sift_of_active (ih h) hactive)

/-- **Marking leaves an antichain**: of the clauses that stay unmarked no earlier one is
comparable to a later one, under every registry. -/
theorem pairwise_subsume (cs : Comparers) (ds : List Clause) :
    (subsume cs ds).Pairwise fun c d =>
      c.subsumed = false → d.subsumed = false → c.relate cs d = .incomparable := by
  induction ds using subsume.induct cs with
  | case1 =>
    rw [subsume]
    exact .nil
  | case2 c ds hmarked ih =>
    rw [subsume, if_pos hmarked]
    refine .cons (fun d _ hc => ?_) ih
    rw [hmarked] at hc
    exact absurd hc.symm Bool.false_ne_true
  | case3 c ds hmarked _ ih =>
    rw [subsume, if_neg hmarked]
    refine .cons (fun d hd hc hactive => ?_) ih
    split at hc
    · exact absurd hc.symm Bool.false_ne_true
    · next hunbeaten =>
      rw [if_neg hunbeaten]
      exact relate_eq_incomparable_of_sift (Bool.eq_false_iff.mpr hunbeaten)
        (mem_of_mem_subsume_of_active hd hactive) hactive

/-! ## What marking answers for -/

/-- **What sifting drops or marks** is at most as wide as the clause it is sifted with. -/
theorem mem_or_isCovered_of_sift (hd : d ∈ ds) :
    d ∈ (sift cs c ds).2 ∨ (d.relate cs c).isCovered = true := by
  have hback : ∀ e, (c.relate cs e).covers = true → (e.relate cs c).isCovered = true :=
    fun e he => by rwa [relate_swap cs c e, Relationship.isCovered_swap]
  induction ds with
  | nil => exact absurd hd List.not_mem_nil
  | cons e es ih =>
    rw [sift]
    by_cases hmarked : e.subsumed = true
    · rw [if_pos hmarked]
      rcases List.mem_cons.mp hd with rfl | hd
      · exact .inl List.mem_cons_self
      · exact (ih hd).imp_left (List.mem_cons_of_mem e)
    · rw [if_neg hmarked]
      cases hrel : c.relate cs e with
      | equal =>
        rcases List.mem_cons.mp hd with rfl | hd
        · exact .inr (hback d (Relationship.covers_of_equal hrel))
        · exact ih hd
      | specializes => exact .inl hd
      | generalizes =>
        rcases List.mem_cons.mp hd with rfl | hd
        · exact .inr (hback d (Relationship.covers_of_generalizes hrel))
        · exact (ih hd).imp_left (List.mem_cons_of_mem _)
      | incomparable =>
        rcases List.mem_cons.mp hd with rfl | hd
        · exact .inl List.mem_cons_self
        · exact (ih hd).imp_left (List.mem_cons_of_mem e)

/-- **A beaten clause** is narrower than one that sifting leaves unmarked. -/
theorem exists_wider_of_sift (hbeaten : (sift cs c ds).1 = true) :
    ∃ d ∈ (sift cs c ds).2, d.subsumed = false ∧ c.relate cs d = .specializes := by
  induction ds with
  | nil => exact absurd hbeaten Bool.false_ne_true
  | cons e es ih =>
    have hlater (h : (sift cs c es).1 = true) (e' : Clause) :
        ∃ d ∈ e' :: (sift cs c es).2, d.subsumed = false ∧ c.relate cs d = .specializes := by
      obtain ⟨d, hd, hwider⟩ := ih h
      exact ⟨d, List.mem_cons_of_mem e' hd, hwider⟩
    rw [sift] at hbeaten ⊢
    by_cases hmarked : e.subsumed = true
    · rw [if_pos hmarked] at hbeaten ⊢
      exact hlater hbeaten e
    · rw [if_neg hmarked] at hbeaten ⊢
      cases hrel : c.relate cs e with
      | equal =>
        rw [hrel] at hbeaten
        exact ih hbeaten
      | specializes => exact ⟨e, List.mem_cons_self, Bool.eq_false_iff.mpr hmarked, hrel⟩
      | generalizes =>
        rw [hrel] at hbeaten
        exact hlater hbeaten _
      | incomparable =>
        rw [hrel] at hbeaten
        exact hlater hbeaten e

/-- **Every unmarked clause is answered for** by one that marking leaves unmarked, at
least as wide. What answers for it at one step may be dropped or marked at a later
one, and is then answered for itself. -/
theorem exists_isCovered_subsume (hcs : cs.Lawful) (ds : List Clause) :
    ∀ d ∈ ds, d.subsumed = false →
      ∃ e ∈ subsume cs ds, e.subsumed = false ∧ (d.relate cs e).isCovered = true := by
  have hord := orderly_relate hcs
  induction ds using subsume.induct cs with
  | case1 => exact fun d hd => absurd hd List.not_mem_nil
  | case2 c ds hmarked ih =>
    intro d hd hactive
    rw [subsume, if_pos hmarked]
    rcases List.mem_cons.mp hd with rfl | hd
    · rw [hmarked] at hactive
      exact absurd hactive.symm Bool.false_ne_true
    · obtain ⟨e, he, hwider⟩ := ih d hd hactive
      exact ⟨e, List.mem_cons_of_mem c he, hwider⟩
  | case3 c ds hmarked _ ih =>
    intro d hd hactive
    rw [subsume, if_neg hmarked]
    dsimp only
    have hlater (c' : Clause) : ∀ d ∈ (sift cs c ds).2, d.subsumed = false →
        ∃ e ∈ c' :: subsume cs (sift cs c ds).2,
          e.subsumed = false ∧ (d.relate cs e).isCovered = true := fun d hd hactive => by
      obtain ⟨e, he, hwider⟩ := ih d hd hactive
      exact ⟨e, List.mem_cons_of_mem _ he, hwider⟩
    -- the clause itself stays, or is narrower than one that is answered for
    have hself : ∃ e ∈ (if (sift cs c ds).1 then { c with subsumed := true } else c) ::
        subsume cs (sift cs c ds).2, e.subsumed = false ∧ (c.relate cs e).isCovered = true := by
      by_cases hbeaten : (sift cs c ds).1 = true
      · obtain ⟨d, hd, hdactive, hcd⟩ := exists_wider_of_sift hbeaten
        obtain ⟨e, he, heactive, hde⟩ := hlater _ d hd hdactive
        exact ⟨e, he, heactive,
          hord.isCovered_trans (Relationship.isCovered_of_specializes hcd) hde⟩
      · rw [if_neg hbeaten]
        exact ⟨c, List.mem_cons_self, Bool.eq_false_iff.mpr hmarked,
          Relationship.isCovered_of_equal (relate_self hcs c)⟩
    rcases List.mem_cons.mp hd with rfl | hd
    · exact hself
    · rcases mem_or_isCovered_of_sift hd with hkept | hcovered
      · exact hlater _ d hkept hactive
      · obtain ⟨e, he, heactive, hce⟩ := hself
        exact ⟨e, he, heactive, hord.isCovered_trans hcovered hce⟩

/-! ## Setting nothing aside -/

/-- Only the predicates and the bindings of two clauses decide how they relate. -/
theorem relate_congr {c' d' : Clause} (hc : c'.core = c.core) (hd : d'.core = d.core) :
    c'.relate cs d' = c.relate cs d := by
  show c'.core.relate cs d'.core = c.core.relate cs d.core
  rw [hc, hd]

/-- A clause that comes out without an ignored condition had no ignored predicate. -/
theorem core_withdrawIgnored (h : c.withdrawIgnored.ignored = none) :
    c.withdrawIgnored.core = c.core := by
  have hnone := (ignored_withdrawIgnored_eq_none_iff c).mp h
  have hall : c.conjuncts.filter (fun p => decide (p.kind ≠ .ignore)) = c.conjuncts :=
    List.filter_eq_self.mpr fun p hp => decide_eq_true (hnone p hp)
  show core { c with conjuncts := c.conjuncts.filter fun p => decide (p.kind ≠ .ignore) } = c.core
  rw [hall]

end Clause

/-! ## Sharp triggers -/

namespace Trigger

variable {α : Type} {cs : Comparers} {t : Trigger α} {c d : Clause}

/-- **A trigger without ignored conditions** on its active clauses. -/
def Unconditional (t : Trigger α) : Prop := ∀ c ∈ t.active, c.ignored = none

instance (t : Trigger α) : Decidable t.Unconditional :=
  inferInstanceAs (Decidable (∀ c ∈ t.active, c.ignored = none))

/-- **A sharp trigger**: its active clauses are incomparable to each other. -/
def Sharp (cs : Comparers) (t : Trigger α) : Prop :=
  t.active.Pairwise fun c d => c.relate cs d = .incomparable

/-- **A trigger built without ignored conditions is sharp.** -/
theorem Unconditional.sharp {opts : List Optimizer} {id : TriggerId} {e : Expression} {a : α}
    {qs : List Quantifier} (h : (build cs opts id e a qs).Unconditional) :
    (build cs opts id e a qs).Sharp cs := by
  unfold Sharp Unconditional at *
  unfold active build clausesOf at *
  dsimp only at *
  rw [List.pairwise_filter, List.pairwise_map]
  refine (Clause.pairwise_subsume cs _).imp_of_mem fun {c d} hc hd hcd hca hda => ?_
  have hcore : ∀ x ∈ Clause.subsume cs _, (!x.withdrawIgnored.subsumed) = true →
      x.withdrawIgnored.core = x.core := fun x hx hxa =>
    Clause.core_withdrawIgnored (h _ (List.mem_filter.mpr ⟨List.mem_map_of_mem hx, hxa⟩))
  rw [Clause.relate_congr (hcore c hc hca) (hcore d hd hda)]
  exact hcd (Bool.not_eq_true' _ ▸ hca) (Bool.not_eq_true' _ ▸ hda)

/-- In a sharp trigger clauses of which one is at most as wide as the other are the
same. -/
theorem Sharp.eq_of_isCovered (hcs : cs.Lawful) (h : t.Sharp cs) (hc : c ∈ t.active)
    (hd : d ∈ t.active) (hcd : (c.relate cs d).isCovered = true) : c = d := by
  have hsymm : Std.Symm fun c d : Clause => c.relate cs d = .incomparable :=
    ⟨fun _ _ => (Clause.orderly_relate hcs).incomparable_symm⟩
  by_contra hne
  rw [h.forall hc hd hne] at hcd
  exact Bool.false_ne_true hcd

end Trigger

end Specificity
