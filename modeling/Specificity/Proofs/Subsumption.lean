import Specificity.Proofs.Antichain

/-!
# Marking keeps the widest clauses

A list of clauses of which any one is enough says as much as its widest members. Marking
compares each clause with those that follow it, and while it does so it drops, marks and
stops early, so what made a clause superfluous may be dropped or marked in its turn. Under
a lawful registry that is no loss, because wider than wider is wider: the last clause of
such a chain is left unmarked.

The clauses that stay unmarked (`Clause.widest`) are therefore up to equality the clauses
of the list that no other one is wider than, each once and in the order of the list. That
they are incomparable, and in order, needs nothing of the registry.
-/

namespace Specificity

namespace Clause

variable {cs : Comparers} {c d : Clause} {ds : List Clause}

/-! ## The order of the list -/

/-- The clause without its mark. -/
def unmark (c : Clause) : Clause := { c with subsumed := false }

theorem unmark_eq_self (h : c.subsumed = false) : c.unmark = c := by
  obtain ⟨conjuncts, bindings, ignored, subsumed⟩ := c
  obtain rfl : subsumed = false := h
  rfl

theorem map_unmark_eq_self (h : ∀ d ∈ ds, d.subsumed = false) : ds.map unmark = ds :=
  (List.map_congr_left (g := id) fun d hd => unmark_eq_self (h d hd)).trans (List.map_id ds)

/-- **Sifting** drops clauses and marks them, and leaves the others in their order. -/
theorem sift_sublist (cs : Comparers) (c : Clause) (ds : List Clause) :
    ((sift cs c ds).2.map unmark).Sublist (ds.map unmark) := by
  induction ds with
  | nil => exact .slnil
  | cons d ds ih =>
    rw [sift]
    split
    · exact ih.cons_cons _
    · split
      · exact ih.cons _
      · exact .refl _
      · exact ih.cons_cons _
      · exact ih.cons_cons _

/-- **Marking** drops clauses and marks them, and leaves the others in their order. -/
theorem subsume_sublist (cs : Comparers) (ds : List Clause) :
    ((subsume cs ds).map unmark).Sublist (ds.map unmark) := by
  induction ds using subsume.induct cs with
  | case1 => rw [subsume]
  | case2 c ds hmarked ih =>
    rw [subsume, if_pos hmarked]
    exact ih.cons_cons _
  | case3 c ds hmarked sifted ih =>
    rw [subsume, if_neg hmarked, List.map_cons, List.map_cons]
    have hhead : unmark (if (sift cs c ds).1 then { c with subsumed := true } else c) =
        c.unmark := by
      split <;> rfl
    rw [hhead]
    exact (ih.trans (sift_sublist cs c ds)).cons_cons _

/-! ## What marks a clause -/

/-- A clause that sifting leaves marked was marked before, or is narrower. -/
theorem mem_or_generalizes_of_sift (h : d ∈ (sift cs c ds).2) (hmarked : d.subsumed = true) :
    d ∈ ds ∨ c.relate cs d = .generalizes := by
  induction ds with
  | nil => exact absurd h List.not_mem_nil
  | cons e es ih =>
    have hlater (h : d ∈ (sift cs c es).2) : d ∈ e :: es ∨ c.relate cs d = .generalizes :=
      (ih h).imp_left (List.mem_cons_of_mem e)
    rw [sift] at h
    split at h
    · rcases List.mem_cons.mp h with rfl | h
      · exact .inl List.mem_cons_self
      · exact hlater h
    · split at h
      · exact hlater h
      · exact .inl h
      · next hrel =>
        rcases List.mem_cons.mp h with rfl | h
        · exact .inr hrel
        · exact hlater h
      · rcases List.mem_cons.mp h with rfl | h
        · exact .inl List.mem_cons_self
        · exact hlater h

/-- **A clause that marking leaves marked** was marked before, or is narrower than one that
it leaves unmarked. The clause that marked it is narrower than such a one if it was beaten
itself. -/
theorem mem_or_exists_wider_of_subsume (hcs : cs.Lawful) (ds : List Clause) :
    ∀ d ∈ subsume cs ds, d.subsumed = true →
      d ∈ ds ∨ ∃ e ∈ subsume cs ds, e.subsumed = false ∧ d.relate cs e = .specializes := by
  have hord := orderly_relate hcs
  induction ds using subsume.induct cs with
  | case1 =>
    rw [subsume]
    exact fun d hd => absurd hd List.not_mem_nil
  | case2 c ds hmarked ih =>
    intro d hd hdmarked
    rw [subsume, if_pos hmarked] at hd ⊢
    rcases List.mem_cons.mp hd with rfl | hd
    · exact .inl List.mem_cons_self
    · refine (ih d hd hdmarked).imp (List.mem_cons_of_mem c) ?_
      rintro ⟨e, he, hwider⟩
      exact ⟨e, List.mem_cons_of_mem c he, hwider⟩
  | case3 c ds hmarked sifted ih =>
    intro d hd hdmarked
    rw [subsume, if_neg hmarked] at hd ⊢
    dsimp only at hd ⊢
    -- what was beaten is narrower than a clause that stays
    have hbeaten (h : (sift cs c ds).1 = true) (c' : Clause) :
        ∃ e ∈ c' :: subsume cs (sift cs c ds).2,
          e.subsumed = false ∧ c.relate cs e = .specializes := by
      obtain ⟨x, hx, hxactive, hcx⟩ := exists_wider_of_sift h
      obtain ⟨e, he, heactive, hxe⟩ := exists_isCovered_subsume hcs _ x hx hxactive
      exact ⟨e, List.mem_cons_of_mem _ he, heactive,
        hord.specializes_of_specializes_of_isCovered hcx hxe⟩
    rcases List.mem_cons.mp hd with rfl | hd
    · split at hdmarked
      · next h =>
        rw [if_pos h]
        exact .inr (hbeaten h _)
      · next h => exact absurd hdmarked hmarked
    · rcases ih d hd hdmarked with hsifted | ⟨e, he, hwider⟩
      · refine (mem_or_generalizes_of_sift hsifted hdmarked).imp (List.mem_cons_of_mem c) ?_
        intro hcd
        have hdc := hord.generalizes_iff.mp hcd
        by_cases h : (sift cs c ds).1 = true
        · obtain ⟨e, he, heactive, hce⟩ := hbeaten h _
          exact ⟨e, he, heactive, hord.specializes_trans hdc hce⟩
        · rw [if_neg h]
          exact ⟨c, List.mem_cons_self, Bool.eq_false_iff.mpr hmarked, hdc⟩
      · exact .inr ⟨e, List.mem_cons_of_mem _ he, hwider⟩

/-! ## The widest clauses -/

/-- **The widest clauses** of a list: those that marking leaves unmarked. -/
def widest (cs : Comparers) (ds : List Clause) : List Clause :=
  (subsume cs ds).filter fun e => !e.subsumed

theorem mem_widest_iff : d ∈ widest cs ds ↔ d ∈ subsume cs ds ∧ d.subsumed = false := by
  rw [widest, List.mem_filter, Bool.not_eq_true']

theorem mem_of_mem_widest (h : d ∈ widest cs ds) : d ∈ ds := by
  obtain ⟨hd, hactive⟩ := mem_widest_iff.mp h
  exact mem_of_mem_subsume_of_active hd hactive

/-- **The widest clauses are incomparable**, under every registry. -/
theorem pairwise_widest (cs : Comparers) (ds : List Clause) :
    (widest cs ds).Pairwise fun c d => c.relate cs d = .incomparable := by
  rw [widest, List.pairwise_filter]
  simp only [Bool.not_eq_true']
  exact pairwise_subsume cs ds

/-- No widest clause is narrower than another one. -/
theorem not_specializes_of_mem_widest (hcs : cs.Lawful) (hc : c ∈ widest cs ds)
    (hd : d ∈ widest cs ds) : c.relate cs d ≠ .specializes := by
  have hord := orderly_relate hcs
  have hsymm : Std.Symm fun c d : Clause => c.relate cs d = .incomparable :=
    ⟨fun _ _ => hord.incomparable_symm⟩
  intro hcd
  by_cases hsame : c = d
  · subst hsame
    exact hord.specializes_irrefl c hcd
  · rw [(pairwise_widest cs ds).forall hc hd hsame] at hcd
    exact absurd hcd (by decide)

/-- **A clause is kept**, itself or as an equal one, exactly if no clause of the list is
wider. -/
theorem exists_equal_widest_iff (hcs : cs.Lawful) (hunmarked : ∀ d ∈ ds, d.subsumed = false)
    (hd : d ∈ ds) :
    (∃ e ∈ widest cs ds, d.relate cs e = .equal) ↔ ∀ c ∈ ds, d.relate cs c ≠ .specializes := by
  have hord := orderly_relate hcs
  constructor
  · rintro ⟨e, he, hde⟩ c hc hdc
    obtain ⟨e', he', heactive, hce'⟩ := exists_isCovered_subsume hcs ds c hc (hunmarked c hc)
    refine not_specializes_of_mem_widest hcs he (mem_widest_iff.mpr ⟨he', heactive⟩) ?_
    rw [← hord.eq_of_equal hde]
    exact hord.specializes_of_specializes_of_isCovered hdc hce'
  · intro hwidest
    obtain ⟨e, he, heactive, hde⟩ := exists_isCovered_subsume hcs ds d hd (hunmarked d hd)
    have hkept := mem_widest_iff.mpr ⟨he, heactive⟩
    exact ⟨e, hkept, ((Relationship.isCovered_iff _).mp hde).resolve_right
      (hwidest e (mem_of_mem_widest hkept))⟩

/-- **Marking keeps the widest clauses** of an unmarked list. What stays unmarked is
incomparable, and nothing changes its place, under every registry. Under a lawful one
every clause is at most as wide as one that stays unmarked, every marked one is narrower, and
a clause stays, or one equal to it, exactly if no clause of the list is wider. -/
theorem subsume_keeps_widest (cs : Comparers) (ds : List Clause)
    (hunmarked : ∀ d ∈ ds, d.subsumed = false) :
    (widest cs ds).Pairwise (fun c d => c.relate cs d = .incomparable) ∧
      (widest cs ds).Sublist ds ∧ ((subsume cs ds).map unmark).Sublist ds ∧
      (cs.Lawful →
        (∀ d ∈ ds, ∃ e ∈ widest cs ds, (d.relate cs e).isCovered = true) ∧
        (∀ d ∈ subsume cs ds, d.subsumed = true →
          ∃ e ∈ widest cs ds, d.relate cs e = .specializes) ∧
        ∀ d ∈ ds, (∃ e ∈ widest cs ds, d.relate cs e = .equal) ↔
          ∀ c ∈ ds, d.relate cs c ≠ .specializes) := by
  have horder : ((subsume cs ds).map unmark).Sublist ds := by
    have hsublist := subsume_sublist cs ds
    rwa [map_unmark_eq_self hunmarked] at hsublist
  have hwidest : (widest cs ds).map unmark = widest cs ds :=
    map_unmark_eq_self fun e he => (mem_widest_iff.mp he).2
  refine ⟨pairwise_widest cs ds, ?_, horder, fun hcs => ⟨fun d hd => ?_, fun d hd hmarked => ?_,
    fun d hd => exists_equal_widest_iff hcs hunmarked hd⟩⟩
  · rw [← hwidest]
    exact (List.filter_sublist.map unmark).trans horder
  · obtain ⟨e, he, heactive, hde⟩ := exists_isCovered_subsume hcs ds d hd (hunmarked d hd)
    exact ⟨e, mem_widest_iff.mpr ⟨he, heactive⟩, hde⟩
  · rcases mem_or_exists_wider_of_subsume hcs ds d hd hmarked with hmem | ⟨e, he, heactive, hde⟩
    · rw [hunmarked d hmem] at hmarked
      exact absurd hmarked Bool.false_ne_true
    · exact ⟨e, mem_widest_iff.mpr ⟨he, heactive⟩, hde⟩

/-- A chain of bounds: what marks the first one is marked by the last. One repetition of the
first is dropped, the other comes too late for that and is marked. -/
theorem subsume_keeps_widest_chain :
    let bounds := Comparers.empty.registerBounds
    let below (n : Int64) := ofConjuncts [.compare .less (.accessor "x") (.constant (.integer n))]
    let marked (n : Int64) : Clause := { below n with subsumed := true }
    let named := ofConjuncts [.accessor "a"]
    let ds := [below 5, named, below 5, below 9, below 5, below 20]
    (∀ d ∈ ds, d.subsumed = false) ∧ bounds.Lawful ∧
      subsume bounds ds = [marked 5, named, marked 9, marked 5, below 20] ∧
      (∃ e ∈ widest bounds ds, (marked 5).relate bounds e = .specializes) ∧
      ∀ c ∈ ds, (below 20).relate bounds c ≠ .specializes := by
  intro bounds below marked named ds
  have hlawful : bounds.Lawful := Comparers.lawful_of_boundsOnly Comparers.boundsOnly_registerBounds
  have hunmarked : ∀ d ∈ ds, d.subsumed = false := by decide +kernel
  have hmarked : subsume bounds ds = [marked 5, named, marked 9, marked 5, below 20] := by
    decide +kernel
  obtain ⟨-, -, -, hwidest⟩ := subsume_keeps_widest bounds ds hunmarked
  obtain ⟨-, hnarrower, hkept⟩ := hwidest hlawful
  refine ⟨hunmarked, hlawful, hmarked, hnarrower (marked 5) ?_ rfl, ?_⟩
  · rw [hmarked]
    exact List.mem_cons_self
  · refine (hkept (below 20) (by decide +kernel)).mp ⟨below 20, ?_, relate_self hlawful _⟩
    rw [mem_widest_iff, hmarked]
    decide +kernel

end Clause

end Specificity
