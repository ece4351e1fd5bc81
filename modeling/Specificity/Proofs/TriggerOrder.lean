import Specificity.Proofs.Accounting
import Specificity.Proofs.Antichain

/-!
# The order of triggers

A trigger is judged at most as wide as another one exactly if it has a clause and
each of its clauses is at most as wide as some clause of the other. Seen from the
other side the same is true of sharp triggers only: where clauses of one trigger
are comparable, two triggers may each be judged narrower than the other. Between
sharp triggers the judgement says no more and no less than `Trigger.Within`.
-/

namespace Specificity

namespace Trigger

variable {α : Type} {cs : Comparers} {t u : Trigger α} {c d : Clause} {ds es : List Clause}

/-! ## Coverage -/

/-- **A clause finds shelter** with any clause that is at least as wide. -/
theorem exists_shelter (hd : d ∈ ds) (hle : (c.relate cs d).isCovered = true) :
    ∃ r, shelter? cs c ds = some r := by
  rw [← Option.isSome_iff_exists, shelter?, List.findSome?_isSome_iff]
  refine ⟨d, hd, ?_⟩
  rw [if_pos hle]
  rfl

/-- If each member has an answer, all of them together have these. -/
theorem exists_mapM {ι ω : Type} {f : ι → Option ω} {is : List ι}
    (h : ∀ i ∈ is, ∃ o, f i = some o) :
    ∃ os, is.mapM f = some os ∧ ∀ o ∈ os, ∃ i ∈ is, f i = some o := by
  induction is with
  | nil => exact ⟨[], rfl, fun o ho => absurd ho List.not_mem_nil⟩
  | cons i is ih =>
    obtain ⟨o, ho⟩ := h i List.mem_cons_self
    obtain ⟨os, hos, hfrom⟩ := ih fun j hj => h j (List.mem_cons_of_mem i hj)
    refine ⟨o :: os, by rw [List.mapM_cons, ho, hos]; rfl, fun p hp => ?_⟩
    rcases List.mem_cons.mp hp with rfl | hp
    · exact ⟨i, List.mem_cons_self, ho⟩
    · obtain ⟨j, hj, hjp⟩ := hfrom p hp
      exact ⟨j, List.mem_cons_of_mem i hj, hjp⟩

/-- **A clause is overtaken** among others if the first of them that is at least as wide is
wider. It may have an equal one further down the list. -/
def Overtaken (cs : Comparers) (c : Clause) (ds : List Clause) : Prop :=
  ∃ before d after, ds = before ++ d :: after ∧ c.relate cs d = .specializes ∧
    ∀ e ∈ before, ¬ (c.relate cs e).isCovered = true

/-- The shelter of an overtaken clause is a wider one. -/
theorem shelter?_eq_specializes_iff :
    shelter? cs c ds = some .specializes ↔ Overtaken cs c ds := by
  unfold shelter? Overtaken
  rw [List.findSome?_eq_some_iff]
  refine exists_congr fun before => exists_congr fun d => exists_congr fun after =>
    and_congr_right fun _ => and_congr ?_ ?_
  · cases c.relate cs d <;> decide
  · refine forall₂_congr fun e _ => ?_
    cases c.relate cs e <;> decide

/-- **Coverage is read off the shelters** of the clauses, which are all among the
answers. -/
theorem coverage_eq (hne : es ≠ []) (h : ∀ c ∈ es, ∃ d ∈ ds, (c.relate cs d).isCovered = true) :
    coverage cs es ds = .specializes ∧ (∃ c ∈ es, Overtaken cs c ds) ∨
      coverage cs es ds = .equal ∧ ∀ c ∈ es, ¬ Overtaken cs c ds := by
  have hshelter : ∀ c ∈ es, ∃ r, shelter? cs c ds = some r := fun c hc => by
    obtain ⟨d, hd, hle⟩ := h c hc
    exact exists_shelter hd hle
  obtain ⟨shelters, hshelters, hfrom⟩ := exists_mapM hshelter
  have hinto := exists_of_mapM hshelters
  obtain ⟨c, hc⟩ := List.exists_mem_of_ne_nil es hne
  obtain ⟨r, hr, -⟩ := hinto c hc
  have hnonempty : ¬ shelters.isEmpty = true := by
    rw [List.isEmpty_iff]
    exact List.ne_nil_of_mem hr
  have hovertaken : .specializes ∈ shelters ↔ ∃ c ∈ es, Overtaken cs c ds := by
    simp only [← shelter?_eq_specializes_iff]
    refine ⟨hfrom _, ?_⟩
    rintro ⟨c, hc, hwider⟩
    obtain ⟨r, hr, hcr⟩ := hinto c hc
    rwa [Option.some.inj (hwider.symm.trans hcr)]
  unfold coverage
  simp only [hshelters]
  rw [if_neg hnonempty]
  split
  · next hmem => exact .inl ⟨rfl, hovertaken.mp (List.contains_iff_mem.mp hmem)⟩
  · next hnot =>
    refine .inr ⟨rfl, fun c hc hwider => hnot (List.contains_iff_mem.mpr ?_)⟩
    exact hovertaken.mpr ⟨c, hc, hwider⟩

/-- **Coverage** is being at most as wide, of triggers that have a clause. -/
theorem isCovered_coverage (cs : Comparers) (t u : Trigger α) :
    (coverage cs t.active u.active).isCovered = true ↔ t.active ≠ [] ∧ t.Within cs u := by
  constructor
  · intro h
    refine ⟨fun hnil => ?_, within_of_coverage cs t u h⟩
    rw [hnil] at h
    exact Bool.false_ne_true h
  · rintro ⟨hne, hwithin⟩
    rcases coverage_eq hne hwithin with ⟨h, -⟩ | ⟨h, -⟩
    · exact Relationship.isCovered_of_specializes h
    · exact Relationship.isCovered_of_equal h

/-- **A clause of a sharp trigger is not overtaken** in a trigger within it: it would be
narrower than another one of its own trigger. -/
theorem Sharp.not_overtaken (hcs : cs.Lawful) (ht : t.Sharp cs) (hut : u.Within cs t)
    (hc : c ∈ t.active) : ¬ Overtaken cs c u.active := by
  have hord := Clause.orderly_relate hcs
  rintro ⟨before, d, after, hds, hcd, -⟩
  have hd : d ∈ u.active := by
    rw [hds]
    exact List.mem_append_right _ List.mem_cons_self
  obtain ⟨e, he, hde⟩ := hut d hd
  have hce := hord.specializes_of_specializes_of_isCovered hcd hde
  obtain rfl := ht.eq_of_isCovered hcs hc he (Relationship.isCovered_of_specializes hce)
  exact hord.specializes_irrefl c hce

/-- **If two triggers are at most as wide as each other**, each clause of a sharp one has
an equal clause in the other. -/
theorem coverage_eq_equal (hcs : cs.Lawful) (ht : t.Sharp cs) (hne : t.active ≠ [])
    (htu : t.Within cs u) (hut : u.Within cs t) : coverage cs t.active u.active = .equal := by
  rcases coverage_eq hne htu with ⟨-, c, hc, hwider⟩ | ⟨hequal, -⟩
  · exact absurd hwider (ht.not_overtaken hcs hut hc)
  · exact hequal

/-! ## The judgement on triggers -/

/-- **A trigger is judged at most as wide** exactly if it has a clause and is within the
other one. -/
theorem isCovered_relate (cs : Comparers) (t u : Trigger α) :
    (t.relate cs u).isCovered = true ↔ t.active ≠ [] ∧ t.Within cs u := by
  rw [← isCovered_coverage]
  unfold relate
  dsimp only
  split
  · next h => rw [h.1]
  · split
    · next h => simp only [h, Relationship.isCovered_specializes]
    · next h =>
      split <;> simp only [h, Relationship.isCovered_generalizes,
        Relationship.isCovered_incomparable, Bool.false_eq_true]

/-- **A sharp trigger is judged at least as wide** as another one exactly if that one has
a clause and is within it. -/
theorem covers_relate (hcs : cs.Lawful) (ht : t.Sharp cs) (hu : u.Sharp cs) :
    (t.relate cs u).covers = true ↔ u.active ≠ [] ∧ u.Within cs t := by
  have hfirst := isCovered_coverage cs t u
  have hsecond := isCovered_coverage cs u t
  unfold relate
  dsimp only
  split
  · next h =>
    rw [← hsecond, h.2]
    rfl
  · next hnot =>
    split
    · next h =>
      -- were the other one within it too, they would have equal clauses
      refine ⟨fun hcov => absurd hcov Bool.false_ne_true, fun hback => (hnot ?_).elim⟩
      obtain ⟨hne, htu⟩ := hfirst.mp h
      exact ⟨coverage_eq_equal hcs ht hne htu hback.2, coverage_eq_equal hcs hu hback.1 hback.2 htu⟩
    · split
      · next h => exact ⟨fun _ => hsecond.mp h, fun _ => rfl⟩
      · next h =>
        exact ⟨fun hcov => absurd hcov Bool.false_ne_true,
          fun hback => (h (hsecond.mpr hback)).elim⟩

end Trigger

namespace Register

variable {α : Type} {cs : Comparers} {r : Register α} {a b : TriggerId}

/-- **A sharp register**: its triggers are. -/
def Sharp (cs : Comparers) (r : Register α) : Prop := ∀ id t, r.get? id = some t → t.Sharp cs

/-- A handle of a trigger that has a clause. -/
def HasClause (r : Register α) (a : TriggerId) : Prop := ∃ t, r.get? a = some t ∧ t.active ≠ []

/-- **Handles are judged by the width of their triggers.** -/
theorem relate_iff (hcs : cs.Lawful) (h : r.Sharp cs) (ha : r.HasClause a) (hb : r.HasClause b) :
    ((r.relate cs a b).isCovered = true ↔ r.Within cs a b) ∧
      ((r.relate cs a b).covers = true ↔ r.Within cs b a) := by
  obtain ⟨t, ht, htne⟩ := ha
  obtain ⟨u, hu, hune⟩ := hb
  have hrel : r.relate cs a b = t.relate cs u := by
    unfold relate
    simp only [ht, hu]
  rw [hrel, Trigger.isCovered_relate, Trigger.covers_relate hcs (h a t ht) (h b u hu)]
  constructor
  · refine ⟨fun hle => ⟨t, u, ht, hu, hle.2⟩, ?_⟩
    rintro ⟨t', u', ht', hu', hwithin⟩
    obtain rfl := Option.some.inj (ht.symm.trans ht')
    obtain rfl := Option.some.inj (hu.symm.trans hu')
    exact ⟨htne, hwithin⟩
  · refine ⟨fun hge => ⟨u, t, hu, ht, hge.2⟩, ?_⟩
    rintro ⟨u', t', hu', ht', hwithin⟩
    obtain rfl := Option.some.inj (ht.symm.trans ht')
    obtain rfl := Option.some.inj (hu.symm.trans hu')
    exact ⟨hune, hwithin⟩

end Register

/-- What an accounted node carries can be judged. -/
theorem Node.Accounted.hasClause {α : Type} {cs : Comparers} {r : Register α} {n : Node}
    (h : n.Accounted cs r) {u : TriggerId} (hu : u ∈ n.carried) : r.HasClause u := by
  obtain ⟨t, ht, d, hd, -⟩ := h.has u hu
  exact ⟨t, ht, List.ne_nil_of_mem hd⟩

end Specificity
