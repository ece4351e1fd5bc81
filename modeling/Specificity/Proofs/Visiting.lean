import Specificity.Traversal
import Specificity.Tree.Node

/-!
# Visits that keep a promise

The loops over children share one induction. If every visit gives a known
answer, keeps an invariant and moves the state along a relation that is
reflexive and transitive, then so does the whole loop, and what one visit
achieves lasts. Most of them remember the nodes they have met in marks.
-/

namespace Specificity

/-- The nodes met after one more. -/
theorem Marks.has_set {β : Type} (marks : Marks β) (id other : NodeId) (data : β) :
    (marks.set id data).has other = true ↔ other = id ∨ marks.has other = true := by
  unfold Marks.has
  rw [Marks.get?_set]
  by_cases h : other = id <;> simp [h]

/-- At the start no node is met. -/
theorem Marks.not_has_empty {β : Type} (id : NodeId) :
    ¬ (Marks.empty : Marks β).has id = true := by
  rw [Marks.has, Marks.get?_empty]
  exact Bool.false_ne_true

variable {ι ω σ : Type}

/-- The first visit, and those of the rest from the state it leads to. -/
theorem visitAll_cons (visit : ι → σ → ω × σ) (i : ι) (is : List ι) (st : σ) :
    visitAll visit (i :: is) st =
      ((visit i st).1 :: (visitAll visit is (visit i st).2).1,
        (visitAll visit is (visit i st).2).2) := rfl

/-- **The promise of a loop**: a kept invariant, and all that the single visits
achieve. -/
theorem visitAll_spec (visit : ι → σ → ω × σ) (is : List ι) (st : σ) (inv : σ → Prop)
    (step : σ → σ → Prop) (done : ι → σ → Prop)
    (hrefl : ∀ a, step a a) (htrans : ∀ a b c, step a b → step b c → step a c)
    (hdone : ∀ i a b, step a b → done i a → done i b)
    (hvisit : ∀ i ∈ is, ∀ a, inv a →
      inv (visit i a).2 ∧ step a (visit i a).2 ∧ done i (visit i a).2)
    (hst : inv st) :
    inv (visitAll visit is st).2 ∧ step st (visitAll visit is st).2 ∧
      ∀ i ∈ is, done i (visitAll visit is st).2 := by
  induction is generalizing st with
  | nil => exact ⟨hst, hrefl st, fun i hi => absurd hi List.not_mem_nil⟩
  | cons i is ih =>
    obtain ⟨hinv, hstep, hhere⟩ := hvisit i List.mem_cons_self st hst
    obtain ⟨hinv', hstep', hthere⟩ :=
      ih _ (fun j hj => hvisit j (List.mem_cons_of_mem _ hj)) hinv
    refine ⟨hinv', htrans _ _ _ hstep hstep', ?_⟩
    intro j hj
    rcases List.mem_cons.mp hj with rfl | hj
    · exact hdone j _ _ hstep' hhere
    · exact hthere j hj

/-- **A loop keeps what every visit keeps.** -/
theorem visitAll_invariant (visit : ι → σ → ω × σ) (is : List ι) (st : σ) (inv : σ → Prop)
    (hvisit : ∀ i ∈ is, ∀ a, inv a → inv (visit i a).2) (hst : inv st) :
    inv (visitAll visit is st).2 := by
  induction is generalizing st with
  | nil => exact hst
  | cons i is ih =>
    exact ih _ (fun j hj => hvisit j (List.mem_cons_of_mem i hj))
      (hvisit i List.mem_cons_self st hst)

/-- What holds of all members holds of one of them and of the earlier ones. -/
theorem forall_mem_split {P : ι → Prop} {earlier later : List ι} {i : ι}
    (h : ∀ j ∈ earlier ++ i :: later, P j) : P i ∧ ∀ j ∈ earlier, P j :=
  ⟨h i (List.mem_append_right _ List.mem_cons_self), fun j hj => h j (List.mem_append_left _ hj)⟩

/-- **Two loops are the same** if every visit is, in the state that the earlier ones lead to. -/
theorem visitAll_congr {visit visit' : ι → σ → ω × σ} (is : List ι) (st : σ)
    (h : ∀ earlier i later, is = earlier ++ i :: later →
      visit i (visitAll visit earlier st).2 = visit' i (visitAll visit earlier st).2) :
    visitAll visit is st = visitAll visit' is st := by
  induction is generalizing st with
  | nil => rfl
  | cons i is ih =>
    have hhere : visit i st = visit' i st := h [] i is rfl
    have hlater := ih (visit i st).2 fun earlier j later hsplit =>
      h (i :: earlier) j later (by rw [hsplit, List.cons_append])
    rw [visitAll_cons, visitAll_cons, ← hhere, hlater]

/-- Two folds are the same if every step is, in the state that the earlier ones lead to. -/
theorem foldl_congr_of_split {step step' : σ → ι → σ} (is : List ι) (st : σ)
    (h : ∀ earlier i later, is = earlier ++ i :: later →
      step (earlier.foldl step st) i = step' (earlier.foldl step st) i) :
    is.foldl step st = is.foldl step' st := by
  induction is generalizing st with
  | nil => rfl
  | cons i is ih =>
    have hhere : step st i = step' st i := h [] i is rfl
    rw [List.foldl_cons, List.foldl_cons, ← hhere]
    exact ih (step st i) fun earlier j later hsplit =>
      h (i :: earlier) j later (by rw [hsplit, List.cons_append])

/-- What a loop gives, one of its visits gave. -/
theorem exists_of_mem_visitAll {visit : ι → σ → ω × σ} {is : List ι} {st : σ} {out : ω}
    (h : out ∈ (visitAll visit is st).1) : ∃ i a, out = (visit i a).1 := by
  induction is generalizing st with
  | nil => exact absurd h List.not_mem_nil
  | cons i is ih =>
    rw [visitAll_cons] at h
    rcases List.mem_cons.mp h with hhere | hlater
    · exact ⟨i, st, hhere⟩
    · exact ih hlater

/-- **Known answers**, as long as the invariant they rest on is kept. -/
theorem fst_visitAll (visit : ι → σ → ω × σ) (is : List ι) (st : σ) (answer : ι → ω)
    {inv : σ → Prop}
    (hvisit : ∀ i ∈ is, ∀ a, inv a → (visit i a).1 = answer i ∧ inv (visit i a).2)
    (hst : inv st) : (visitAll visit is st).1 = is.map answer := by
  induction is generalizing st with
  | nil => rfl
  | cons i is ih =>
    obtain ⟨hanswer, hinv⟩ := hvisit i List.mem_cons_self st hst
    rw [visitAll, List.map_cons, ← hanswer,
      ← ih _ (fun j hj => hvisit j (List.mem_cons_of_mem _ hj)) hinv]

/-- **Visits that mark what they meet**: each marks what it is sent to, keeps the marks
that are there, and makes no others but below. Then so does the loop. -/
theorem visitAll_marks (visit : ι → σ → ω × σ) {is : List ι} {st : σ} (inv : σ → Prop)
    (has : σ → ι → Prop) (below : ι → Prop) (answer : ι → ω)
    (hvisit : ∀ i ∈ is, ∀ a, inv a → (visit i a).1 = answer i ∧ inv (visit i a).2 ∧
      has (visit i a).2 i ∧ (∀ v, has a v → has (visit i a).2 v) ∧
      ∀ v, has (visit i a).2 v → has a v ∨ below v)
    (hst : inv st) :
    ∃ st', visitAll visit is st = (is.map answer, st') ∧ inv st' ∧ (∀ i ∈ is, has st' i) ∧
      (∀ v, has st v → has st' v) ∧ ∀ v, has st' v → has st v ∨ below v := by
  obtain ⟨hinv, ⟨hmono, hback⟩, hdone⟩ := visitAll_spec visit is st inv
    (fun a b => (∀ v, has a v → has b v) ∧ ∀ v, has b v → has a v ∨ below v)
    (fun i a => has a i)
    (fun _ => ⟨fun _ hv => hv, fun _ hv => .inl hv⟩)
    (fun _ _ _ hab hbc => ⟨fun v hv => hbc.1 v (hab.1 v hv), fun v hv =>
      (hbc.2 v hv).elim (hab.2 v) .inr⟩)
    (fun i _ _ hab hi => hab.1 i hi)
    (fun i hi a ha => by
      obtain ⟨-, hinv, hself, hmono, hback⟩ := hvisit i hi a ha
      exact ⟨hinv, ⟨hmono, hback⟩, hself⟩)
    hst
  have hanswers := fst_visitAll visit is st answer (fun i hi a ha =>
    ⟨(hvisit i hi a ha).1, (hvisit i hi a ha).2.1⟩) hst
  exact ⟨_, Prod.ext hanswers rfl, hinv, hdone, hmono, hback⟩

/-- **If no visit answers `true`**, what only such a visit may end lasts, as long as
the invariant this rests on is kept. -/
theorem visitAll_quiet (visit : ι → σ → Bool × σ) (is : List ι) (st : σ) (inv quiet : σ → Prop)
    (hvisit : ∀ i ∈ is, ∀ a, inv a →
      inv (visit i a).2 ∧ ((visit i a).1 = false → quiet a → quiet (visit i a).2))
    (hst : inv st) (hquiet : quiet st) (hno : true ∉ (visitAll visit is st).1) :
    quiet (visitAll visit is st).2 := by
  induction is generalizing st with
  | nil => exact hquiet
  | cons i is ih =>
    rw [visitAll, List.mem_cons, not_or] at hno
    obtain ⟨hinv, hlasts⟩ := hvisit i List.mem_cons_self st hst
    have hquiet' := hlasts (Bool.eq_false_iff.mpr fun h => hno.1 h.symm) hquiet
    exact ih _ (fun j hj => hvisit j (List.mem_cons_of_mem _ hj)) hinv hquiet' hno.2

/-- **If some visit answers `true`**, what such a visit achieves is achieved, as long as it
lasts. -/
theorem visitAll_achieves (visit : ι → σ → Bool × σ) (is : List ι) (st : σ)
    (inv achieved : σ → Prop)
    (hvisit : ∀ i ∈ is, ∀ a, inv a → inv (visit i a).2 ∧
      ((visit i a).1 = true → achieved (visit i a).2) ∧ (achieved a → achieved (visit i a).2))
    (hst : inv st) (hyes : achieved st ∨ true ∈ (visitAll visit is st).1) :
    achieved (visitAll visit is st).2 := by
  induction is generalizing st with
  | nil => exact hyes.resolve_right List.not_mem_nil
  | cons i is ih =>
    rw [visitAll, List.mem_cons] at hyes
    obtain ⟨hinv, hachieves, hlasts⟩ := hvisit i List.mem_cons_self st hst
    refine ih _ (fun j hj => hvisit j (List.mem_cons_of_mem _ hj)) hinv ?_
    rcases hyes with hst | hhere | hlater
    · exact .inl (hlasts hst)
    · exact .inl (hachieves hhere.symm)
    · exact .inr hlater

/-- **Until a visit stops it**, every answer is an `ok` one and what holds of the state
lasts. -/
theorem visitAll_until (visit : ι → σ → ω × σ) (is : List ι) (st : σ) (quiet : σ → Prop)
    (stop ok : ω → Prop)
    (hvisit : ∀ i ∈ is, ∀ a, quiet a →
      stop (visit i a).1 ∨ ok (visit i a).1 ∧ quiet (visit i a).2)
    (hst : quiet st) :
    (∃ o ∈ (visitAll visit is st).1, stop o) ∨
      (∀ o ∈ (visitAll visit is st).1, ok o) ∧ quiet (visitAll visit is st).2 := by
  induction is generalizing st with
  | nil => exact .inr ⟨fun o ho => absurd ho List.not_mem_nil, hst⟩
  | cons i is ih =>
    rw [visitAll]
    rcases hvisit i List.mem_cons_self st hst with hstop | ⟨hok, hquiet⟩
    · exact .inl ⟨_, List.mem_cons_self, hstop⟩
    · rcases ih _ (fun j hj => hvisit j (List.mem_cons_of_mem i hj)) hquiet with
        ⟨o, ho, hstop⟩ | ⟨hall, hquiet⟩
      · exact .inl ⟨o, List.mem_cons_of_mem _ ho, hstop⟩
      · exact .inr ⟨List.forall_mem_cons.mpr ⟨hok, hall⟩, hquiet⟩

/-- What is selected is a member. -/
theorem mem_of_mem_selected {is : List ι} {answers : List Bool} {i : ι}
    (h : i ∈ selected is answers) : i ∈ is := by
  obtain ⟨⟨j, answer⟩, hmem, rfl⟩ := List.mem_map.mp h
  exact (List.of_mem_zip (List.mem_filter.mp hmem).1).1

/-- The members that a question answers with `true`. -/
theorem selected_map (is : List ι) (answer : ι → Bool) :
    selected is (is.map answer) = is.filter answer := by
  unfold selected
  induction is with
  | nil => rfl
  | cons i is ih =>
    rw [List.map_cons, List.zip_cons_cons, List.filter_cons, List.filter_cons]
    split
    · rw [List.map_cons, ih]
    · exact ih

end Specificity
