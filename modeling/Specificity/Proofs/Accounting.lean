import Specificity.Proofs.History
import Specificity.Proofs.Visibility

/-!
# Hidden triggers are accounted for

A node hides a trigger only for the sake of another one that it carries and that
is at most as wide. Chains of such reasons end at a visible trigger, because
"at most as wide" is transitive: of every trigger that a node carries it shows
one that is at most as wide (`Node.Accounted`).

What is hidden thereby depends on the order of the changes: of two triggers that
are at most as wide as each other either may be the visible one. That every
hidden trigger is accounted for does not depend on it.
-/

namespace Specificity

/-! ## How wide triggers are -/

namespace Trigger

variable {α : Type} {cs : Comparers} {s t u : Trigger α} {c d : Clause}

/-- **At most as wide**: each active clause is at most as wide as some active clause
of the other trigger. -/
def Within (cs : Comparers) (t u : Trigger α) : Prop :=
  ∀ c ∈ t.active, ∃ d ∈ u.active, (c.relate cs d).isCovered = true

/-- **A trigger has a clause** if one of its active clauses is equal to it. -/
def Has (cs : Comparers) (t : Trigger α) (c : Clause) : Prop :=
  ∃ d ∈ t.active, d.relate cs c = .equal

theorem within_self (hcs : cs.Lawful) (t : Trigger α) : t.Within cs t := by
  intro c hc
  exact ⟨c, hc, Relationship.isCovered_of_equal (Clause.relate_self hcs c)⟩

theorem Within.trans (hcs : cs.Lawful) (hst : s.Within cs t) (htu : t.Within cs u) :
    s.Within cs u := by
  intro c hc
  obtain ⟨d, hd, hcd⟩ := hst c hc
  obtain ⟨e, he, hde⟩ := htu d hd
  exact ⟨e, he, (Clause.orderly_relate hcs).isCovered_trans hcd hde⟩

/-- A trigger has every clause that is equal to one it has. -/
theorem Has.of_equal (hcs : cs.Lawful) (h : t.Has cs c) (hcd : c.relate cs d = .equal) :
    t.Has cs d := by
  obtain ⟨e, he, hec⟩ := h
  exact ⟨e, he, by rw [(Clause.orderly_relate hcs).eq_of_equal hec, hcd]⟩

/-- A clause finds shelter only with one that is at least as wide. -/
theorem exists_of_shelter {r : Relationship} {ds : List Clause}
    (h : shelter? cs c ds = some r) : ∃ d ∈ ds, c.relate cs d = r ∧ r.isCovered = true := by
  obtain ⟨d, hd, hr⟩ := List.exists_of_findSome?_eq_some h
  by_cases hle : (c.relate cs d).isCovered = true
  · rw [if_pos hle] at hr
    obtain rfl := Option.some.inj hr
    exact ⟨d, hd, rfl, hle⟩
  · rw [if_neg hle] at hr
    exact (Option.some_ne_none r hr.symm).elim

/-- If all members have an answer, each of them has one of these. -/
theorem exists_of_mapM {ι ω : Type} {f : ι → Option ω} {is : List ι} {os : List ω}
    (h : is.mapM f = some os) : ∀ i ∈ is, ∃ o ∈ os, f i = some o := by
  induction is generalizing os with
  | nil => exact fun i hi => absurd hi List.not_mem_nil
  | cons i is ih =>
    rw [List.mapM_cons] at h
    obtain ⟨o, ho, h⟩ := Option.bind_eq_some_iff.mp h
    obtain ⟨os', hos, h⟩ := Option.bind_eq_some_iff.mp h
    obtain rfl : o :: os' = os := Option.some.inj h
    intro j hj
    rcases List.mem_cons.mp hj with rfl | hj
    · exact ⟨o, List.mem_cons_self, ho⟩
    · obtain ⟨p, hp, hjp⟩ := ih hos j hj
      exact ⟨p, List.mem_cons_of_mem o hp, hjp⟩

/-- **Coverage**: a trigger whose clauses are covered is at most as wide. -/
theorem within_of_coverage (cs : Comparers) (t u : Trigger α)
    (h : (coverage cs t.active u.active).isCovered = true) :
    t.Within cs u := by
  unfold coverage at h
  split at h
  · exact absurd h Bool.false_ne_true
  · next shelters hshelters =>
    intro c hc
    obtain ⟨r, -, hr⟩ := exists_of_mapM hshelters c hc
    obtain ⟨d, hd, rfl, hle⟩ := exists_of_shelter hr
    exact ⟨d, hd, hle⟩

/-- What the relationship of two triggers says about their width. -/
theorem within_of_relate (cs : Comparers) (t u : Trigger α) :
    ((t.relate cs u).isCovered = true → t.Within cs u) ∧
      ((t.relate cs u).covers = true → u.Within cs t) := by
  have hfirst := within_of_coverage cs t u
  have hsecond := within_of_coverage cs u t
  unfold relate
  dsimp only
  split
  · next h =>
    rw [h.1] at hfirst
    rw [h.2] at hsecond
    exact ⟨fun _ => hfirst rfl, fun _ => hsecond rfl⟩
  · split
    · next h => exact ⟨fun _ => hfirst h, fun hnot => absurd hnot Bool.false_ne_true⟩
    · split
      · next h => exact ⟨fun hnot => absurd hnot Bool.false_ne_true, fun _ => hsecond h⟩
      · exact ⟨fun hnot => absurd hnot Bool.false_ne_true,
          fun hnot => absurd hnot Bool.false_ne_true⟩

end Trigger

namespace Register

variable {α : Type} {cs : Comparers} {r r' : Register α} {a b c : TriggerId}

/-- Is the trigger with the first handle at most as wide as the one with the second? -/
def Within (cs : Comparers) (r : Register α) (a b : TriggerId) : Prop :=
  ∃ t u, r.get? a = some t ∧ r.get? b = some u ∧ t.Within cs u

theorem within_self (hcs : cs.Lawful) {t : Trigger α} (ha : r.get? a = some t) :
    r.Within cs a a := ⟨t, t, ha, ha, t.within_self hcs⟩

theorem Within.trans (hcs : cs.Lawful) (hab : r.Within cs a b) (hbc : r.Within cs b c) :
    r.Within cs a c := by
  obtain ⟨t, u, ht, hu, htu⟩ := hab
  obtain ⟨u', v, hu', hv, huv⟩ := hbc
  obtain rfl := Option.some.inj (hu.symm.trans hu')
  exact ⟨t, v, ht, hv, htu.trans hcs huv⟩

/-- What the relationship of two handles says about the width of their triggers. -/
theorem within_of_relate (r : Register α) (a b : TriggerId) :
    ((r.relate cs a b).isCovered = true → r.Within cs a b) ∧
      ((r.relate cs a b).covers = true → r.Within cs b a) := by
  unfold relate
  split
  · next t u ht hu =>
    have h := Trigger.within_of_relate cs t u
    exact ⟨fun hle => ⟨t, u, ht, hu, h.1 hle⟩, fun hge => ⟨u, t, hu, ht, h.2 hge⟩⟩
  · exact ⟨fun hnot => absurd hnot Bool.false_ne_true, fun hnot => absurd hnot Bool.false_ne_true⟩

end Register

/-! ## The triggers of one node -/

namespace Node

variable {α : Type} {cs : Comparers} {r r' : Register α} {n : Node} {t : TriggerId}

/-- **A node that accounts for what it hides.** -/
structure Accounted (cs : Comparers) (r : Register α) (n : Node) : Prop where
  /-- What it carries is registered and has its clause. -/
  has : ∀ u ∈ n.carried, ∃ t, r.get? u = some t ∧ t.Has cs n.clause
  /-- What it shows it carries. -/
  carried : ∀ v ∈ n.visible, v ∈ n.carried
  /-- Of all that it carries it shows something at most as wide. -/
  shown : ∀ u ∈ n.carried, ∃ v ∈ n.visible, r.Within cs v u

/-- Only the entries of what it carries matter. -/
theorem Accounted.congr (h : n.Accounted cs r) (hget : ∀ u ∈ n.carried, r'.get? u = r.get? u) :
    n.Accounted cs r' where
  has u hu := by
    rw [hget u hu]
    exact h.has u hu
  carried := h.carried
  shown u hu := by
    obtain ⟨v, hv, t, t', ht, ht', hwithin⟩ := h.shown u hu
    refine ⟨v, hv, t, t', ?_, ?_, hwithin⟩
    · rw [hget v (h.carried v hv)]
      exact ht
    · rw [hget u hu]
      exact ht'

/-- The root of a tree without triggers carries nothing. -/
theorem accounted_ofClause (cs : Comparers) (r : Register α) (c : Clause) :
    (ofClause c).Accounted cs r :=
  ⟨fun _ hu => absurd hu List.not_mem_nil, fun _ hv => absurd hv List.not_mem_nil,
    fun _ hu => absurd hu List.not_mem_nil⟩

/-- A new node shows the one trigger it carries. -/
theorem accounted_ofTrigger (hcs : cs.Lawful) {u : Trigger α} (ht : r.get? t = some u)
    {c : Clause} (hc : u.Has cs c) : (ofTrigger c t).Accounted cs r where
  has v hv := by
    rw [List.mem_singleton.mp hv]
    exact ⟨u, ht, hc⟩
  carried _ hv := hv
  shown v hv := by
    refine ⟨v, hv, ?_⟩
    rw [List.mem_singleton.mp hv]
    exact Register.within_self hcs ht

/-- **Making way**: a trigger that was visible still is, or is wider than the one
that asked; and that one is turned away only for a narrower one. -/
theorem makeWay_spec (judge : TriggerId → Relationship) (vs : List TriggerId) :
    (∀ v ∈ vs, v ∈ (makeWay judge vs).1 ∨ judge v = .specializes) ∧
      ((makeWay judge vs).2 = true ∨ ∃ w ∈ (makeWay judge vs).1, judge w = .generalizes) := by
  induction vs with
  | nil => exact ⟨fun v hv => absurd hv List.not_mem_nil, .inl rfl⟩
  | cons v vs ih =>
    obtain ⟨hkept, hadmitted⟩ := ih
    rw [makeWay]
    -- an equal or incomparable trigger stays and decides nothing
    have hstay : (∀ w ∈ v :: vs, w ∈ v :: (makeWay judge vs).1 ∨ judge w = .specializes) ∧
        ((makeWay judge vs).2 = true ∨
          ∃ w ∈ v :: (makeWay judge vs).1, judge w = .generalizes) := by
      constructor
      · intro w hw
        rcases List.mem_cons.mp hw with rfl | hw
        · exact .inl List.mem_cons_self
        · exact (hkept w hw).imp (List.mem_cons_of_mem v) id
      · rcases hadmitted with hadmitted | ⟨w, hw, hwide⟩
        · exact .inl hadmitted
        · exact .inr ⟨w, List.mem_cons_of_mem v hw, hwide⟩
    cases hv : judge v with
    | equal => exact hstay
    | incomparable => exact hstay
    | generalizes => exact ⟨fun w hw => .inl hw, .inr ⟨v, List.mem_cons_self, hv⟩⟩
    | specializes =>
      refine ⟨fun w hw => ?_, hadmitted⟩
      rcases List.mem_cons.mp hw with rfl | hw
      · exact .inr hv
      · exact hkept w hw

/-- What a trigger leaves visible by joining: what was, and itself unless turned away. -/
theorem mem_visible_join (judge : TriggerId → Relationship) (t v : TriggerId) (n : Node) :
    v ∈ (n.join judge t).visible ↔
      v ∈ (makeWay judge n.visible).1 ∨ v = t ∧ (makeWay judge n.visible).2 = true := by
  rw [visible_join]
  split
  · next hadmit =>
    rw [Bool.and_eq_true] at hadmit
    rw [List.mem_append, List.mem_singleton]
    exact or_congr_right ⟨fun hv => ⟨hv, hadmit.1⟩, fun hv => hv.1⟩
  · next hnot =>
    refine ⟨.inl, fun hv => hv.elim id ?_⟩
    rintro ⟨rfl, hadmitted⟩
    by_contra hnew
    refine hnot ?_
    rw [hadmitted, Bool.true_and, Bool.not_eq_true', ← Bool.not_eq_true, List.contains_iff_mem]
    exact hnew

/-- **Joining keeps the account**: what gives way to the trigger is wider, so what it
accounted for the trigger accounts for, or whatever turned the trigger away. -/
theorem Accounted.join (hcs : cs.Lawful) (h : n.Accounted cs r) {u : Trigger α}
    (ht : r.get? t = some u) (hc : u.Has cs n.clause) :
    (n.join (r.relate cs t) t).Accounted cs r := by
  obtain ⟨hkept, hadmitted⟩ := makeWay_spec (r.relate cs t) n.visible
  have hsub := (makeWay_sublist (r.relate cs t) n.visible).subset
  have htrigger : ∃ v ∈ (n.join (r.relate cs t) t).visible, r.Within cs v t := by
    rcases hadmitted with hadmitted | ⟨w, hw, hwide⟩
    · exact ⟨t, (mem_visible_join _ _ _ _).mpr (.inr ⟨rfl, hadmitted⟩),
        Register.within_self hcs ht⟩
    · exact ⟨w, (mem_visible_join _ _ _ _).mpr (.inl hw),
        (r.within_of_relate t w).2 (Relationship.covers_of_generalizes hwide)⟩
  exact {
    has := fun v hv => by
      rw [carried_join, List.mem_append, List.mem_singleton] at hv
      rcases hv with hv | rfl
      · exact h.has v hv
      · exact ⟨u, ht, hc⟩
    carried := fun v hv => by
      rw [carried_join, List.mem_append, List.mem_singleton]
      rcases (mem_visible_join _ _ _ _).mp hv with hv | ⟨rfl, -⟩
      · exact .inl (h.carried v (hsub hv))
      · exact .inr rfl
    shown := fun v hv => by
      rw [carried_join, List.mem_append, List.mem_singleton] at hv
      rcases hv with hv | rfl
      · obtain ⟨w, hw, hwv⟩ := h.shown v hv
        rcases hkept w hw with hstays | hwide
        · exact ⟨w, (mem_visible_join _ _ _ _).mpr (.inl hstays), hwv⟩
        · -- `w` gave way to the trigger
          obtain ⟨x, hx, hxt⟩ := htrigger
          have htw : r.Within cs t w := (r.within_of_relate t w).1
            (Relationship.isCovered_of_specializes hwide)
          exact ⟨x, hx, (hxt.trans hcs htw).trans hcs hwv⟩
      · exact htrigger }

/-- **Promotion leaves nothing out**: what is not visible afterwards is at least as
wide as something that is. -/
theorem exists_covers_of_promote (judge : TriggerId → TriggerId → Relationship)
    (ts visible : List TriggerId) :
    ∀ t ∈ ts, t ∈ promote judge ts visible ∨
      ∃ v ∈ promote judge ts visible, (judge t v).covers = true := by
  induction ts generalizing visible with
  | nil => exact fun t ht => absurd ht List.not_mem_nil
  | cons u ts ih =>
    intro t ht
    rw [promote_cons]
    rcases List.mem_cons.mp ht with rfl | ht
    · split
      · next hhidden =>
        rw [Bool.or_eq_true, List.contains_iff_mem, List.any_eq_true] at hhidden
        rcases hhidden with ht | ⟨v, hv, hcov⟩
        · exact .inl ((mem_promote judge ts visible t).1 ht)
        · exact .inr ⟨v, (mem_promote judge ts visible v).1 hv, hcov⟩
      · exact .inl ((mem_promote judge ts _ t).1 (List.mem_append_right _ List.mem_cons_self))
    · exact ih _ t ht

theorem mem_carried_without (judge : TriggerId → TriggerId → Relationship) (t u : TriggerId)
    (n : Node) : u ∈ (n.without judge t).carried ↔ u ∈ n.carried ∧ u ≠ t := by
  have hfilter : u ∈ n.carried.filter (fun v => v ≠ t) ↔ u ∈ n.carried ∧ u ≠ t := by
    rw [List.mem_filter, decide_eq_true_eq]
  unfold without
  split
  · unfold withdraw
    split <;> exact hfilter
  · next hnot =>
    rw [List.contains_iff_mem] at hnot
    exact ⟨fun hu => ⟨hu, ne_of_mem_of_not_mem hu hnot⟩, fun hu => hu.1⟩

/-- Withdrawing a visible trigger keeps the account, since all that it may have hidden
is considered for promotion. -/
theorem Accounted.withdraw_of_visible (hcs : cs.Lawful) (h : n.Accounted cs r)
    (hcarried : t ∈ n.carried) (hvisible : t ∈ n.visible) :
    (n.without (r.relate cs) t).Accounted cs r := by
  have hpromoted : (n.without (r.relate cs) t).visible =
      promote (r.relate cs) (n.without (r.relate cs) t).carried
        (n.visible.filter fun v => v ≠ t) := by
    rw [without, if_pos (List.contains_iff_mem.mpr hcarried), withdraw,
      if_pos (List.contains_iff_mem.mpr hvisible)]
  have hhas : ∀ u ∈ (n.without (r.relate cs) t).carried,
      ∃ x, r.get? u = some x ∧ x.Has cs (n.without (r.relate cs) t).clause := fun u hu => by
    rw [clause_without]
    exact h.has u ((mem_carried_without _ _ _ _).mp hu).1
  exact {
    has := hhas
    carried := fun v hv => by
      rw [hpromoted] at hv
      rcases (mem_promote _ _ _ _).2 hv with hv | hv
      · obtain ⟨hv, hne⟩ := List.mem_filter.mp hv
        exact (mem_carried_without _ _ _ _).mpr ⟨h.carried v hv, of_decide_eq_true hne⟩
      · exact hv
    shown := fun u hu => by
      rw [hpromoted]
      rcases exists_covers_of_promote (r.relate cs) _ (n.visible.filter fun v => v ≠ t) u hu
        with hu' | ⟨v, hv, hcov⟩
      · obtain ⟨x, hx, -⟩ := hhas u hu
        exact ⟨u, hu', Register.within_self hcs hx⟩
      · exact ⟨v, hv, (r.within_of_relate u v).2 hcov⟩ }

/-- Withdrawing a hidden trigger keeps the account: it accounted for nothing. -/
theorem Accounted.withdraw_of_hidden (h : n.Accounted cs r) (hcarried : t ∈ n.carried)
    (hhidden : t ∉ n.visible) : (n.without (r.relate cs) t).Accounted cs r := by
  have hsame : (n.without (r.relate cs) t).visible = n.visible := by
    rw [without, if_pos (List.contains_iff_mem.mpr hcarried), withdraw,
      if_neg (mt List.contains_iff_mem.mp hhidden)]
  exact {
    has := fun u hu => by
      rw [clause_without]
      exact h.has u ((mem_carried_without _ _ _ _).mp hu).1
    carried := fun v hv => by
      rw [hsame] at hv
      exact (mem_carried_without _ _ _ _).mpr ⟨h.carried v hv, ne_of_mem_of_not_mem hv hhidden⟩
    shown := fun u hu => by
      rw [hsame]
      exact h.shown u ((mem_carried_without _ _ _ _).mp hu).1 }

/-- **Withdrawing keeps the account**, whether the trigger was visible, hidden, or not
there. -/
theorem Accounted.without (hcs : cs.Lawful) (h : n.Accounted cs r) (t : TriggerId) :
    (n.without (r.relate cs) t).Accounted cs r := by
  by_cases hcarried : t ∈ n.carried
  · by_cases hvisible : t ∈ n.visible
    · exact h.withdraw_of_visible hcs hcarried hvisible
    · exact h.withdraw_of_hidden hcarried hvisible
  · rw [without_eq_self _ hcarried]
    exact h

end Node

end Specificity
