import Specificity.Proofs.ClauseOrder
import Specificity.Proofs.NormalForm
import Specificity.Trigger

/-!
# From a condition to its clauses

Between the disjunctive normal form and the clauses of a trigger predicates are
dropped because they are alike, clauses because they are equal, and ignored
predicates are set aside. None of these steps keeps "not false", since a dropped
predicate may be false where the like one that stays fails. What they keep is
that a predicate is *backed*: it is at least as wide as some true one
(`Expression.Backed`).
-/

namespace Specificity

/-! ## Keeping first members -/

section

variable {α : Type} {fingerprint : α → UInt64} {same : α → α → Bool}

/-- **Offering members one by one**: kept members stay, new ones come from the
offers, and every offer has the same one kept. -/
theorem foldl_offer_spec (same : α → α → Bool) (items : List α) (k : Kept α)
    (hk : k.Filed fingerprint) :
    (∀ y ∈ k.latest, y ∈ (items.foldl (Kept.offer fingerprint same) k).latest) ∧
    (∀ y ∈ (items.foldl (Kept.offer fingerprint same) k).latest, y ∈ k.latest ∨ y ∈ items) ∧
    ∀ x ∈ items, ∃ y ∈ (items.foldl (Kept.offer fingerprint same) k).latest,
      y = x ∨ same y x = true := by
  induction items generalizing k with
  | nil => exact ⟨fun _ hy => hy, fun _ hy => .inl hy, fun x hx => absurd hx List.not_mem_nil⟩
  | cons x xs ih =>
    rw [List.foldl_cons]
    by_cases hany : ((k.bucket (fingerprint x)).any fun y => same y x) = true
    · -- the member is kept already
      have hoffer : k.offer fingerprint same x = k := if_pos hany
      rw [hoffer]
      obtain ⟨hstay, hnew, hkept⟩ := ih k hk
      refine ⟨hstay, fun y hy => (hnew y hy).imp id (List.mem_cons_of_mem x), fun z hz => ?_⟩
      rcases List.mem_cons.mp hz with rfl | hz
      · obtain ⟨y, hy, hsame⟩ := List.any_eq_true.mp hany
        exact ⟨y, hstay y ((hk _ y).mp hy).1, .inr hsame⟩
      · exact hkept z hz
    · have hoffer : k.offer fingerprint same x = k.push (fingerprint x) x := if_neg hany
      rw [hoffer]
      obtain ⟨hstay, hnew, hkept⟩ := ih _ (hk.push x)
      refine ⟨fun y hy => hstay y (List.mem_cons_of_mem x hy), fun y hy => ?_, fun z hz => ?_⟩
      · rcases hnew y hy with hy | hy
        · rcases List.mem_cons.mp hy with rfl | hy
          · exact .inr List.mem_cons_self
          · exact .inl hy
        · exact .inr (List.mem_cons_of_mem x hy)
      · rcases List.mem_cons.mp hz with rfl | hz
        · exact ⟨z, hstay z List.mem_cons_self, .inl rfl⟩
        · exact hkept z hz

theorem Kept.filed_empty (fingerprint : α → UInt64) : (Kept.empty : Kept α).Filed fingerprint :=
  fun fp y => by
    rw [Kept.bucket_empty]
    exact ⟨fun h => absurd h List.not_mem_nil, fun h => absurd h.1 List.not_mem_nil⟩

/-- What is kept is one of the members. -/
theorem mem_of_mem_keepFirstBy {items : List α} {y : α}
    (h : y ∈ keepFirstBy fingerprint same items) : y ∈ items := by
  obtain ⟨-, hnew, -⟩ := foldl_offer_spec same items _ (Kept.filed_empty fingerprint)
  exact (hnew y (List.mem_reverse.mp h)).resolve_left List.not_mem_nil

/-- Every member has the same one kept. -/
theorem exists_mem_keepFirstBy (fingerprint : α → UInt64) (same : α → α → Bool)
    {items : List α} {x : α} (h : x ∈ items) :
    ∃ y ∈ keepFirstBy fingerprint same items, y = x ∨ same y x = true := by
  obtain ⟨-, -, hkept⟩ := foldl_offer_spec same items _ (Kept.filed_empty fingerprint)
  obtain ⟨y, hy, hsame⟩ := hkept x h
  exact ⟨y, List.mem_reverse.mpr hy, hsame⟩

end

/-! ## Marking subsumed clauses -/

namespace Clause

variable {cs : Comparers} {m : Memory} {c d : Clause} {ds : List Clause}

theorem mem_of_mem_sift (h : d ∈ (sift cs c ds).2) :
    ∃ e ∈ ds, d = { e with subsumed := d.subsumed } := by
  induction ds with
  | nil => exact absurd h List.not_mem_nil
  | cons e es ih =>
    have hstay : d ∈ e :: es → ∃ e' ∈ e :: es, d = { e' with subsumed := d.subsumed } :=
      fun hd => ⟨d, hd, rfl⟩
    have hlater : d ∈ (sift cs c es).2 →
        ∃ e' ∈ e :: es, d = { e' with subsumed := d.subsumed } := fun hd => by
      obtain ⟨e', he', heq⟩ := ih hd
      exact ⟨e', List.mem_cons_of_mem _ he', heq⟩
    rw [sift] at h
    split at h
    · rcases List.mem_cons.mp h with rfl | h
      · exact hstay List.mem_cons_self
      · exact hlater h
    · split at h
      · exact hlater h
      · exact hstay h
      · rcases List.mem_cons.mp h with rfl | h
        · exact ⟨e, List.mem_cons_self, rfl⟩
        · exact hlater h
      · rcases List.mem_cons.mp h with rfl | h
        · exact hstay List.mem_cons_self
        · exact hlater h

/-- **Marking changes nothing but marks**, and drops clauses. -/
theorem mem_of_mem_subsume (h : d ∈ subsume cs ds) :
    ∃ e ∈ ds, d = { e with subsumed := d.subsumed } := by
  induction ds using subsume.induct cs with
  | case1 => simp [subsume] at h
  | case2 c ds hmarked ih =>
    rw [subsume, if_pos hmarked] at h
    rcases List.mem_cons.mp h with rfl | h
    · exact ⟨d, List.mem_cons_self, rfl⟩
    · obtain ⟨e, he, heq⟩ := ih h
      exact ⟨e, List.mem_cons_of_mem _ he, heq⟩
  | case3 c ds hmarked _ ih =>
    rw [subsume, if_neg hmarked] at h
    rcases List.mem_cons.mp h with rfl | h
    · refine ⟨c, List.mem_cons_self, ?_⟩
      split <;> rfl
    · obtain ⟨e, he, heq⟩ := ih h
      obtain ⟨e', he', heq'⟩ := mem_of_mem_sift he
      exact ⟨e', List.mem_cons_of_mem _ he', by rw [heq, heq']⟩

end Clause

/-! ## Backed predicates -/

/-- **A backed predicate** is at least as wide as some true one. -/
def Expression.Backed (cs : Comparers) (m : Memory) (q : Expression) : Prop :=
  ∃ r, r.holds m = .ok true ∧ (cs.relate q r).covers = true

/-- Are all predicates of the clause backed? -/
def Clause.Backed (cs : Comparers) (m : Memory) (c : Clause) : Prop :=
  ∀ q ∈ c.conjuncts, q.Backed cs m

/-- **An upright expression is not false** where all predicates of a clause of its
normal form are backed. -/
theorem Expression.not_false_of_backed {cs : Comparers} {m : Memory} {e : Expression}
    (hcs : cs.BoundsOnly) (hup : e.upright false = true)
    (h : ∃ d ∈ e.negationNormal.clauses, d.Backed cs m) : e.holds m ≠ .ok false := by
  obtain ⟨d, hd, hbacked⟩ := h
  refine not_false_of_clause_negationNormal hup ⟨d, hd, fun q hq => ?_⟩
  obtain ⟨r, hr, hqr⟩ := hbacked q hq
  exact Comparers.not_false_of_covers hcs hqr hr

namespace Clause

variable {cs : Comparers} {m : Memory} {c d : Clause}

/-- Of alike clauses each covers the other. -/
theorem coversAll_of_alike (hcs : cs.BoundsOnly) (h : c.alike d = true) :
    coversAll cs c d = true := by
  rw [alike, Bool.and_eq_true] at h
  refine (coversAll_iff cs c d).mpr fun q hq => ?_
  obtain ⟨p, hp, hqp⟩ := Expression.exists_alike_of_sameBag h.2 hq
  exact ⟨p, hp, Relationship.covers_of_equal (Comparers.relate_of_alike hcs q p hqp)⟩

/-- **Alike clauses are equal** under a registry of bounds. -/
theorem relate_of_alike (hcs : cs.BoundsOnly) (h : c.alike d = true) : c.relate cs d = .equal := by
  have hwider : ∀ c d : Clause, c.alike d = true → Wider cs c d := by
    intro c d h
    have hcovers := coversAll_of_alike hcs h
    rw [alike, Bool.and_eq_true, decide_eq_true_iff, Expression.sameBag, Bool.and_eq_true,
      beq_iff_eq] at h
    refine ⟨hcovers, .inr ⟨h.2.1, fun _ => ?_⟩⟩
    rw [boundWithin_iff, h.1]
    exact List.Subset.refl _
  have hback : d.alike c = true := by
    rw [alike, Bool.and_eq_true, decide_eq_true_iff] at h ⊢
    exact ⟨h.1.symm, Expression.sameBag_comm c.conjuncts d.conjuncts ▸ h.2⟩
  exact (relate_eq_equal_iff cs c d).mpr ⟨hwider c d h, hwider d c hback⟩

/-- Dropping repeated predicates drops none that is not backed. -/
theorem backed_of_backed_distinct (hcs : cs.BoundsOnly) (digest : Digest)
    (h : (c.distinct digest).Backed cs m) : c.Backed cs m := by
  have hlawful := Comparers.lawful_of_boundsOnly hcs
  intro q hq
  obtain ⟨p, hp, hsame⟩ := exists_mem_keepFirstBy digest.ofExpression Expression.alike hq
  obtain ⟨r, hr, hpr⟩ := h p hp
  rcases hsame with rfl | halike
  · exact ⟨r, hr, hpr⟩
  · have hequal := Comparers.relate_of_alike hcs p q halike
    exact ⟨r, hr, hlawful.trans q p r
      (Relationship.covers_of_equal (hlawful.equal_symm hequal)) hpr⟩

/-! ## Ignored predicates -/

/-- **What is set aside**: nothing if no predicate is ignored, and otherwise a condition
that is true when all ignored ones are. -/
theorem ignored_withdrawIgnored_cases (c : Clause) :
    (c.withdrawIgnored.ignored = none ∧ ∀ e, .ignore e ∉ c.conjuncts) ∨
    ∃ i, c.withdrawIgnored.ignored = some i ∧ (∃ e, .ignore e ∈ c.conjuncts) ∧
      ∀ m, i.holds m = .ok true ↔ ∀ e, .ignore e ∈ c.conjuncts → e.holds m = .ok true := by
  unfold withdrawIgnored
  dsimp only
  generalize hes : c.conjuncts.filterMap _ = es
  have hmem : ∀ e, .ignore e ∈ c.conjuncts ↔ e ∈ es := by
    intro e
    rw [← hes, List.mem_filterMap]
    refine ⟨fun he => ⟨_, he, rfl⟩, ?_⟩
    rintro ⟨q, hq, hqe⟩
    cases q with
    | ignore e' =>
      obtain rfl := Option.some.inj hqe
      exact hq
    | _ => exact (Option.some_ne_none e hqe.symm).elim
  simp only [hmem]
  split
  · exact .inl ⟨rfl, fun e => List.not_mem_nil⟩
  · next e => exact .inr ⟨e, rfl, ⟨e, List.mem_singleton_self e⟩, fun m => by simp⟩
  · next hne _ =>
    obtain ⟨e, he⟩ := List.exists_mem_of_ne_nil _ hne
    refine .inr ⟨_, rfl, ⟨e, he⟩, fun m => ?_⟩
    rw [Expression.holds_and, Expression.evalAll_eq_true_iff]

theorem ignored_withdrawIgnored_eq_none_iff (c : Clause) :
    c.withdrawIgnored.ignored = none ↔ ∀ p ∈ c.conjuncts, p.kind ≠ .ignore := by
  rcases c.ignored_withdrawIgnored_cases with ⟨hnone, hno⟩ | ⟨i, hsome, ⟨e, he⟩, -⟩
  · refine iff_of_true hnone fun p hp hkind => ?_
    cases p with
    | ignore e => exact hno e hp
    | _ => exact Expression.Kind.noConfusion hkind
  · rw [hsome]
    exact iff_of_false (Option.some_ne_none i) fun hno => hno _ he rfl

/-- The ignored condition is true, if there is one, when all ignored predicates are. -/
theorem holds_ignored_withdrawIgnored_iff (m : Memory) (c : Clause) :
    (∀ i, c.withdrawIgnored.ignored = some i → i.holds m = .ok true) ↔
      ∀ e, .ignore e ∈ c.conjuncts → e.holds m = .ok true := by
  rcases c.ignored_withdrawIgnored_cases with ⟨hnone, hno⟩ | ⟨i, hsome, -, hiff⟩
  · rw [hnone]
    exact iff_of_true (fun i hi => (Option.some_ne_none i hi.symm).elim)
      fun e he => absurd he (hno e)
  · rw [hsome, ← hiff m]
    exact ⟨fun h => h i rfl, fun h j hj => Option.some.inj hj ▸ h⟩

/-- **Setting ignored predicates aside**: they are backed if the ignored condition is
true. -/
theorem backed_of_backed_withdrawIgnored (hcs : cs.Lawful)
    (h : c.withdrawIgnored.Backed cs m)
    (hignored : ∀ e, c.withdrawIgnored.ignored = some e → e.holds m = .ok true) :
    c.Backed cs m := by
  intro q hq
  by_cases hkind : q.kind = .ignore
  · cases q with
    | ignore e =>
      have htrue := (holds_ignored_withdrawIgnored_iff m c).mp hignored e hq
      refine ⟨.ignore e, by rw [Expression.holds_ignore]; exact htrue, ?_⟩
      rw [hcs.self]
      rfl
    | _ => exact Expression.Kind.noConfusion hkind
  · exact h q (List.mem_filter.mpr ⟨hq, by simpa using hkind⟩)

end Clause

namespace Trigger

variable {cs : Comparers} {m : Memory} {c : Clause} {e : Expression}

/-- **A clause of a condition comes from its normal form**: if all its predicates are
backed and its ignored condition is true, some clause of the normal form has all
its predicates backed. -/
theorem exists_backed_of_mem_clausesOf (hcs : cs.BoundsOnly) (hc : c ∈ clausesOf cs [] e [])
    (hbacked : c.Backed cs m) (hignored : ∀ i, c.ignored = some i → i.holds m = .ok true) :
    ∃ d ∈ e.negationNormal.clauses, d.Backed cs m := by
  -- back through the passes: ignored parts, subsumption, repeated clauses, predicates
  unfold clausesOf at hc
  obtain ⟨c₁, hc₁, rfl⟩ := List.mem_map.mp hc
  have hbacked₁ := Clause.backed_of_backed_withdrawIgnored (Comparers.lawful_of_boundsOnly hcs)
    hbacked hignored
  obtain ⟨c₂, hc₂, heq⟩ := Clause.mem_of_mem_subsume hc₁
  have hbacked₂ : c₂.Backed cs m := fun q hq => hbacked₁ q (by rw [heq]; exact hq)
  obtain ⟨c₃, hc₃, rfl⟩ := List.mem_map.mp (mem_of_mem_keepFirstBy hc₂)
  have hbacked₃ := Clause.backed_of_backed_distinct hcs _ hbacked₂
  obtain ⟨d, hd, rfl⟩ := List.mem_map.mp hc₃
  exact ⟨d, hd, Clause.backed_of_backed_distinct hcs .standard hbacked₃⟩

end Trigger

end Specificity
