import Specificity.Proofs.Antichain
import Specificity.Proofs.Certainty
import Specificity.Proofs.Completeness

/-!
# A trigger means what its condition says

Seven passes lie between a condition and the active clauses of its trigger, and
each of them drops something: a negation, an operand order, a like predicate, an
equal clause, a narrower one. What survives all of them, in both directions, is that
the predicates of a clause are *backed*, each at least as wide as some true one.
Backwards this gives that a condition with a fulfilled clause is not false, which is
what a report of the tree rests on. Forwards, a true condition leaves an active
clause with backed predicates.

That the backed predicates are true in their turn is a matter of the condition: it
needs that nothing in it can fail, or that there is nothing in its predicates to
reorder (`Expression.Certain`). Without either, a true condition may be left with
clauses that all fail.
-/

namespace Specificity

/-! ## Certain predicates -/

/-- **A certain predicate** is true as soon as it is backed. -/
def Expression.Certain (cs : Comparers) (m : Memory) (q : Expression) : Prop :=
  q.Backed cs m → q.holds m = .ok true

theorem Expression.certain_of_simple {cs : Comparers} (hcs : cs.BoundsOnly) (m : Memory)
    {q : Expression} (hq : q.simple = true) : q.Certain cs m := by
  rintro ⟨r, hr, hqr⟩
  exact Comparers.holds_of_covers_of_simple hcs hq hqr hr

theorem Expression.certain_of_unfailing {cs : Comparers} (hcs : cs.BoundsOnly) {m : Memory}
    {q : Expression} (hq : q.unfailing m = true) : q.Certain cs m := by
  rintro ⟨r, hr, hqr⟩
  exact Comparers.holds_of_covers_of_unfailing hcs hq hqr hr

/-- **The predicates of a normal form are certain** if the expression is unfailing or
shallow. -/
theorem Expression.certain_of_mem_clauses {cs : Comparers} (hcs : cs.BoundsOnly) {m : Memory}
    {e q : Expression} (he : e.unfailing m = true ∨ e.shallow = true)
    (hq : ∃ c ∈ e.negationNormal.clauses, q ∈ c.conjuncts) : q.Certain cs m := by
  obtain ⟨c, hc, hq⟩ := hq
  rcases he with hunfailing | hshallow
  · have hnnf := (inherited_unfailing m).nnf false e hunfailing
    exact certain_of_unfailing hcs (((distributive_unfailing m).clauses _ hnnf c hc).property q hq)
  · have hnnf := inherited_crisp.nnf false e hshallow
    have hmade := distributive_crisp.clauses _ hnnf c hc
    exact certain_of_simple hcs m (simple_of_crisp (hmade.property q hq) (hmade.atom q hq))

namespace Clause

variable {cs : Comparers} {m : Memory} {c d : Clause} {ds : List Clause}

theorem eval_eq_true_iff (m : Memory) (c : Clause) :
    c.eval m = .ok true ↔ ∀ q ∈ c.conjuncts, q.holds m = .ok true :=
  Expression.evalAll_eq_true_iff m c.conjuncts

/-- A true predicate backs itself. -/
theorem backed_of_eval (hcs : cs.Lawful) (h : c.eval m = .ok true) : c.Backed cs m := fun q hq =>
  ⟨q, (eval_eq_true_iff m c).mp h q hq, Relationship.covers_of_equal (hcs.self q)⟩

/-- **A clause at least as wide as a backed one** is backed. -/
theorem Backed.of_coversAll (hcs : cs.Lawful) (h : c.Backed cs m)
    (hcovers : coversAll cs d c = true) : d.Backed cs m := by
  intro q hq
  obtain ⟨p, hp, hqp⟩ := (coversAll_iff cs d c).mp hcovers q hq
  obtain ⟨r, hr, hpr⟩ := h p hp
  exact ⟨r, hr, hcs.trans q p r hqp hpr⟩

/-- **A clause of certain predicates at least as wide as a true one** is true. -/
theorem eval_of_isCovered (hcs : cs.Lawful) (hd : ∀ q ∈ d.conjuncts, q.Certain cs m)
    (hcd : (c.relate cs d).isCovered = true) (hc : c.eval m = .ok true) : d.eval m = .ok true := by
  have hbacked := (backed_of_eval hcs hc).of_coversAll hcs ((isCovered_relate cs c d).mp hcd).1
  exact (eval_eq_true_iff m d).mpr fun q hq => hd q hq (hbacked q hq)

/-! ## Through the passes -/

/-- **Is some unmarked clause of the list backed?** -/
def SomeBacked (cs : Comparers) (m : Memory) (ds : List Clause) : Prop :=
  ∃ d ∈ ds, d.subsumed = false ∧ d.Backed cs m

/-- Dropping repeated predicates. -/
theorem SomeBacked.map_distinct (digest : Digest) (h : SomeBacked cs m ds) :
    SomeBacked cs m (ds.map (distinct digest)) := by
  obtain ⟨d, hd, hactive, hbacked⟩ := h
  exact ⟨d.distinct digest, List.mem_map_of_mem hd, hactive, fun q hq =>
    hbacked q (mem_of_mem_keepFirstBy hq)⟩

/-- Dropping repeated clauses: each is like one that is kept. -/
theorem SomeBacked.distinctAll (hcs : cs.BoundsOnly) (digest : Digest)
    (hunmarked : ∀ d ∈ ds, d.subsumed = false) (h : SomeBacked cs m ds) :
    SomeBacked cs m (distinctAll digest ds) := by
  obtain ⟨d, hd, -, hbacked⟩ := h
  obtain ⟨c, hc, hsame⟩ := exists_mem_keepFirstBy (fingerprint digest) alike hd
  refine ⟨c, hc, hunmarked c (mem_of_mem_keepFirstBy hc), ?_⟩
  rcases hsame with rfl | halike
  · exact hbacked
  · exact hbacked.of_coversAll (Comparers.lawful_of_boundsOnly hcs) (coversAll_of_alike hcs halike)

/-- Marking subsumed clauses: each is at most as wide as one that stays unmarked. -/
theorem SomeBacked.subsume (hcs : cs.Lawful) (h : SomeBacked cs m ds) :
    SomeBacked cs m (subsume cs ds) := by
  obtain ⟨d, hd, hactive, hbacked⟩ := h
  obtain ⟨c, hc, hcactive, hdc⟩ := exists_isCovered_subsume hcs ds d hd hactive
  exact ⟨c, hc, hcactive, hbacked.of_coversAll hcs ((isCovered_relate cs d c).mp hdc).1⟩

/-- Setting ignored predicates aside: the clause stays true, and is granted. -/
theorem eval_withdrawIgnored (h : c.eval m = .ok true) :
    c.withdrawIgnored.eval m = .ok true ∧ c.withdrawIgnored.Granted m := by
  rw [eval_eq_true_iff] at h
  refine ⟨(eval_eq_true_iff m _).mpr fun q hq => h q (List.mem_filter.mp hq).1, ?_⟩
  refine (holds_ignored_withdrawIgnored_iff m c).mpr fun e he => ?_
  rw [← Expression.holds_ignore]
  exact h _ he

end Clause

namespace Trigger

variable {α : Type} {cs : Comparers} {m : Memory} {c : Clause} {e : Expression}

/-- **A backed clause of the normal form** leaves an unmarked one, made of predicates of
the normal form, before ignored predicates are set aside. -/
theorem exists_backed_of_clauses (hcs : cs.BoundsOnly)
    (h : ∃ d ∈ e.negationNormal.clauses, d.Backed cs m) :
    ∃ c : Clause, c.withdrawIgnored ∈ clausesOf cs [] e [] ∧ c.subsumed = false ∧
      c.Backed cs m ∧ ∀ q ∈ c.conjuncts, ∃ d ∈ e.negationNormal.clauses, q ∈ d.conjuncts := by
  have hunmarked : ∀ d ∈ e.negationNormal.clauses, d.subsumed = false := fun d hd => by
    rw [Expression.eq_ofConjuncts_of_mem_clauses hd]
    rfl
  obtain ⟨d, hd, hbacked⟩ := h
  have hgenerated : Clause.SomeBacked cs m e.negationNormal.clauses :=
    ⟨d, hd, hunmarked d hd, hbacked⟩
  obtain ⟨c, hc, hactive, hcbacked⟩ := (((hgenerated.map_distinct .standard).map_distinct
    .standard).distinctAll hcs .standard (by simpa [Clause.distinct] using hunmarked)).subsume
      (Comparers.lawful_of_boundsOnly hcs)
  refine ⟨c, List.mem_map_of_mem hc, hactive, hcbacked, fun q hq => ?_⟩
  -- marking, keeping first clauses and keeping first predicates add no predicate
  obtain ⟨c₁, hc₁, heq⟩ := Clause.mem_of_mem_subsume hc
  obtain ⟨c₂, hc₂, rfl⟩ := List.mem_map.mp (mem_of_mem_keepFirstBy hc₁)
  obtain ⟨c₃, hc₃, rfl⟩ := List.mem_map.mp hc₂
  rw [heq] at hq
  exact ⟨c₃, hc₃, mem_of_mem_keepFirstBy (mem_of_mem_keepFirstBy hq)⟩

/-- **Is the trigger fulfilled?** One of its active clauses is true, and the ignored
condition of that clause is, if it has one. -/
def Fulfilled (m : Memory) (t : Trigger α) : Prop :=
  ∃ c ∈ t.active, c.eval m = .ok true ∧ c.Granted m

instance (m : Memory) (t : Trigger α) : Decidable (t.Fulfilled m) :=
  inferInstanceAs (Decidable (∃ c ∈ t.active, c.eval m = .ok true ∧ c.Granted m))

/-- **Bringing a condition into clauses keeps its meaning**: where a clause of the
trigger is fulfilled the condition is not false, and where the condition is true a
clause of the trigger is fulfilled, if nothing in the condition can fail or its
conjunctions and disjunctions are all on top. -/
theorem build_keeps_meaning (hcs : cs.BoundsOnly) (hupright : e.upright false = true)
    (id : TriggerId) (action : α) :
    (∀ m, (build cs [] id e action []).Fulfilled m → e.holds m ≠ .ok false) ∧
    ∀ m, e.holds m = .ok true → (e.unfailing m = true ∨ e.shallow = true) →
      (build cs [] id e action []).Fulfilled m := by
  have hlawful := Comparers.lawful_of_boundsOnly hcs
  constructor
  · rintro m ⟨c, hactive, heval, hgranted⟩
    have hc : c ∈ clausesOf cs [] e [] := (List.mem_filter.mp hactive).1
    exact Expression.not_false_of_backed hcs hupright
      (exists_backed_of_mem_clausesOf hcs hc (Clause.backed_of_eval hlawful heval) hgranted)
  · intro m he hsafe
    obtain ⟨d, hd, htrue⟩ := Expression.exists_clause_negationNormal hupright he
    have hbacked := Clause.backed_of_eval hlawful ((Clause.eval_eq_true_iff m d).mpr htrue)
    obtain ⟨c, hc, hactive, hcbacked, hfrom⟩ := exists_backed_of_clauses hcs ⟨d, hd, hbacked⟩
    have heval : c.eval m = .ok true := (Clause.eval_eq_true_iff m c).mpr fun q hq =>
      Expression.certain_of_mem_clauses hcs hsafe (hfrom q hq) (hcbacked q hq)
    obtain ⟨hstill, hgranted⟩ := Clause.eval_withdrawIgnored heval
    refine ⟨c.withdrawIgnored, List.mem_filter.mpr ⟨hc, ?_⟩, hstill, hgranted⟩
    show (!c.subsumed) = true
    rw [hactive]
    rfl

/-- A condition with a tighter bound beside a looser one, and an ignored part. -/
theorem build_keeps_meaning_bounds :
    let cs := Comparers.empty.registerBounds
    let e : Expression := .and [.not (.and
        [.compare .greaterOrEqual (.accessor "x") (.constant (.integer 5)),
          .compare .greaterOrEqual (.accessor "x") (.constant (.integer 9))]),
      .ignore (.accessor "a")]
    let t : Trigger Nat := build cs [] default e 1 []
    let m := Memory.ofList [("x", .integer 7), ("a", .bool true)]
    cs.BoundsOnly ∧ e.upright false = true ∧ t.Fulfilled m ∧ e.holds m ≠ .ok false := by
  intro cs e t m
  have hcs : cs.BoundsOnly := Comparers.boundsOnly_registerBounds
  obtain ⟨hsound, hcomplete⟩ := build_keeps_meaning (e := e) hcs rfl default 1
  have hfulfilled := hcomplete m (by decide +kernel) (.inl (by decide +kernel))
  exact ⟨hcs, rfl, hfulfilled, hsound m hfulfilled⟩

end Trigger

end Specificity
