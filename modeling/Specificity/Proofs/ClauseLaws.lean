import Specificity.Proofs.Bounds
import Specificity.Proofs.ClauseOrder

/-!
# The laws of the judgement on clauses

Two laws hold whatever the comparers answer. Exchanging two clauses turns their
relationship round, since each of its halves is a question about one side covering the
other (`Clause.Wider`). And the order of predicates within a clause does not matter, since
that question asks only which predicates there are and how many.

The other laws rest on a lawful registry. What is equal is so both ways and through any
number of clauses, one clause can stand for an equal one on either side, and narrower is
transitive (`Clause.Ordered`). Lengths and bindings are part of the question, so the laws
hold across clauses that differ in them.
-/

namespace Specificity

namespace Clause

variable {cs : Comparers} {c c' d d' : Clause}

/-! ## The order of predicates -/

/-- **The same clause in another order**: the same predicates, each as often, under the same
bindings. -/
structure Reordered (c c' : Clause) : Prop where
  /-- The predicates are permuted. -/
  conjuncts : c'.conjuncts.Perm c.conjuncts
  /-- The bindings are the same. -/
  bindings : c'.bindings = c.bindings

theorem coversAll_of_reordered (hc : c.Reordered c') (hd : d.Reordered d') :
    coversAll cs c' d' = coversAll cs c d := by
  rw [Bool.eq_iff_iff, coversAll_iff, coversAll_iff]
  simp only [hc.conjuncts.mem_iff, hd.conjuncts.mem_iff]

/-- Reordering leaves a clause as wide as it is. -/
theorem wider_of_reordered (hc : c.Reordered c') (hd : d.Reordered d') :
    Wider cs c' d' ↔ Wider cs c d := by
  unfold Wider boundWithin size
  rw [coversAll_of_reordered hc hd, coversAll_of_reordered hd hc, hc.conjuncts.length_eq,
    hd.conjuncts.length_eq, hc.bindings, hd.bindings]

/-- **The order of predicates does not matter**, under every registry. -/
theorem relate_of_reordered (hc : c.Reordered c') (hd : d.Reordered d') :
    c'.relate cs d' = c.relate cs d := by
  refine Relationship.eq_of_halves ?_ ?_
  · rw [Bool.eq_iff_iff, isCovered_relate, isCovered_relate, wider_of_reordered hd hc]
  · rw [Bool.eq_iff_iff, covers_relate, covers_relate, wider_of_reordered hc hd]

/-! ## Equal clauses and narrower ones -/

/-- **Clauses in order**: what the judgement on them satisfies under a lawful registry. -/
structure Ordered (cs : Comparers) : Prop where
  /-- Every clause is equal to itself, and equality is symmetric and transitive. -/
  equivalence : Equivalence fun c d : Clause => c.relate cs d = .equal
  /-- Equal clauses stand alike to every other clause, seen from either side. -/
  substitutes : ∀ c c' : Clause, c.relate cs c' = .equal →
    ∀ d, c'.relate cs d = c.relate cs d ∧ d.relate cs c' = d.relate cs c
  /-- Narrower than narrower is narrower. -/
  narrower : ∀ c d e : Clause, c.relate cs d = .specializes → d.relate cs e = .specializes →
    c.relate cs e = .specializes

/-- **A lawful registry orders clauses.** -/
theorem ordered_of_lawful (hcs : cs.Lawful) : Ordered cs := by
  have hord := orderly_relate hcs
  exact {
    equivalence := {
      refl := relate_self hcs
      symm := hord.equal_symm
      trans := fun hcd hde => (hord.eq_of_equal hcd _).trans hde }
    substitutes := fun c c' hequal d =>
      ⟨(hord.eq_of_equal hequal d).symm, (hord.eq_of_equal_right hequal d).symm⟩
    narrower := fun _ _ _ => hord.specializes_trans }

/-- **The laws of the judgement on clauses**: exchanging them turns it round and reordering
them leaves it alone, under every registry; a lawful one orders them. -/
theorem relate_laws (cs : Comparers) :
    (∀ c d : Clause, c.relate cs d = (d.relate cs c).swap) ∧
      (∀ c c' d d' : Clause, c.Reordered c' → d.Reordered d' →
        c'.relate cs d' = c.relate cs d) ∧
      (cs.Lawful → Ordered cs) :=
  ⟨fun c d => relate_swap cs d c, fun _ _ _ _ => relate_of_reordered, ordered_of_lawful⟩

/-- A registry whose one comparer finds every name narrower than every other, and a registry
of bounds, under which three clauses of two lengths are ever wider. -/
theorem relate_laws_liar_and_bounds :
    let liar := Comparers.empty.register .accessor fun _ _ => .specializes
    let bounds := Comparers.empty.registerBounds
    let below (n : Int64) := Expression.compare .less (.accessor "x") (.constant (.integer n))
    let c := ofConjuncts [below 5, .accessor "a"]
    let c' := ofConjuncts [.accessor "a", below 5]
    let d := ofConjuncts [below 9, .accessor "a"]
    let e := ofConjuncts [.accessor "a"]
    c.relate liar d = (d.relate liar c).swap ∧
      c.Reordered c' ∧ d.Reordered d ∧ c'.relate liar d = c.relate liar d ∧
      bounds.Lawful ∧ Ordered bounds ∧
      c.relate bounds d = .specializes ∧ d.relate bounds e = .specializes ∧
      c.relate bounds e = .specializes := by
  intro liar bounds below c c' d e
  have hreordered : c.Reordered c' := ⟨.swap _ _ _, rfl⟩
  have hlawful : bounds.Lawful := Comparers.lawful_of_boundsOnly Comparers.boundsOnly_registerBounds
  have hcd : c.relate bounds d = .specializes := by decide +kernel
  have hde : d.relate bounds e = .specializes := by decide +kernel
  obtain ⟨hswap, hreorder, -⟩ := relate_laws liar
  obtain ⟨-, -, horder⟩ := relate_laws bounds
  exact ⟨hswap c d, hreordered, ⟨.refl _, rfl⟩, hreorder c c' d d hreordered ⟨.refl _, rfl⟩,
    hlawful, horder hlawful, hcd, hde, (horder hlawful).narrower c d e hcd hde⟩

end Clause

end Specificity
