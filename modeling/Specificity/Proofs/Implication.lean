import Specificity.Proofs.Normalization
import Specificity.Proofs.Predicates
import Specificity.Proofs.TriggerOrder

/-!
# Narrower means implies

The judgement on clauses compares how they are written: predicates like one another,
limits on one name, negations turned round, lengths and bindings. What it answers is
about what they mean. Where a clause is true, one that it is equal to or narrower than
is not false (`Clause.Implies`).

That the wider clause is true is more than can be said. Likeness reorders operands, and
in another order an evaluation may meet one that has no value before the one that
settles it. A clause of simple predicates has no operands to reorder, and is true.

For triggers the judgement is that each active clause has one at least as wide in the
other trigger, so the same follows of the trigger as a whole.
-/

namespace Specificity

namespace Clause

variable {cs : Comparers} {m : Memory} {c d : Clause}

/-- **Implication in a memory**: where `c` is true, `d` is not false, and it is true if
its predicates are simple. -/
def Implies (m : Memory) (c d : Clause) : Prop :=
  c.eval m = .ok true →
    d.eval m ≠ .ok false ∧ (d.AllConjuncts (·.simple = true) → d.eval m = .ok true)

/-- A clause at least as wide as a true one is not false: were one of its predicates
false, so would be the narrower one that it stands for. -/
theorem not_false_of_isCovered (hcs : cs.BoundsOnly) (hcd : (c.relate cs d).isCovered = true)
    (hc : c.eval m = .ok true) : d.eval m ≠ .ok false := by
  intro hfalse
  obtain ⟨q, hq, hqfalse⟩ := Expression.exists_false_of_evalAll hfalse
  have hcovers : coversAll cs d c = true := ((isCovered_relate cs c d).mp hcd).1
  obtain ⟨p, hp, hqp⟩ := (coversAll_iff cs d c).mp hcovers q hq
  have hptrue := (eval_eq_true_iff m c).mp hc p hp
  exact Comparers.not_false_of_covers hcs hqp hptrue hqfalse

/-- A clause of simple predicates at least as wide as a true one is true. -/
theorem eval_of_isCovered_of_simple (hcs : cs.BoundsOnly)
    (hd : d.AllConjuncts (·.simple = true)) (hcd : (c.relate cs d).isCovered = true)
    (hc : c.eval m = .ok true) : d.eval m = .ok true :=
  eval_of_isCovered (Comparers.lawful_of_boundsOnly hcs)
    (fun q hq => Expression.certain_of_simple hcs m (hd q hq)) hcd hc

/-- **What is at most as wide implies.** -/
theorem implies_of_isCovered (hcs : cs.BoundsOnly) (hcd : (c.relate cs d).isCovered = true) :
    c.Implies m d := fun hc =>
  ⟨not_false_of_isCovered hcs hcd hc, fun hd => eval_of_isCovered_of_simple hcs hd hcd hc⟩

end Clause

namespace Trigger

variable {α : Type} {cs : Comparers} {m : Memory} {t u : Trigger α}

/-- **Each active clause implies one of a trigger at least as wide.** -/
theorem exists_implies_of_isCovered (hcs : cs.BoundsOnly) (htu : (t.relate cs u).isCovered = true)
    {c : Clause} (hc : c ∈ t.active) : ∃ d ∈ u.active, c.Implies m d := by
  obtain ⟨-, hwithin⟩ := (isCovered_relate cs t u).mp htu
  obtain ⟨d, hd, hcd⟩ := hwithin c hc
  exact ⟨d, hd, Clause.implies_of_isCovered hcs hcd⟩

end Trigger

namespace Comparers

variable {cs : Comparers}

/-- **Relationships are sound**: equal or narrower clauses imply, and where an active clause
of an equal or narrower trigger is true, one of the other trigger is not false. -/
theorem BoundsOnly.relate_implies (hcs : cs.BoundsOnly) {α : Type} (m : Memory) :
    (∀ c d : Clause, c.relate cs d = .equal ∨ c.relate cs d = .specializes → c.Implies m d) ∧
      ∀ t u : Trigger α, t.relate cs u = .equal ∨ t.relate cs u = .specializes →
        (∃ c ∈ t.active, c.eval m = .ok true) → ∃ d ∈ u.active, d.eval m ≠ .ok false := by
  constructor
  · intro c d hcd
    exact Clause.implies_of_isCovered hcs ((Relationship.isCovered_iff _).mpr hcd)
  · rintro t u htu ⟨c, hc, htrue⟩
    obtain ⟨d, hd, himplies⟩ :=
      Trigger.exists_implies_of_isCovered hcs ((Relationship.isCovered_iff _).mpr htu) hc
    exact ⟨d, hd, (himplies htrue).1⟩

/-- A tighter bound among other conditions beside a looser one, in clauses and in triggers. -/
theorem BoundsOnly.relate_implies_bounds :
    let cs := Comparers.empty.registerBounds
    let below (n : Int64) := Expression.compare .less (.accessor "x") (.constant (.integer n))
    let c := Clause.ofConjuncts [below 5, .not (.present (.accessor "y"))]
    let d := Clause.ofConjuncts [below 9]
    let t : Trigger Nat := .build cs [] ⟨0⟩ (.and [below 5, .accessor "a"]) 1 []
    let u : Trigger Nat := .build cs [] ⟨1⟩ (.or [below 9, .accessor "b"]) 2 []
    let m := Memory.ofList [("x", .integer 3), ("a", .bool true)]
    cs.BoundsOnly ∧ c.relate cs d = .specializes ∧ c.eval m = .ok true ∧ d.eval m = .ok true ∧
      t.relate cs u = .specializes ∧ (∃ c ∈ t.active, c.eval m = .ok true) ∧
      ∃ d ∈ u.active, d.eval m ≠ .ok false := by
  intro cs below c d t u m
  have hcs : cs.BoundsOnly := boundsOnly_registerBounds
  have hcd : c.relate cs d = .specializes := by decide +kernel
  have hc : c.eval m = .ok true := by decide +kernel
  have hsimple : d.AllConjuncts (·.simple = true) := fun p hp => by
    rw [List.mem_singleton.mp hp]
    rfl
  have htu : t.relate cs u = .specializes := by decide +kernel
  have hactive : ∃ c ∈ t.active, c.eval m = .ok true := by decide +kernel
  obtain ⟨hclauses, htriggers⟩ := BoundsOnly.relate_implies (α := Nat) hcs m
  exact ⟨hcs, hcd, hc, (hclauses c d (.inr hcd) hc).2 hsimple, htu, hactive,
    htriggers t u (.inr htu) hactive⟩

/-- Of two like clauses that are judged equal one is true and the other one fails: its first
operand has no value. -/
example :
    let below := Expression.compare .less (.accessor "x") (.constant (.integer 9))
    let c := Clause.ofConjuncts [.present (.or [.constant (.bool true), below])]
    let d := Clause.ofConjuncts [.present (.or [below, .constant (.bool true)])]
    c.relate .empty d = .equal ∧ c.eval .empty = .ok true ∧
      d.eval .empty = .error (.typeMismatch .less .null .integer) := by
  decide +kernel

end Comparers

end Specificity
