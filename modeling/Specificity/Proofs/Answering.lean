import Specificity.Proofs.Growth
import Specificity.Proofs.Implication
import Specificity.Proofs.Shape
import Specificity.Proofs.Specificities

/-!
# What holds is answered

In a tree that only grows, from conditions with simple tests that ignore nothing, none of
the reasons for a silent miss remains. A condition that holds has a true active clause.
The node that stands for the clause has simple predicates as well, so it is true there,
and with nothing ignored every trigger that it carries fires. Something is matched then,
if not the trigger itself.
-/

namespace Specificity

/-- **A condition that holds has a true active clause**, if its tests are simple and no
optional part of it is negated. -/
theorem Trigger.exists_active_of_holds {α : Type} {cs : Comparers} (hcs : cs.BoundsOnly)
    {e : Expression} (htests : e.simpleTests = true) (hupright : e.upright false = true)
    {m : Memory} (h : e.holds m = .ok true) (id : TriggerId) (action : α) :
    ∃ c ∈ (build cs [] id e action []).active, c.eval m = .ok true := by
  obtain ⟨d, hd, htrue⟩ := Expression.exists_clause_negationNormal hupright h
  have hbacked := Clause.backed_of_eval (Comparers.lawful_of_boundsOnly hcs)
    ((Clause.eval_eq_true_iff m d).mpr htrue)
  obtain ⟨c, hc, hactive, hcbacked, -⟩ := exists_backed_of_clauses hcs ⟨d, hd, hbacked⟩
  have hmem : c.withdrawIgnored ∈ (build cs [] id e action []).active :=
    List.mem_filter.mpr ⟨hc, (Bool.not_eq_true' _).mpr hactive⟩
  have hsimple := simple_of_simpleTests htests id action hmem
  exact ⟨c.withdrawIgnored, hmem, (Clause.eval_eq_true_iff m _).mpr fun p hp =>
    Expression.certain_of_simple hcs m (hsimple p hp) (hcbacked p (List.mem_filter.mp hp).1)⟩

/-- **A growing tree answers** where a clause of one of its triggers is true. -/
theorem Tree.Reached.matched_ne_nil_of_active {α : Type} [DecidableEq α] {cs : Comparers}
    {opts : List Optimizer} {tree : Tree α} {m : Memory} {id : TriggerId} {t : Trigger α}
    {c : Clause} (hcs : cs.BoundsOnly) (h : Reached Growing cs opts tree)
    (ht : tree.trigger? id = some t) (hc : c ∈ t.active) (hfits : c.Fits)
    (heval : c.eval m = .ok true) : tree.matched m ≠ [] := by
  have hlawful := Comparers.lawful_of_boundsOnly hcs
  obtain ⟨v, n, hv, hn, hequal, hid⟩ := (h.fresh.accounted hlawful).filed id t ht c hc hfits
  have hcn : (c.relate cs n.clause).isCovered = true :=
    Relationship.isCovered_of_equal ((Clause.orderly_relate hlawful).equal_symm hequal)
  have htrue : n.clause.eval m = .ok true :=
    Clause.eval_of_isCovered_of_simple hcs (h.settled hlawful v hv n hn).simple hcn heval
  exact (h.sound hlawful).matched_ne_nil_of_loud hlawful (h.showsOnce hlawful)
    ((h.plain.loud_iff hlawful).mpr ⟨hv, n, hn, htrue, List.ne_nil_of_mem hid⟩)

end Specificity
