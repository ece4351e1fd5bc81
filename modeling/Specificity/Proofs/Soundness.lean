import Specificity.Proofs.Condensing
import Specificity.Proofs.Matching

/-!
# Matching reports nothing false

A trigger is reported because of a node whose clause holds, and the node may
have been made by another trigger, from predicates that are merely alike or
equally tight. Back from the node to the condition of the trigger, what can be
carried along is that every predicate is at least as wide as some true one, and
at the end that the condition is not false. That it is true cannot be shown: it
may fail where its clauses hold, since predicates were dropped and reordered.
-/

namespace Specificity

namespace Clause

variable {cs : Comparers} {m : Memory} {c node : Clause}

/-- **A clause fires only at a node of an equal one.** -/
theorem relate_of_firesAt (hcs : cs.BoundsOnly) (h : c.firesAt cs m node = true) :
    c.relate cs node = .equal := by
  unfold firesAt at h
  rw [Bool.and_eq_true, Bool.or_eq_true, beq_iff_eq] at h
  exact h.1.elim (relate_of_alike hcs) id

/-- **A clause that fires at a node that holds** has all its predicates backed, and its
ignored condition is true. -/
theorem backed_of_firesAt (hcs : cs.BoundsOnly) (h : c.firesAt cs m node = true)
    (hnode : node.eval m = .ok true) :
    c.Backed cs m ∧ ∀ e, c.ignored = some e → e.holds m = .ok true := by
  have hequal := relate_of_firesAt hcs h
  have htrue := (Expression.evalAll_eq_true_iff m node.conjuncts).mp hnode
  constructor
  · intro q hq
    have hcovers := ((relate_eq_equal_iff cs c node).mp hequal).1.1
    obtain ⟨r, hr, hqr⟩ := (coversAll_iff cs c node).mp hcovers q hq
    exact ⟨r, htrue r hr, hqr⟩
  · intro e he
    have hignored := ((Bool.and_eq_true _ _).mp h).2
    rw [he] at hignored
    dsimp only at hignored
    split at hignored
    · next b hb => rw [hb, hignored]
    · exact absurd hignored Bool.false_ne_true

end Clause

namespace Tree

variable {α : Type} {cs : Comparers} {opts : List Optimizer} {tree : Tree α} {m : Memory}
  {t : Trigger α}

/-- **Why a trigger was reported**: it is in the tree, and it fires at a node that
holds. -/
theorem Sound.exists_node_of_matched (hcs : cs.Lawful) (h : tree.Sound cs opts)
    (honce : tree.ShowsOnce) (ht : t ∈ tree.matched m) :
    tree.trigger? t.id = some t ∧
      ∃ n : Node, n.clause.eval m = .ok true ∧ t.firesAt cs m n.clause = true := by
  obtain ⟨hregistered, v, hv, n, hn, -, hfires⟩ :=
    ((h.flatMatch_foremost hcs honce m).reported t).mp ht
  obtain ⟨n', hn', heval, -⟩ := (candidates_ne_nil_iff tree m v).mp hv.1.2
  obtain rfl := Option.some.inj (hn.symm.trans hn')
  exact ⟨hregistered, n, heval, h.comparers ▸ hfires⟩

/-- **Matching reports no trigger whose condition is false**, whatever else was added
and removed. -/
theorem not_false_of_matched [DecidableEq α] (hcs : cs.BoundsOnly)
    (h : Reached Free cs [] tree) (ht : t ∈ tree.matched m) (hquantifiers : t.quantifiers = [])
    (hupright : t.expression.upright false = true) : t.expression.holds m ≠ .ok false := by
  have hlawful := Comparers.lawful_of_boundsOnly hcs
  have hsound := h.sound hlawful
  obtain ⟨hregistered, n, heval, hfires⟩ :=
    hsound.exists_node_of_matched hlawful (h.showsOnce hlawful) ht
  obtain ⟨c, hactive, hfires⟩ := List.any_eq_true.mp hfires
  have hclause : c ∈ Trigger.clausesOf cs [] t.expression [] := by
    have hmem := (List.mem_filter.mp hactive).1
    rw [hsound.built t.id t hregistered, hquantifiers] at hmem
    exact hmem
  -- the predicates are backed by those of the node, which another trigger may have made
  obtain ⟨hbacked, hignored⟩ := Clause.backed_of_firesAt hcs hfires heval
  exact Expression.not_false_of_backed hcs hupright
    (Trigger.exists_backed_of_mem_clausesOf hcs hclause hbacked hignored)

/-- A bound with an ignored part, filed beside a tighter bound. -/
theorem not_false_of_matched_bound :
    let tree : Tree Nat := .run Comparers.empty.registerBounds []
      [.add (.and [.compare .less (.accessor "x") (.constant (.integer 9)),
          .ignore (.accessor "a")]) 1 [],
        .add (.compare .less (.accessor "x") (.constant (.integer 5))) 2 []]
    let m := Memory.ofList [("x", .integer 7), ("a", .bool true)]
    ∃ t ∈ tree.matched m, t.quantifiers = [] ∧ t.expression.upright false = true ∧
      t.expression.holds m ≠ .ok false := by
  intro tree m
  have hmatched : ((tree.matched m).any fun t =>
      t.quantifiers.isEmpty && t.expression.upright false) = true := by decide +kernel
  obtain ⟨t, ht, hplain⟩ := List.any_eq_true.mp hmatched
  rw [Bool.and_eq_true, List.isEmpty_iff] at hplain
  exact ⟨t, ht, hplain.1, hplain.2, not_false_of_matched
    Comparers.boundsOnly_registerBounds (reached_run _ _ _) ht hplain.1 hplain.2⟩

end Tree

end Specificity
