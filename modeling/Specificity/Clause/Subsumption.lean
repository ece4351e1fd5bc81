import Specificity.Clause.Relation

/-!
# Subsumption

In a list of clauses of which any one is enough, a clause is superfluous if
another one is wider. Such clauses are marked rather than dropped, so that it
can still be seen where a condition came from; only repetitions of a clause
are dropped.
-/

namespace Specificity

namespace Clause

/-- Compares `c` with each unsubsumed clause that follows it: one that is equal
is dropped, one that is narrower is marked. Ends at one that is wider. Answers
whether there was such a one, and what became of the clauses. -/
def sift (cs : Comparers) (c : Clause) : List Clause → Bool × List Clause
  | [] => (false, [])
  | d :: ds =>
    if d.subsumed then
      let (beaten, ds') := sift cs c ds
      (beaten, d :: ds')
    else
      match c.relate cs d with
      | .equal => sift cs c ds
      | .specializes => (true, d :: ds)
      | .generalizes =>
        let (beaten, ds') := sift cs c ds
        (beaten, { d with subsumed := true } :: ds')
      | .incomparable =>
        let (beaten, ds') := sift cs c ds
        (beaten, d :: ds')

theorem length_sift_le (cs : Comparers) (c : Clause) (ds : List Clause) :
    (sift cs c ds).2.length ≤ ds.length := by
  induction ds with
  | nil => simp [sift]
  | cons d ds ih =>
    simp only [sift]
    split
    · simpa using ih
    · split <;> simp <;> omega

/-- **Marking subsumed clauses**: each clause in turn, unless it is subsumed
already, is compared with those that follow it. -/
def subsume (cs : Comparers) : List Clause → List Clause
  | [] => []
  | c :: ds =>
    if c.subsumed then c :: subsume cs ds
    else
      let sifted := sift cs c ds
      (if sifted.1 then { c with subsumed := true } else c) :: subsume cs sifted.2
termination_by l => l.length
decreasing_by
  · simp
  · have := length_sift_le cs c ds
    simp only [List.length_cons]
    omega

end Clause

end Specificity
