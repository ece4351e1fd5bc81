/-!
# Visiting in order

Visiting the members of a list one after the other, each visit answering
something and passing a state on to the next.
-/

namespace Specificity

variable {ι ω σ : Type}

/-- The answers of the visits, in order, and the state after the last one. -/
def visitAll (visit : ι → σ → ω × σ) : List ι → σ → List ω × σ
  | [], state => ([], state)
  | i :: is, state =>
    let (answer, state) := visit i state
    let (answers, state) := visitAll visit is state
    (answer :: answers, state)

/-- The members of a list that were answered with `true`. -/
def selected (is : List ι) (answers : List Bool) : List ι :=
  ((is.zip answers).filter Prod.snd).map Prod.fst

end Specificity
