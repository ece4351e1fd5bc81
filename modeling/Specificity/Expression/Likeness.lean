import Specificity.Expression

/-!
# Likeness

Two expressions are *alike* if one can be turned into the other by reordering
the operands of conjunctions and disjunctions, at any depth. Operand lists are
therefore compared as bags. The comparison is greedy – each member of the
first bag uses up the first member of the second that is like it – which loses
nothing as long as likeness is an equivalence: it does not matter then which
of several like members is used up.

Looking for a like member and using it up is one step, `removeFirst?`, so a pair
of operands is compared once however deep it stands.
-/

namespace Specificity

variable {α : Type}

/-! ## Using up a member -/

/-- The list without its first member that satisfies `p`, if it has one. -/
def removeFirst? (p : α → Bool) : List α → Option (List α)
  | [] => none
  | x :: xs => if p x then some xs else (removeFirst? p xs).map (x :: ·)

theorem removeFirst?_eq_eraseP (p : α → Bool) (xs : List α) :
    removeFirst? p xs = if xs.any p then some (xs.eraseP p) else none := by
  induction xs with
  | nil => rfl
  | cons x xs ih =>
    by_cases h : p x
    · simp [removeFirst?, h]
    · simp only [removeFirst?, h, ih, List.any_cons, Bool.false_or, List.eraseP_cons]
      split <;> simp_all

namespace Expression

/-! ## Likeness of expressions -/

mutual

/-- **Likeness**: equality up to the order of conjuncts and disjuncts. -/
def alike : Expression → Expression → Bool
  | constant v, constant w => v == w
  | accessor x, accessor y => x == y
  | not a, not b => alike a b
  | and as, and bs => as.length == bs.length && claimAll as bs
  | or as, or bs => as.length == bs.length && claimAll as bs
  | optional a, optional b => alike a b
  | ignore a, ignore b => alike a b
  | present a, present b => alike a b
  | compare o l r, compare o' l' r' => o == o' && alike l l' && alike r r'
  | _, _ => false

/-- Can each member of the first list have a like member of the second for itself? -/
def claimAll : List Expression → List Expression → Bool
  | [], _ => true
  | a :: as, bs =>
    match removeFirst? (alike a) bs with
    | some rest => claimAll as rest
    | none => false

end

/-- **Likeness of bags**: do two lists have the same members up to order and
likeness, each equally often? -/
def sameBag (as bs : List Expression) : Bool := as.length == bs.length && claimAll as bs

theorem alike_and (as bs : List Expression) : alike (and as) (and bs) = sameBag as bs := by
  simp only [alike, sameBag]

theorem alike_or (as bs : List Expression) : alike (or as) (or bs) = sameBag as bs := by
  simp only [alike, sameBag]

end Expression

end Specificity
