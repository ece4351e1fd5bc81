import Mathlib.Data.List.Sort
import Specificity.Clause.Distinct
import Specificity.Proofs.Reordering

/-!
# Fingerprints lose nothing

Dropping repetitions asks for likeness only among members with the same fingerprint. It
drops what a comparison of every member with every kept one would drop, because alike
members have the same fingerprint, under every digest (`Digest.ofExpression_eq_of_alike`,
`Clause.fingerprint_eq_of_alike`). The digest may well give the same word to members that
are not alike; those are told apart by the comparison.

Alike expressions are reorderings of each other, so it is enough that one reordering
leaves the fingerprint as it is. On the reordered operands this is what sorting is for,
and further up it is that a fingerprint is made from those of the operands.
-/

namespace Specificity

variable {ws vs : List UInt64}

/-! ## Sorted words -/

theorem insertWord_eq_orderedInsert (w : UInt64) (ws : List UInt64) :
    insertWord w ws = ws.orderedInsert (· ≤ ·) w := by
  induction ws with
  | nil => rfl
  | cons v vs ih => rw [insertWord, List.orderedInsert_cons, ih]

theorem sortWords_eq_insertionSort (ws : List UInt64) :
    sortWords ws = ws.insertionSort (· ≤ ·) := by
  induction ws with
  | nil => rfl
  | cons w ws ih =>
    rw [List.insertionSort_cons, ← ih, ← insertWord_eq_orderedInsert]
    rfl

/-- **Sorting forgets the order.** -/
theorem sortWords_eq_of_perm (h : ws.Perm vs) : sortWords ws = sortWords vs := by
  rw [sortWords_eq_insertionSort, sortWords_eq_insertionSort]
  have hperm : (ws.insertionSort (· ≤ ·)).Perm (vs.insertionSort (· ≤ ·)) :=
    (List.perm_insertionSort _ ws).trans (h.trans (List.perm_insertionSort _ vs).symm)
  exact hperm.eq_of_pairwise' (List.pairwise_insertionSort _ ws) (List.pairwise_insertionSort _ vs)

namespace Digest

variable {a b e f : Expression} {es fs : List Expression}

/-! ## Fingerprints of expressions -/

theorem ofAll_eq_map (digest : Digest) (es : List Expression) :
    digest.ofAll es = es.map digest.ofExpression := by
  induction es with
  | nil => rfl
  | cons e es ih => rw [ofAll, ih, List.map_cons]

/-- **The fingerprint of a bag** does not depend on the order. -/
theorem ofBag_eq_of_perm (digest : Digest) (tag : Tag) (h : ws.Perm vs) :
    digest.ofBag tag ws = digest.ofBag tag vs := by
  rw [ofBag, ofBag, sortWords_eq_of_perm h]

theorem ofBag_ofAll_eq_of_perm (digest : Digest) (tag : Tag) (h : es.Perm fs) :
    digest.ofBag tag (digest.ofAll es) = digest.ofBag tag (digest.ofAll fs) := by
  rw [ofAll_eq_map, ofAll_eq_map]
  exact digest.ofBag_eq_of_perm tag (h.map _)

/-- **A fingerprint is made from those of the operands**, if there are any: expressions of
one kind whose operands have the same ones have the same. -/
theorem ofExpression_eq_of_operands (digest : Digest) (hkind : e.kind = f.kind)
    (hne : e.operands ≠ []) (h : digest.ofAll e.operands = digest.ofAll f.operands) :
    digest.ofExpression e = digest.ofExpression f := by
  have hone {a b : Expression} (h : digest.ofAll [a] = digest.ofAll [b]) :
      digest.ofExpression a = digest.ofExpression b := (List.cons.inj h).1
  cases e with
  | constant v | accessor x => exact absurd rfl hne
  | not a | optional a | ignore a | present a =>
    cases f <;> try exact Expression.Kind.noConfusion hkind
    rw [ofExpression, ofExpression, hone h]
  | and as | or as =>
    cases f <;> try exact Expression.Kind.noConfusion hkind
    exact congrArg (digest.ofBag (.kind _)) h
  | compare op l r =>
    cases f <;> try exact Expression.Kind.noConfusion hkind
    rw [ofExpression, ofExpression, Expression.Kind.compare.inj hkind]
    exact congrArg (fun parts => digest (.compound (.compare _) parts)) h

/-- **A reordering keeps the fingerprint.** -/
theorem ofExpression_eq_of_reorders (digest : Digest) (h : a.Reorders b) :
    digest.ofExpression a = digest.ofExpression b := by
  induction h with
  | and h | or h =>
    rw [ofExpression, ofExpression]
    exact digest.ofBag_ofAll_eq_of_perm _ h
  | @operand e f a b pre post hkind he hf _ ih =>
    -- the fingerprints of the operands are the same in the same order
    refine digest.ofExpression_eq_of_operands hkind (by simp [he]) ?_
    rw [he, hf, ofAll_eq_map, ofAll_eq_map, List.map_append, List.map_append, List.map_cons,
      List.map_cons, ih]

/-- Any number of reorderings keep the fingerprint. -/
theorem ofExpression_eq_of_reordered (digest : Digest) (h : a.Reordered b) :
    digest.ofExpression a = digest.ofExpression b := by
  induction h with
  | refl => rfl
  | tail _ hstep ih => exact ih.trans (digest.ofExpression_eq_of_reorders hstep)

/-- **Alike expressions have the same fingerprint.** -/
theorem ofExpression_eq_of_alike (digest : Digest) (h : a.alike b = true) :
    digest.ofExpression a = digest.ofExpression b :=
  digest.ofExpression_eq_of_reordered ((Expression.alike_iff_reordered a b).mp h)

theorem ofAll_eq_of_forall₂ (digest : Digest)
    (h : List.Forall₂ (fun a b => a.alike b = true) es fs) : digest.ofAll es = digest.ofAll fs := by
  induction h with
  | nil => rfl
  | cons hab _ ih => rw [ofAll, ofAll, digest.ofExpression_eq_of_alike hab, ih]

end Digest

/-! ## Fingerprints of clauses -/

/-- **Alike clauses have the same fingerprint.** Their predicates are the operands of alike
conjunctions. -/
theorem Clause.fingerprint_eq_of_alike (digest : Digest) {c d : Clause} (h : c.alike d = true) :
    c.fingerprint digest = d.fingerprint digest := by
  rw [alike, Bool.and_eq_true, decide_eq_true_iff] at h
  obtain ⟨hbindings, hbag⟩ := h
  obtain ⟨ps, hperm, hall⟩ := (Expression.sameBag_iff_perm _ _).mp hbag
  rw [fingerprint, fingerprint, hbindings, digest.ofAll_eq_of_forall₂ hall,
    digest.ofBag_ofAll_eq_of_perm _ hperm]

/-! ## Dropping repetitions -/

/-- **No repetition is missed or made up**, whatever the digest: alike expressions and
alike clauses have the same fingerprint, so comparing within a fingerprint keeps just the
predicates and the clauses that comparing with every kept one keeps. -/
theorem Digest.finds_repetitions (digest : Digest) :
    (∀ a b : Expression, a.alike b = true → digest.ofExpression a = digest.ofExpression b) ∧
      (∀ c d : Clause, c.alike d = true → c.fingerprint digest = d.fingerprint digest) ∧
      (∀ c : Clause,
        c.distinct digest = { c with conjuncts := keepFirst Expression.alike c.conjuncts }) ∧
      ∀ ds : List Clause, Clause.distinctAll digest ds = keepFirst Clause.alike ds := by
  have hexpressions (a b : Expression) (h : a.alike b = true) :
      digest.ofExpression a = digest.ofExpression b := digest.ofExpression_eq_of_alike h
  have hclauses (c d : Clause) (h : c.alike d = true) :
      c.fingerprint digest = d.fingerprint digest := Clause.fingerprint_eq_of_alike digest h
  refine ⟨hexpressions, hclauses, fun c => ?_, fun ds => ?_⟩
  · rw [Clause.distinct, keepFirstBy_eq_keepFirst fun a b => hexpressions b a]
  · exact keepFirstBy_eq_keepFirst (fun c d => hclauses d c) ds

/-- Under a digest with a single fingerprint for everything, and under the one in use: of
two reordered conjunctions around a third predicate the later one is dropped, and so is
the later one of two clauses that list the same predicates in another order. -/
theorem Digest.finds_repetitions_reordered :
    let p := Expression.accessor "p"
    let q := Expression.accessor "q"
    let a := Expression.and [p, .or [p, q]]
    let a' := Expression.and [.or [q, p], p]
    let blind : Digest := fun _ => 7
    a.alike a' = true ∧ standard.ofExpression a = standard.ofExpression a' ∧
      (Clause.ofConjuncts [a, p]).alike (.ofConjuncts [p, a']) = true ∧
      (Clause.ofConjuncts [a, p]).fingerprint standard =
        (Clause.ofConjuncts [p, a']).fingerprint standard ∧
      ((Clause.ofConjuncts [a, p, a', q]).distinct blind).conjuncts = [a, p, q] ∧
      Clause.distinctAll standard [.ofConjuncts [a, p], .ofConjuncts [q], .ofConjuncts [p, a']] =
        [.ofConjuncts [a, p], .ofConjuncts [q]] := by
  intro p q a a' blind
  obtain ⟨hexpressions, hclauses, -, hall⟩ := finds_repetitions standard
  have halike : a.alike a' = true := by decide +kernel
  have hbags : (Clause.ofConjuncts [a, p]).alike (.ofConjuncts [p, a']) = true := by
    decide +kernel
  refine ⟨halike, hexpressions a a' halike, hbags, hclauses _ _ hbags, ?_, ?_⟩
  · rw [(finds_repetitions blind).2.2.1]
    decide +kernel
  · rw [hall]
    decide +kernel

end Specificity
