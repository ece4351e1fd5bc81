import Mathlib.Data.List.Perm.Basic
import Mathlib.Logic.Relation
import Specificity.Proofs.Likeness
import Specificity.Proofs.Renaming

/-!
# Likeness is reordering

Two expressions are alike exactly if reordering the operands of conjunctions and
disjunctions turns one into the other (`Expression.alike_iff_reordered`). A single
reordering acts on one list of operands, on top or at any depth (`Expression.Reorders`);
a sequence of them is what the greedy comparison of bags decides without looking for it.

In one direction each reordering keeps an expression alike to itself. In the other the
members of like bags are first reordered one by one into the members they were matched
with, and then put into the order of these; the matching is read off the relation of
multisets that likeness of bags is (`Expression.sameBag_iff_perm`).
-/

namespace Specificity

/-- **Related multisets** are related member by member after a permutation. -/
theorem rel_coe_iff_perm {α : Type} {r : α → α → Prop} (as bs : List α) :
    Multiset.Rel r (as : Multiset α) bs ↔ ∃ bs', bs'.Perm bs ∧ List.Forall₂ r as bs' := by
  constructor
  · intro h
    induction as generalizing bs with
    | nil => exact ⟨[], Multiset.coe_eq_coe.mp (Multiset.rel_zero_left.mp h).symm, .nil⟩
    | cons a as ih =>
      rw [← Multiset.cons_coe] at h
      obtain ⟨b, part, hab, hrel, hbs⟩ := Multiset.rel_cons_left.mp h
      obtain ⟨cs, rfl⟩ := Quot.exists_rep part
      obtain ⟨cs', hperm, hall⟩ := ih cs hrel
      exact ⟨b :: cs', (hperm.cons b).trans (Multiset.coe_eq_coe.mp hbs.symm), .cons hab hall⟩
  · rintro ⟨bs', hperm, hall⟩
    have hsame : Multiset.Rel r (as : Multiset α) bs' := by
      clear hperm
      induction hall with
      | nil => exact .zero
      | cons hab _ ih => exact .cons hab ih
    rwa [Multiset.coe_eq_coe.mpr hperm] at hsame

namespace Expression

variable {a a' b b' e f : Expression} {as bs es fs : List Expression}

/-! ## Reorderings -/

/-- **One reordering**: the operands of a conjunction or of a disjunction are put into
another order, on top or inside an operand. -/
inductive Reorders : Expression → Expression → Prop where
  /-- The operands of a conjunction change their order. -/
  | and {es fs : List Expression} (h : es.Perm fs) : Reorders (and es) (and fs)
  /-- The operands of a disjunction change their order. -/
  | or {es fs : List Expression} (h : es.Perm fs) : Reorders (or es) (or fs)
  /-- One operand is reordered; the kind and the other operands stay as they are. -/
  | operand {e f a b : Expression} {pre post : List Expression} (hkind : e.kind = f.kind)
      (he : e.operands = pre ++ a :: post) (hf : f.operands = pre ++ b :: post)
      (h : Reorders a b) : Reorders e f

/-- **Reordered**: any number of reorderings, one after the other. -/
def Reordered : Expression → Expression → Prop := Relation.ReflTransGen Reorders

/-- Reorderings of an operand are reorderings of the expression. -/
theorem Reordered.inside (c : Expression → Expression) (pre post : List Expression)
    (hkind : ∀ a b, (c a).kind = (c b).kind) (hoperands : ∀ a, (c a).operands = pre ++ a :: post)
    (h : Reordered a b) : Reordered (c a) (c b) := by
  have hstep : ∀ a b, Reorders a b → Reorders (c a) (c b) := fun a b hab =>
    .operand (hkind a b) (hoperands a) (hoperands b) hab
  exact Relation.ReflTransGen.lift c hstep a b h

/-- Reorderings of the only operand. -/
theorem Reordered.inOnly (c : Expression → Expression) (hkind : ∀ a b, (c a).kind = (c b).kind)
    (hoperands : ∀ a, (c a).operands = [a]) (h : Reordered a b) : Reordered (c a) (c b) :=
  h.inside c [] [] hkind hoperands

/-- Reorderings of the two operands of a comparison. -/
theorem Reordered.compare (op : Comparison) (hl : Reordered a a') (hr : Reordered b b') :
    Reordered (.compare op a b) (.compare op a' b') :=
  (hl.inside (.compare op · b) [] [b] (fun _ _ => rfl) fun _ => rfl).trans
    (hr.inside (.compare op a' ·) [a'] [] (fun _ _ => rfl) fun _ => rfl)

/-- **Reorderings member by member** of what takes any number of operands. Those before
the members are reordered already. -/
theorem Reordered.members (c : List Expression → Expression)
    (hkind : ∀ es fs, (c es).kind = (c fs).kind) (hoperands : ∀ es, (c es).operands = es)
    (h : List.Forall₂ Reordered es fs) (pre : List Expression) :
    Reordered (c (pre ++ es)) (c (pre ++ fs)) := by
  -- the first member joins those before as soon as it is reordered
  induction h generalizing pre with
  | nil => exact .refl
  | @cons a b es fs hab _ ih =>
    have hhead : Reordered (c (pre ++ a :: es)) (c (pre ++ b :: es)) :=
      hab.inside (fun x => c (pre ++ x :: es)) pre es (fun _ _ => hkind _ _) fun _ => hoperands _
    have htail := ih (pre ++ [b])
    rw [List.append_assoc, List.append_assoc] at htail
    exact hhead.trans htail

/-! ## Bags -/

/-- **Like bags** are alike member by member after a permutation. -/
theorem sameBag_iff_perm (as bs : List Expression) :
    sameBag as bs = true ↔
      ∃ bs', bs'.Perm bs ∧ List.Forall₂ (fun a b => alike a b = true) as bs' := by
  rw [sameBag_iff, rel_coe_iff_perm]

theorem sameBag_of_perm (h : as.Perm bs) : sameBag as bs = true :=
  (sameBag_iff_perm as bs).mpr ⟨as, h, List.forall₂_same.mpr fun a _ => alike_self a⟩

theorem sameBag_of_forall₂ (h : List.Forall₂ (fun a b => alike a b = true) as bs) :
    sameBag as bs = true := (sameBag_iff_perm as bs).mpr ⟨bs, .refl bs, h⟩

/-! ## Likeness and reorderings -/

/-- **Likeness asks the operands**: expressions of one kind with alike operands are alike.
Only constants and names have no operands to ask. -/
theorem alike_of_operands (hkind : e.kind = f.kind) (hne : e.operands ≠ [])
    (h : List.Forall₂ (fun a b => alike a b = true) e.operands f.operands) :
    alike e f = true := by
  have hone : ∀ {a b : Expression}, List.Forall₂ (fun a b => alike a b = true) [a] [b] →
      alike a b = true := fun h => (List.forall₂_cons.mp h).1
  cases e with
  | constant v | accessor x => exact absurd rfl hne
  | not a | optional a | ignore a | present a =>
    cases f <;> try exact Kind.noConfusion hkind
    rw [alike, hone h]
  | and as | or as =>
    cases f <;> try exact Kind.noConfusion hkind
    exact sameBag_of_forall₂ h
  | compare op l r =>
    cases f <;> try exact Kind.noConfusion hkind
    next op' l' r' =>
    obtain ⟨hl, hr⟩ := List.forall₂_cons.mp h
    rw [alike, Kind.compare.inj hkind, hl, hone hr, beq_self_eq_true]
    rfl

/-- **A reordering keeps likeness.** -/
theorem Reorders.alike (h : Reorders a b) : a.alike b = true := by
  induction h with
  | and h => rw [alike_and, sameBag_of_perm h]
  | or h => rw [alike_or, sameBag_of_perm h]
  | @operand e f a b pre post hkind he hf _ ih =>
    have hsame : ∀ es : List Expression, List.Forall₂ (fun a b => a.alike b = true) es es :=
      fun es => List.forall₂_same.mpr fun a _ => alike_self a
    refine alike_of_operands hkind (by simp [he]) ?_
    rw [he, hf]
    exact List.rel_append (hsame pre) (.cons ih (hsame post))

/-- **What is reordered is alike.** -/
theorem Reordered.alike (h : Reordered a b) : a.alike b = true := by
  induction h with
  | refl => exact alike_self a
  | tail _ hstep ih => exact alike_trans ih hstep.alike

/-- Like bags are reordered into each other, if alike members are. -/
theorem reordered_of_sameBag (c : List Expression → Expression)
    (hkind : ∀ es fs, (c es).kind = (c fs).kind) (hoperands : ∀ es, (c es).operands = es)
    (hperm : ∀ {es fs : List Expression}, es.Perm fs → Reorders (c es) (c fs))
    (has : ∀ a ∈ as, ∀ b, a.alike b = true → Reordered a b) (h : sameBag as bs = true) :
    Reordered (c as) (c bs) := by
  obtain ⟨bs', hbs, hall⟩ := (sameBag_iff_perm as bs).mp h
  -- `bs'` has the order of `as` and the members of `bs`
  have hmembers : List.Forall₂ Reordered as bs' :=
    ((List.forall₂_and_left as bs').mpr ⟨has, hall⟩).imp fun a b hab => hab.1 b hab.2
  exact (Reordered.members c hkind hoperands hmembers []).tail (hperm hbs)

/-- **What is alike is reordered**, by its structure. -/
theorem reordered_of_alike (a : Expression) : ∀ b, a.alike b = true → Reordered a b := by
  induction a using operandInduction with
  | step a ih =>
    intro b hab
    cases a with
    | constant v | accessor x =>
      cases b <;> simp only [alike, Bool.false_eq_true, beq_iff_eq] at hab
      exact hab ▸ .refl
    | not a | optional a | ignore a | present a =>
      cases b <;> simp only [alike, Bool.false_eq_true] at hab
      exact (ih a (.head _) _ hab).inOnly _ (fun _ _ => rfl) fun _ => rfl
    | and as =>
      cases b <;> first | rw [alike_and] at hab | simp only [alike, Bool.false_eq_true] at hab
      exact reordered_of_sameBag and (fun _ _ => rfl) (fun _ => rfl) .and ih hab
    | or as =>
      cases b <;> first | rw [alike_or] at hab | simp only [alike, Bool.false_eq_true] at hab
      exact reordered_of_sameBag or (fun _ _ => rfl) (fun _ => rfl) .or ih hab
    | compare op l r =>
      cases b <;> simp only [alike, Bool.false_eq_true, Bool.and_eq_true, beq_iff_eq] at hab
      obtain ⟨⟨rfl, hl⟩, hr⟩ := hab
      exact (ih l (.head _) _ hl).compare op (ih r (.tail _ (.head _)) _ hr)

/-- **Likeness is reordering.** -/
theorem alike_iff_reordered (a b : Expression) : a.alike b = true ↔ a.Reordered b :=
  ⟨reordered_of_alike a b, Reordered.alike⟩

/-- **Reordering changes no answer** to the question whether two expressions are alike. -/
theorem alike_eq_of_reordered (ha : a.Reordered a') (hb : b.Reordered b') :
    a'.alike b' = a.alike b := by
  rw [Bool.eq_iff_iff]
  constructor
  · exact fun h => alike_trans (alike_trans ha.alike h) (alike_symm hb.alike)
  · exact fun h => alike_trans (alike_trans (alike_symm ha.alike) h) hb.alike

/-- **The laws of likeness**: it is an equivalence, the greedy comparison of bags finds a
permutation that is alike member by member whenever there is one, and the expressions
alike to one are its reorderings, so that reordering changes no answer. -/
theorem likeness_laws :
    Equivalence (fun a b : Expression => a.alike b = true) ∧
      (∀ as bs, sameBag as bs = true ↔
        ∃ bs', bs'.Perm bs ∧ List.Forall₂ (fun a b => alike a b = true) as bs') ∧
      (∀ a b : Expression, a.alike b = true ↔ a.Reordered b) ∧
      (∀ a a' b b' : Expression, a.Reordered a' → b.Reordered b' → a'.alike b' = a.alike b) ∧
      ∀ as as' bs bs', (and as).Reordered (and as') → (and bs).Reordered (and bs') →
        sameBag as' bs' = sameBag as bs := by
  refine ⟨⟨alike_self, alike_symm, alike_trans⟩, sameBag_iff_perm, alike_iff_reordered,
    fun _ _ _ _ => alike_eq_of_reordered, fun as as' bs bs' has hbs => ?_⟩
  rw [← alike_and, ← alike_and]
  exact alike_eq_of_reordered has hbs

/-- A disjunction inside a tested conjunction is reordered, then the conjunction. What has
one operand twice and another one once is not like what has them the other way round,
reordered or not. -/
theorem likeness_laws_nested :
    let p := accessor "p"
    let q := accessor "q"
    let a := present (and [p, or [p, q]])
    let a' := present (and [or [q, p], p])
    (or [q, p, p]).Reordered (or [p, q, p]) ∧ a.Reordered a' ∧ a'.alike a = true ∧
      a'.alike (or [p, q, p]) = a.alike (or [q, p, p]) ∧
      sameBag [or [q, p], p] [p, p] = sameBag [p, or [p, q]] [p, p] ∧
      sameBag [p, or [p, q]] [p, p] = false ∧ sameBag [p, q, q] [q, p, p] = false := by
  intro p q a a'
  obtain ⟨hequivalence, hbags, hreordered, hanswer, hanswers⟩ := likeness_laws
  have hor : (or [q, p, p]).Reordered (or [p, q, p]) := .single (.or (.swap p q [p]))
  have hoperand : Reordered (or [p, q]) (or [q, p]) := .single (.or (.swap q p []))
  have hinner : Reordered (and [p, or [p, q]]) (and [p, or [q, p]]) :=
    hoperand.inside (fun x => and [p, x]) [p] [] (fun _ _ => rfl) fun _ => rfl
  have houter : Reorders (and [p, or [q, p]]) (and [or [q, p], p]) := .and (.swap _ _ [])
  have hand : (and [p, or [p, q]]).Reordered (and [or [q, p], p]) := hinner.tail houter
  have ha : a.Reordered a' := hand.inOnly present (fun _ _ => rfl) fun _ => rfl
  exact ⟨hor, ha, hequivalence.symm ((hreordered a a').mpr ha), hanswer _ _ _ _ ha hor,
    hanswers _ _ _ _ hand .refl, by decide +kernel, by decide +kernel⟩

end Expression

end Specificity
