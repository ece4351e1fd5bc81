import Specificity.Comparers

/-!
# Orderly judgements

Predicates, clauses and the nodes of a tree are each judged by a function
that answers with one of the four relationships. A judgement is *orderly*
if exchanging the two sides turns its answer round and "at least as wide"
is transitive. These two laws already make "narrower" a strict order that
respects "equal", so what is shown here once serves predicates, clauses and
nodes alike.

A registry of comparers is *lawful* if its judgement on predicates is
orderly and finds every predicate equal to itself.
-/

namespace Specificity

namespace Relationship

variable {β : Type}

/-! ## The two halves of a relationship -/

@[simp] theorem covers_equal : covers equal = true := rfl

@[simp] theorem covers_specializes : covers specializes = false := rfl

@[simp] theorem covers_generalizes : covers generalizes = true := rfl

@[simp] theorem covers_incomparable : covers incomparable = false := rfl

@[simp] theorem isCovered_equal : isCovered equal = true := rfl

@[simp] theorem isCovered_specializes : isCovered specializes = true := rfl

@[simp] theorem isCovered_generalizes : isCovered generalizes = false := rfl

@[simp] theorem isCovered_incomparable : isCovered incomparable = false := rfl

/-- A relationship is narrower if it is at most as wide and not at least as
wide. -/
theorem eq_specializes_iff (r : Relationship) :
    r = .specializes ↔ r.isCovered = true ∧ ¬ r.covers = true := by
  cases r <;> decide

/-- A relationship is wider if it is at least as wide and not at most as wide. -/
theorem eq_generalizes_iff (r : Relationship) :
    r = .generalizes ↔ r.covers = true ∧ ¬ r.isCovered = true := by
  cases r <;> decide

/-- Equal is at most as wide and at least as wide. -/
theorem eq_equal_iff (r : Relationship) :
    r = .equal ↔ r.isCovered = true ∧ r.covers = true := by
  cases r <;> decide

/-- Incomparable is neither at most as wide nor at least as wide. -/
theorem eq_incomparable_iff (r : Relationship) :
    r = .incomparable ↔ ¬ r.isCovered = true ∧ ¬ r.covers = true := by
  cases r <;> decide

/-- At most as wide is equal or narrower. -/
theorem isCovered_iff (r : Relationship) :
    r.isCovered = true ↔ r = .equal ∨ r = .specializes := by
  cases r <;> decide

/-- At least as wide is equal or wider. -/
theorem covers_iff (r : Relationship) :
    r.covers = true ↔ r = .equal ∨ r = .generalizes := by
  cases r <;> decide

theorem isCovered_of_equal {r : Relationship} (h : r = .equal) : r.isCovered = true :=
  (isCovered_iff r).mpr (.inl h)

theorem isCovered_of_specializes {r : Relationship} (h : r = .specializes) :
    r.isCovered = true := (isCovered_iff r).mpr (.inr h)

theorem covers_of_equal {r : Relationship} (h : r = .equal) : r.covers = true :=
  (covers_iff r).mpr (.inl h)

theorem covers_of_generalizes {r : Relationship} (h : r = .generalizes) : r.covers = true :=
  (covers_iff r).mpr (.inr h)

/-- **A relationship is its two halves.** -/
theorem eq_of_halves {r q : Relationship} (hcovered : r.isCovered = q.isCovered)
    (hcovers : r.covers = q.covers) : r = q := by
  revert hcovered hcovers
  cases r <;> cases q <;> decide

theorem swap_eq_iff (r q : Relationship) : r.swap = q ↔ r = q.swap := by
  cases r <;> cases q <;> decide

/-! ## Laws of a judgement -/

/-- **An orderly judgement**: seen from the other side the answer is turned
round, and "equal or wider" is transitive. -/
structure Orderly (judge : β → β → Relationship) : Prop where
  /-- Exchanging the sides turns the answer round. -/
  swap : ∀ a b, judge b a = (judge a b).swap
  /-- What is at least as wide as something at least as wide is so itself. -/
  trans : ∀ a b c, (judge a b).covers = true → (judge b c).covers = true →
    (judge a c).covers = true

namespace Orderly

variable {judge : β → β → Relationship} {a b c : β}

/-- Being at least as wide, seen from the narrower side. -/
theorem covers_flip (h : Orderly judge) (a b : β) :
    (judge b a).covers = (judge a b).isCovered := by
  rw [h.swap a b, covers_swap]

theorem isCovered_trans (h : Orderly judge) (hab : (judge a b).isCovered = true)
    (hbc : (judge b c).isCovered = true) : (judge a c).isCovered = true := by
  rw [← h.covers_flip] at *
  exact h.trans c b a hbc hab

/-- **Narrower** is at most as wide, and not the other way round. -/
theorem specializes_iff (h : Orderly judge) :
    judge a b = .specializes ↔
      (judge a b).isCovered = true ∧ ¬ (judge b a).isCovered = true := by
  rw [eq_specializes_iff, h.covers_flip b a]

/-- **Equal** is at most as wide both ways. -/
theorem equal_iff (h : Orderly judge) :
    judge a b = .equal ↔
      (judge a b).isCovered = true ∧ (judge b a).isCovered = true := by
  rw [eq_equal_iff, h.covers_flip b a]

/-- **Wider** is narrower from the other side. -/
theorem generalizes_iff (h : Orderly judge) :
    judge a b = .generalizes ↔ judge b a = .specializes := by
  rw [h.swap a b, swap_eq_iff]
  rfl

theorem equal_symm (h : Orderly judge) (hab : judge a b = .equal) : judge b a = .equal := by
  rw [h.swap a b, hab]
  rfl

theorem incomparable_symm (h : Orderly judge) (hab : judge a b = .incomparable) :
    judge b a = .incomparable := by
  rw [h.swap a b, hab]
  rfl

/-- Nothing is narrower both ways. -/
theorem specializes_asymm (h : Orderly judge) (hab : judge a b = .specializes) :
    judge b a ≠ .specializes := by
  rw [h.swap a b, hab]
  decide

/-- Nothing is narrower than itself. -/
theorem specializes_irrefl (h : Orderly judge) (a : β) : judge a a ≠ .specializes :=
  fun haa => h.specializes_asymm haa haa

/-- At most as wide as something narrower is narrower. -/
theorem specializes_of_isCovered_of_specializes (h : Orderly judge)
    (hab : (judge a b).isCovered = true) (hbc : judge b c = .specializes) :
    judge a c = .specializes := by
  obtain ⟨hle, hnot⟩ := h.specializes_iff.mp hbc
  exact h.specializes_iff.mpr
    ⟨h.isCovered_trans hab hle, fun hca => hnot (h.isCovered_trans hca hab)⟩

/-- Narrower than something at most as wide is narrower. -/
theorem specializes_of_specializes_of_isCovered (h : Orderly judge)
    (hab : judge a b = .specializes) (hbc : (judge b c).isCovered = true) :
    judge a c = .specializes := by
  obtain ⟨hle, hnot⟩ := h.specializes_iff.mp hab
  exact h.specializes_iff.mpr
    ⟨h.isCovered_trans hle hbc, fun hca => hnot (h.isCovered_trans hbc hca)⟩

/-- **Narrower is transitive.** -/
theorem specializes_trans (h : Orderly judge) (hab : judge a b = .specializes)
    (hbc : judge b c = .specializes) : judge a c = .specializes :=
  h.specializes_of_specializes_of_isCovered hab (h.specializes_iff.mp hbc).1

/-- **Equal things stand alike to everything.** -/
theorem eq_of_equal (h : Orderly judge) (hab : judge a b = .equal) (c : β) :
    judge a c = judge b c := by
  obtain ⟨hle, hge⟩ := h.equal_iff.mp hab
  have hcovered : (judge a c).isCovered = (judge b c).isCovered :=
    Bool.eq_iff_iff.mpr ⟨h.isCovered_trans hge, h.isCovered_trans hle⟩
  have hcovers : (judge a c).covers = (judge b c).covers := by
    rw [h.covers_flip c a, h.covers_flip c b]
    exact Bool.eq_iff_iff.mpr
      ⟨fun hca => h.isCovered_trans hca hle, fun hcb => h.isCovered_trans hcb hge⟩
  exact eq_of_halves hcovered hcovers

/-- Everything stands alike to equal things. -/
theorem eq_of_equal_right (h : Orderly judge) (hab : judge a b = .equal) (c : β) :
    judge c a = judge c b := by
  rw [h.swap a c, h.swap b c, h.eq_of_equal hab c]

end Orderly

end Relationship

/-- **A lawful registry** judges predicates in an orderly way and finds every
predicate equal to itself. -/
structure Comparers.Lawful (cs : Comparers) : Prop extends
    Relationship.Orderly cs.relate where
  /-- Every predicate is equal to itself. -/
  self : ∀ p, cs.relate p p = .equal

end Specificity
