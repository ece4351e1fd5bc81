import Mathlib.Data.Multiset.AddSub
import Specificity.Expression.Likeness

/-!
# Likeness is an equivalence

The greedy comparison of two bags is right for members whose likeness is an
equivalence, and then likeness of conjunctions and disjunctions of such members
is one, too. So the two facts are shown together along the structure of an
expression: `Expression.Regular` says of one expression that it is like itself
and that whatever is like it is like the same expressions.

For regular members likeness of bags is the relation that likeness induces on
multisets (`Expression.sameBag_iff_rel`), which does not depend on the member
that the comparison uses up.
-/

namespace Specificity

/-! ## Using up a member -/

/-- Nothing is used up where nothing qualifies. -/
theorem removeFirst?_eq_none {α : Type} {p : α → Bool} {xs : List α}
    (h : removeFirst? p xs = none) : ∀ x ∈ xs, ¬ p x = true := by
  rw [removeFirst?_eq_eraseP] at h
  split at h
  · exact (Option.some_ne_none _ h).elim
  · next hany =>
    intro x hx hp
    exact hany (List.any_eq_true.mpr ⟨x, hx, hp⟩)

/-- **Using up a member** takes one that qualifies out of the bag. -/
theorem removeFirst?_eq_some {α : Type} {p : α → Bool} {xs rest : List α}
    (h : removeFirst? p xs = some rest) :
    ∃ x, p x = true ∧ (xs : Multiset α) = x ::ₘ (rest : Multiset α) := by
  induction xs generalizing rest with
  | nil => exact (Option.some_ne_none rest h.symm).elim
  | cons x xs ih =>
    rw [removeFirst?] at h
    split at h
    · next hp =>
      obtain rfl := Option.some.inj h
      exact ⟨x, hp, rfl⟩
    · obtain ⟨ys, hys, rfl⟩ := Option.map_eq_some_iff.mp h
      obtain ⟨y, hp, hxs⟩ := ih hys
      refine ⟨y, hp, ?_⟩
      rw [← Multiset.cons_coe, hxs, Multiset.cons_swap, Multiset.cons_coe]

namespace Expression

variable {a b c : Expression} {as bs cs : List Expression}

/-! ## Regular expressions -/

/-- **Regular**: like itself, and what is like it is like the same. -/
def Regular (a : Expression) : Prop :=
  alike a a = true ∧ ∀ b, alike a b = true → ∀ c, alike b c = alike a c

/-- Likeness to a regular expression. -/
def Like (a b : Expression) : Prop := Regular a ∧ alike a b = true

theorem Regular.symm (h : Regular a) (hab : alike a b = true) : alike b a = true := by
  rw [h.2 b hab a]
  exact h.1

/-- What is like a regular expression is regular. -/
theorem Regular.of_alike (h : Regular a) (hab : alike a b = true) : Regular b := by
  refine ⟨?_, fun c hbc d => ?_⟩
  · rw [h.2 b hab b]
    exact hab
  · rw [h.2 b hab d]
    rw [h.2 b hab c] at hbc
    exact h.2 c hbc d

theorem Like.symm (h : Like a b) : Like b a := ⟨h.1.of_alike h.2, h.1.symm h.2⟩

instance : IsTrans Expression Like where
  trans a b c hab hbc := by
    refine ⟨hab.1, ?_⟩
    rw [← hab.1.2 b hab.2 c]
    exact hbc.2

/-! ## Bags of regular members -/

/-- A bag loses one of two like members, and it does not matter which. -/
theorem rel_exchange {as bs bs' : Multiset Expression} {b b' : Expression}
    (h : Multiset.Rel Like as bs) (hbag : b ::ₘ bs = b' ::ₘ bs') (hab : Like a b)
    (hab' : Like a b') : Multiset.Rel Like as bs' := by
  rcases Multiset.cons_eq_cons.mp hbag with ⟨-, rfl⟩ | ⟨-, rest, rfl, rfl⟩
  · exact h
  · obtain ⟨x, xs, hxb, hrest, rfl⟩ := Multiset.rel_cons_right.mp h
    exact .cons (IsTrans.trans x a b (IsTrans.trans x b' a hxb hab'.symm) hab) hrest

/-- What claims its like one by one is related to a part of the bag. -/
theorem rel_of_claimAll (has : ∀ a ∈ as, Regular a) (h : claimAll as bs = true) :
    ∃ part rest : Multiset Expression, Multiset.Rel Like as part ∧
      (bs : Multiset Expression) = part + rest := by
  induction as generalizing bs with
  | nil => exact ⟨0, bs, .zero, (Multiset.zero_add _).symm⟩
  | cons a as ih =>
    rw [claimAll] at h
    split at h
    · next rest hrest =>
      obtain ⟨b, hab, hbs⟩ := removeFirst?_eq_some hrest
      obtain ⟨part, left, hrel, hpart⟩ := ih (fun x hx => has x (List.mem_cons_of_mem _ hx)) h
      refine ⟨b ::ₘ part, left, ?_, ?_⟩
      · rw [← Multiset.cons_coe]
        exact .cons ⟨has a List.mem_cons_self, hab⟩ hrel
      · rw [hbs, hpart, Multiset.cons_add]
    · exact absurd h Bool.false_ne_true

/-- **The greedy comparison misses nothing.** -/
theorem claimAll_of_rel (h : Multiset.Rel Like (as : Multiset Expression) bs) :
    claimAll as bs = true := by
  induction as generalizing bs with
  | nil => rw [claimAll]
  | cons a as ih =>
    rw [← Multiset.cons_coe] at h
    obtain ⟨b, part, hab, hrel, hbs⟩ := Multiset.rel_cons_left.mp h
    have hmem : b ∈ bs := by
      rw [← Multiset.mem_coe, hbs]
      exact Multiset.mem_cons_self b part
    rw [claimAll]
    cases hrest : removeFirst? (alike a) bs with
    | none => exact absurd hab.2 (removeFirst?_eq_none hrest b hmem)
    | some rest =>
      obtain ⟨b', hab', hbs'⟩ := removeFirst?_eq_some hrest
      exact ih (rel_exchange hrel (hbs.symm.trans hbs') hab ⟨hab.1, hab'⟩)

/-- **Likeness of bags** is the relation that likeness induces on multisets. -/
theorem sameBag_iff_rel (has : ∀ a ∈ as, Regular a) :
    sameBag as bs = true ↔ Multiset.Rel Like (as : Multiset Expression) bs := by
  unfold sameBag
  rw [Bool.and_eq_true, beq_iff_eq]
  constructor
  · rintro ⟨hlength, hclaim⟩
    obtain ⟨part, rest, hrel, hbs⟩ := rel_of_claimAll has hclaim
    have hcard : as.length = part.card := by
      rw [← Multiset.card_eq_card_of_rel hrel, Multiset.coe_card]
    have hcards : bs.length = part.card + rest.card := by
      rw [← Multiset.coe_card, hbs, Multiset.card_add]
    have hrest : rest = 0 := Multiset.card_eq_zero.mp (by omega)
    rw [hbs, hrest, Multiset.add_zero]
    exact hrel
  · intro hrel
    exact ⟨Multiset.card_eq_card_of_rel hrel, claimAll_of_rel hrel⟩

/-- **A bag of regular members is regular.** -/
theorem regular_bag (has : ∀ a ∈ as, Regular a) :
    sameBag as as = true ∧ ∀ bs, sameBag as bs = true → ∀ cs, sameBag bs cs = sameBag as cs := by
  refine ⟨(sameBag_iff_rel has).mpr (Multiset.rel_refl_of_refl_on fun a ha =>
    ⟨has a ha, (has a ha).1⟩), fun bs hbs cs => ?_⟩
  have hrel := (sameBag_iff_rel has).mp hbs
  have hback : Multiset.Rel Like (bs : Multiset Expression) as :=
    (Multiset.rel_flip.mpr hrel).mono fun _ _ _ _ h => Like.symm h
  have hregular : ∀ b ∈ bs, Regular b := fun b hb => by
    obtain ⟨a, -, hba⟩ := Multiset.exists_mem_of_rel_of_mem hback (Multiset.mem_coe.mpr hb)
    exact hba.1
  rw [Bool.eq_iff_iff, sameBag_iff_rel has, sameBag_iff_rel hregular]
  exact ⟨fun h => .trans Like hrel h, fun h => .trans Like hback h⟩

/-! ## Every expression is regular -/

mutual

/-- **Every expression is regular**, by its structure. -/
theorem regular : ∀ a : Expression, Regular a
  | constant v => by
    refine ⟨by simp [alike], fun b hab c => ?_⟩
    cases b <;> simp [alike] at hab
    rw [hab]
  | accessor x => by
    refine ⟨by simp [alike], fun b hab c => ?_⟩
    cases b <;> simp [alike] at hab
    rw [hab]
  | not a => by
    have ha := regular a
    refine ⟨by rw [alike]; exact ha.1, fun b hab c => ?_⟩
    cases b <;> simp only [alike, Bool.false_eq_true] at hab
    cases c <;> simp only [alike, ha.2 _ hab]
  | and as => by
    have has := regular_bag (regularAll as)
    refine ⟨by rw [alike_and]; exact has.1, fun b hab c => ?_⟩
    cases b <;> first | rw [alike_and] at hab | simp only [alike, Bool.false_eq_true] at hab
    cases c <;> first | rw [alike_and, alike_and, has.2 _ hab] | simp only [alike]
  | or as => by
    have has := regular_bag (regularAll as)
    refine ⟨by rw [alike_or]; exact has.1, fun b hab c => ?_⟩
    cases b <;> first | rw [alike_or] at hab | simp only [alike, Bool.false_eq_true] at hab
    cases c <;> first | rw [alike_or, alike_or, has.2 _ hab] | simp only [alike]
  | optional a => by
    have ha := regular a
    refine ⟨by rw [alike]; exact ha.1, fun b hab c => ?_⟩
    cases b <;> simp only [alike, Bool.false_eq_true] at hab
    cases c <;> simp only [alike, ha.2 _ hab]
  | ignore a => by
    have ha := regular a
    refine ⟨by rw [alike]; exact ha.1, fun b hab c => ?_⟩
    cases b <;> simp only [alike, Bool.false_eq_true] at hab
    cases c <;> simp only [alike, ha.2 _ hab]
  | present a => by
    have ha := regular a
    refine ⟨by rw [alike]; exact ha.1, fun b hab c => ?_⟩
    cases b <;> simp only [alike, Bool.false_eq_true] at hab
    cases c <;> simp only [alike, ha.2 _ hab]
  | compare o l r => by
    have hl := regular l
    have hr := regular r
    refine ⟨by simp [alike, hl.1, hr.1], fun b hab c => ?_⟩
    cases b <;> simp only [alike, Bool.false_eq_true, Bool.and_eq_true, beq_iff_eq] at hab
    obtain ⟨⟨rfl, hleft⟩, hright⟩ := hab
    cases c <;> simp only [alike, hl.2 _ hleft, hr.2 _ hright]

/-- Every member of a list is regular. -/
theorem regularAll : ∀ as : List Expression, ∀ a ∈ as, Regular a
  | [] => fun a ha => absurd ha List.not_mem_nil
  | b :: bs => fun a ha => by
    have hb := regular b
    rcases List.mem_cons.mp ha with rfl | ha
    · exact hb
    · exact regularAll bs a ha

end

/-! ## The equivalence -/

theorem alike_self (a : Expression) : alike a a = true := (regular a).1

theorem alike_symm (h : alike a b = true) : alike b a = true := (regular a).symm h

theorem alike_comm (a b : Expression) : alike a b = alike b a :=
  Bool.eq_iff_iff.mpr ⟨alike_symm, alike_symm⟩

theorem alike_trans (hab : alike a b = true) (hbc : alike b c = true) : alike a c = true := by
  rw [← (regular a).2 b hab c]
  exact hbc

/-- **Like bags** are related member by member. -/
theorem sameBag_iff (as bs : List Expression) :
    sameBag as bs = true ↔
      Multiset.Rel (fun a b => alike a b = true) (as : Multiset Expression) bs := by
  rw [sameBag_iff_rel (regularAll as)]
  exact ⟨fun h => h.mono fun _ _ _ _ h => h.2, fun h => h.mono fun a _ _ _ h => ⟨regular a, h⟩⟩

/-- Each member of a bag has its like in a like bag. -/
theorem exists_alike_of_sameBag (h : sameBag as bs = true) (ha : a ∈ as) :
    ∃ b ∈ bs, alike a b = true := by
  obtain ⟨b, hb, hab⟩ := Multiset.exists_mem_of_rel_of_mem ((sameBag_iff as bs).mp h)
    (Multiset.mem_coe.mpr ha)
  exact ⟨b, Multiset.mem_coe.mp hb, hab⟩

theorem sameBag_comm (as bs : List Expression) : sameBag as bs = sameBag bs as := by
  rw [Bool.eq_iff_iff, ← alike_and, ← alike_and]
  exact ⟨alike_symm, alike_symm⟩

end Expression

end Specificity
