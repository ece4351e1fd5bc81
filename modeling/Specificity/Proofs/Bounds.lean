import Specificity.Proofs.Judgement
import Specificity.Proofs.Likeness

/-!
# Registries of integer bounds are lawful

A registry whose only comparer is the one of integer bounds, for whichever
kinds, judges two predicates that are not both negations in one of two ways:
they are alike, or they bound the same name by the same operator, and the
looser limit is the wider (`Comparers.Widens`). Both are transitive, and
likeness of bounds is equality, so the two fit together. The registry without
comparers is the special case without bounds.
-/

namespace Specificity

open Comparer

/-! ## Limits -/

namespace Comparer

/-- Is the limit `a` at least as loose as `b`? -/
def Looser (op : Comparison) (a b : Int64) : Prop :=
  match op with
  | .greater | .greaterOrEqual => a ≤ b
  | _ => b ≤ a

theorem looser_self (op : Comparison) (a : Int64) : Looser op a a := by
  cases op <;> exact Int64.le_refl a

theorem looser_trans {op : Comparison} {a b c : Int64} (hab : Looser op a b)
    (hbc : Looser op b c) : Looser op a c := by
  cases op with
  | greater | greaterOrEqual => exact Int64.le_trans hab hbc
  | _ => exact Int64.le_trans hbc hab

/-- Limits that are each as loose as the other are the same. -/
theorem looser_antisymm {op : Comparison} {a b : Int64} (hab : Looser op a b)
    (hba : Looser op b a) : a = b := by
  cases op with
  | greater | greaterOrEqual => exact Int64.le_antisymm hab hba
  | _ => exact Int64.le_antisymm hba hab

/-- **The looser limit is the wider.** -/
theorem covers_ofLimits (op : Comparison) (a b : Int64) :
    (ofLimits op a b).covers = true ↔ Looser op a b := by
  -- all operators compare as `greater` does, some of them the other way round
  have hcompare : ∀ x y : Int64, (ofLimits .greater x y).covers = true ↔ x ≤ y := by
    intro x y
    rw [← Std.isLE_compare]
    unfold ofLimits
    dsimp only
    cases compare x y <;> decide
  cases op <;> exact hcompare _ _

/-- Seen from the other side the limits are exchanged. -/
theorem ofLimits_swap (op : Comparison) (a b : Int64) :
    ofLimits op b a = (ofLimits op a b).swap := by
  have hcompare : ∀ x y : Int64, ofLimits .greater y x = (ofLimits .greater x y).swap := by
    intro x y
    have hswap : compare y x = (compare x y).swap := Std.OrientedCmp.eq_swap
    unfold ofLimits
    dsimp only
    rw [hswap]
    cases compare x y <;> rfl
  cases op <;> exact hcompare _ _

/-- The predicate that states a bound. -/
def Bound.expression (b : Bound) : Expression :=
  .compare b.op (.accessor b.name) (.constant (.integer b.limit))

theorem bound?_eq_some_iff (p : Expression) (b : Bound) :
    bound? p = some b ↔ p = b.expression := by
  constructor
  · intro h
    unfold bound? at h
    split at h
    · obtain rfl := Option.some.inj h
      rfl
    · exact (Option.some_ne_none b h.symm).elim
  · rintro rfl
    rfl

theorem expression_inj {a b : Bound} (h : a.expression = b.expression) : a = b := by
  rw [← bound?_eq_some_iff] at h
  exact Option.some.inj h

/-! ## The two comparers -/

theorem covers_byLikeness (p q : Expression) : (byLikeness p q).covers = p.alike q := by
  unfold byLikeness
  split
  · next h => rw [h]; rfl
  · next h => rw [Bool.not_eq_true _ |>.mp h]; rfl

theorem byLikeness_swap (p q : Expression) : byLikeness q p = (byLikeness p q).swap := by
  unfold byLikeness
  rw [Expression.alike_comm q p]
  split <;> rfl

theorem integerBounds_swap (p q : Expression) :
    integerBounds q p = (integerBounds p q).swap := by
  unfold integerBounds
  cases bound? p with
  | none => cases bound? q <;> exact byLikeness_swap p q
  | some a =>
    cases bound? q with
    | none => exact byLikeness_swap p q
    | some b =>
      by_cases h : a.op = b.op ∧ a.name = b.name ∧ a.op.isOrdering = true
      · have h' : b.op = a.op ∧ b.name = a.name ∧ b.op.isOrdering = true :=
          ⟨h.1.symm, h.2.1.symm, h.1 ▸ h.2.2⟩
        dsimp only
        rw [if_pos h, if_pos h', ← h.1]
        exact ofLimits_swap a.op a.limit b.limit
      · have h' : ¬ (b.op = a.op ∧ b.name = a.name ∧ b.op.isOrdering = true) := fun h' =>
          h ⟨h'.1.symm, h'.2.1.symm, h'.1 ▸ h'.2.2⟩
        simp only [if_neg h, if_neg h']
        exact byLikeness_swap p q

end Comparer

/-- What is like a bound is the bound. -/
theorem Expression.eq_of_alike_bound {b : Bound} {p : Expression}
    (h : p.alike b.expression = true) : p = b.expression := by
  unfold Bound.expression at *
  cases p with
  | compare o l r =>
    cases l <;> cases r <;> simp_all [Expression.alike]
  | _ => simp [Expression.alike] at h

/-- **Equal or wider by their bounds** are predicates that are alike, or bound one name
by one ordering operator, with a limit that is as loose. -/
theorem Comparer.covers_integerBounds (p q : Expression) :
    (integerBounds p q).covers = true ↔ p.alike q = true ∨
      ∃ a b : Bound, (a.op = b.op ∧ a.name = b.name ∧ a.op.isOrdering = true) ∧
        p = a.expression ∧ q = b.expression ∧ Looser a.op a.limit b.limit := by
  have hlike (hnot : ∀ a b : Bound, (a.op = b.op ∧ a.name = b.name ∧ a.op.isOrdering = true) →
        p = a.expression → q ≠ b.expression) :
      (byLikeness p q).covers = true ↔ p.alike q = true ∨
        ∃ a b : Bound, (a.op = b.op ∧ a.name = b.name ∧ a.op.isOrdering = true) ∧
          p = a.expression ∧ q = b.expression ∧ Looser a.op a.limit b.limit := by
    rw [covers_byLikeness]
    refine ⟨.inl, fun h => h.resolve_right ?_⟩
    rintro ⟨a, b, hsame, hp, hq, -⟩
    exact hnot a b hsame hp hq
  unfold integerBounds
  cases hp : bound? p with
  | none =>
    refine hlike fun a _ _ hpa _ => ?_
    rw [(bound?_eq_some_iff p a).mpr hpa] at hp
    exact Option.some_ne_none _ hp
  | some a =>
    cases hq : bound? q with
    | none =>
      refine hlike fun _ b _ _ hqb => ?_
      rw [(bound?_eq_some_iff q b).mpr hqb] at hq
      exact Option.some_ne_none _ hq
    | some b =>
      obtain rfl := (bound?_eq_some_iff p a).mp hp
      obtain rfl := (bound?_eq_some_iff q b).mp hq
      by_cases hsame : a.op = b.op ∧ a.name = b.name ∧ a.op.isOrdering = true
      · simp only [if_pos hsame, covers_ofLimits]
        constructor
        · exact fun hloose => .inr ⟨a, b, hsame, rfl, rfl, hloose⟩
        · rintro (halike | ⟨a', b', -, ha, hb, hloose⟩)
          · obtain rfl := expression_inj (Expression.eq_of_alike_bound halike)
            exact looser_self _ _
          · obtain rfl := expression_inj ha
            obtain rfl := expression_inj hb
            exact hloose
      · simp only [if_neg hsame]
        refine hlike fun a' b' hsame' ha hb => ?_
        obtain rfl := expression_inj ha
        obtain rfl := expression_inj hb
        exact hsame hsame'

namespace Comparers

variable {cs : Comparers} {p q r : Expression}

/-- **A registry of bounds**: it has no other comparer than that of integer bounds. -/
def BoundsOnly (cs : Comparers) : Prop :=
  ∀ k, cs.find? k = none ∨ cs.find? k = some integerBounds

/-- **Wider bounds**: `p` and `q` bound one name by one operator that the registry
orders, and the limit of `p` is at least as loose. -/
def Widens (cs : Comparers) (p q : Expression) : Prop :=
  ∃ a b : Bound, (a.op = b.op ∧ a.name = b.name ∧ a.op.isOrdering = true) ∧
    cs.find? (.compare a.op) = some integerBounds ∧ p = a.expression ∧ q = b.expression ∧
    Looser a.op a.limit b.limit

theorem widens_trans (hpq : cs.Widens p q) (hqr : cs.Widens q r) : cs.Widens p r := by
  obtain ⟨a, b, ⟨hop, hname, horder⟩, hfind, rfl, rfl, hloose⟩ := hpq
  obtain ⟨b', c, ⟨hop', hname', -⟩, -, hb, rfl, hloose'⟩ := hqr
  obtain rfl := expression_inj hb
  refine ⟨a, c, ⟨hop.trans hop', hname.trans hname', horder⟩, hfind, rfl, rfl, ?_⟩
  exact looser_trans hloose (hop ▸ hloose')

/-- Bounds that are each wider than the other are the same. -/
theorem widens_antisymm (hpq : cs.Widens p q) (hqp : cs.Widens q p) : p = q := by
  obtain ⟨a, b, ⟨hop, hname, -⟩, -, rfl, rfl, hloose⟩ := hpq
  obtain ⟨b', a', -, -, hb, ha, hloose'⟩ := hqp
  obtain rfl := expression_inj hb
  obtain rfl := expression_inj ha
  have hlimit : a.limit = b.limit := looser_antisymm hloose (hop ▸ hloose')
  have hbound : a = b := by
    cases a
    cases b
    simp_all
  rw [hbound]

/-! ## Predicates that are not both negations -/

/-- **Equal or wider** is being alike or wider bounds. -/
theorem covers_relateAtoms (hcs : cs.BoundsOnly) (p q : Expression) :
    (cs.relateAtoms p q).covers = true ↔ p.alike q = true ∨ cs.Widens p q := by
  have hlike (hnot : ¬ cs.Widens p q) :
      (byLikeness p q).covers = true ↔ p.alike q = true ∨ cs.Widens p q := by
    rw [covers_byLikeness]
    exact ⟨.inl, fun h => h.resolve_right hnot⟩
  unfold relateAtoms
  by_cases hkind : p.kind = q.kind
  · rw [if_pos hkind]
    rcases hcs p.kind with hnone | hsome
    · rw [hnone]
      refine hlike ?_
      rintro ⟨a, b, -, hfind, rfl, -, -⟩
      exact Option.some_ne_none _ (hfind.symm.trans hnone)
    · rw [hsome]
      show (integerBounds p q).covers = true ↔ _
      rw [covers_integerBounds]
      refine or_congr_right ?_
      constructor
      · rintro ⟨a, b, hsame, rfl, rfl, hloose⟩
        exact ⟨a, b, hsame, hsome, rfl, rfl, hloose⟩
      · rintro ⟨a, b, hsame, -, hp, hq, hloose⟩
        exact ⟨a, b, hsame, hp, hq, hloose⟩
  · rw [if_neg hkind]
    refine hlike ?_
    rintro ⟨a, b, ⟨hop, -⟩, -, rfl, rfl, -⟩
    exact hkind (congrArg Expression.Kind.compare hop)

theorem relateAtoms_swap (hcs : cs.BoundsOnly) (p q : Expression) :
    cs.relateAtoms q p = (cs.relateAtoms p q).swap := by
  unfold relateAtoms
  by_cases hkind : p.kind = q.kind
  · rw [if_pos hkind, if_pos hkind.symm, ← hkind]
    rcases hcs p.kind with hnone | hsome
    · rw [hnone]
      exact byLikeness_swap p q
    · rw [hsome]
      exact integerBounds_swap p q
  · rw [if_neg hkind, if_neg fun h => hkind h.symm]
    exact byLikeness_swap p q

/-- Equal or wider is transitive for predicates that are not both negations. -/
theorem covers_relateAtoms_trans (hcs : cs.BoundsOnly)
    (hpq : (cs.relateAtoms p q).covers = true) (hqr : (cs.relateAtoms q r).covers = true) :
    (cs.relateAtoms p r).covers = true := by
  rw [covers_relateAtoms hcs] at *
  rcases hpq with hpq | hpq <;> rcases hqr with hqr | hqr
  · exact .inl (Expression.alike_trans hpq hqr)
  · have hqr' := hqr
    obtain ⟨b, c, -, -, rfl, -, -⟩ := hqr
    rw [Expression.eq_of_alike_bound hpq]
    exact .inr hqr'
  · have hpq' := hpq
    obtain ⟨a, b, -, -, -, rfl, -⟩ := hpq
    rw [Expression.eq_of_alike_bound (Expression.alike_symm hqr)]
    exact .inr hpq'
  · exact .inr (widens_trans hpq hqr)

/-! ## All predicates -/

theorem relate_not (cs : Comparers) (p q : Expression) :
    cs.relate (.not p) (.not q) = (cs.relate p q).swap := by
  rw [relate]

theorem relate_atoms (cs : Comparers) {p q : Expression}
    (h : ∀ p' q', p = .not p' → q = .not q' → False) : cs.relate p q = cs.relateAtoms p q := by
  rw [relate]
  exact h

/-- **Without comparers** predicates are equal if they are alike, and incomparable
otherwise. -/
theorem relate_empty (p q : Expression) : Comparers.empty.relate p q = byLikeness p q := by
  induction p, q using Comparers.relate.induct with
  | case1 p q ih =>
    rw [relate_not, ih]
    unfold byLikeness
    rw [show (Expression.not p).alike (.not q) = p.alike q by rw [Expression.alike]]
    split <;> rfl
  | case2 p q hatoms =>
    rw [relate_atoms _ hatoms]
    unfold relateAtoms
    split <;> rfl

/-- **Exchanging two predicates turns their relationship round.** -/
theorem relate_swap (hcs : cs.BoundsOnly) (p q : Expression) :
    cs.relate q p = (cs.relate p q).swap := by
  induction p, q using Comparers.relate.induct with
  | case1 p q ih => rw [relate_not, relate_not, ih]
  | case2 p q hatoms =>
    rw [relate_atoms cs hatoms, relate_atoms cs fun q' p' hq hp => hatoms p' q' hp hq]
    exact relateAtoms_swap hcs p q

/-- A negation is not at least as wide as anything but a negation. -/
theorem exists_not_of_covers (hcs : cs.BoundsOnly) {p : Expression}
    (h : (cs.relate (.not p) q).covers = true) : ∃ q', q = .not q' := by
  by_contra hnone
  rw [relate_atoms cs fun _ q' _ hq => hnone ⟨q', hq⟩, covers_relateAtoms hcs] at h
  rcases h with halike | ⟨a, b, -, -, hp, -, -⟩
  · cases q <;> simp [Expression.alike] at halike
    exact hnone ⟨_, rfl⟩
  · exact Expression.noConfusion hp

/-- Nothing but a negation is at least as wide as a negation. -/
theorem exists_not_of_covers' (hcs : cs.BoundsOnly) {q : Expression}
    (h : (cs.relate p (.not q)).covers = true) : ∃ p', p = .not p' := by
  by_contra hnone
  rw [relate_atoms cs fun p' _ hp _ => hnone ⟨p', hp⟩, covers_relateAtoms hcs] at h
  rcases h with halike | ⟨a, b, -, -, -, hq, -⟩
  · cases p <;> simp [Expression.alike] at halike
    exact hnone ⟨_, rfl⟩
  · exact Expression.noConfusion hq

/-- Equal or wider is transitive through a predicate that is no negation: then its
neighbours are none either. -/
theorem covers_relate_trans_of_ne_not (hcs : cs.BoundsOnly) (hq : ∀ q', q ≠ .not q')
    (hpq : (cs.relate p q).covers = true) (hqr : (cs.relate q r).covers = true) :
    (cs.relate p r).covers = true := by
  have hp : ∀ p', p ≠ .not p' := by
    rintro p' rfl
    obtain ⟨q', hq'⟩ := exists_not_of_covers hcs hpq
    exact hq q' hq'
  rw [relate_atoms cs fun _ q' _ h => hq q' h] at hpq
  rw [relate_atoms cs fun q' _ h _ => hq q' h] at hqr
  rw [relate_atoms cs fun p' _ h _ => hp p' h]
  exact covers_relateAtoms_trans hcs hpq hqr

/-- **Equal or wider is transitive**, in both directions at once, since a negation
exchanges them. -/
theorem covers_relate_trans (hcs : cs.BoundsOnly) (p q r : Expression) :
    ((cs.relate p q).covers = true → (cs.relate q r).covers = true →
      (cs.relate p r).covers = true) ∧
    ((cs.relate r q).covers = true → (cs.relate q p).covers = true →
      (cs.relate r p).covers = true) := by
  induction p, q using Comparers.relate.induct generalizing r with
  | case1 p q ih =>
    constructor
    · intro hpq hqr
      obtain ⟨r, rfl⟩ := exists_not_of_covers hcs hqr
      rw [relate_not, ← relate_swap hcs] at *
      exact (ih r).2 hqr hpq
    · intro hrq hqp
      obtain ⟨r, rfl⟩ := exists_not_of_covers' hcs hrq
      rw [relate_not, ← relate_swap hcs] at *
      exact (ih r).1 hqp hrq
  | case2 p q hatoms =>
    constructor
    · intro hpq hqr
      refine covers_relate_trans_of_ne_not hcs ?_ hpq hqr
      rintro q' rfl
      obtain ⟨p', rfl⟩ := exists_not_of_covers' hcs hpq
      exact hatoms p' q' rfl rfl
    · intro hrq hqp
      refine covers_relate_trans_of_ne_not hcs ?_ hrq hqp
      rintro q' rfl
      obtain ⟨p', rfl⟩ := exists_not_of_covers hcs hqp
      exact hatoms p' q' rfl rfl

/-- Alike predicates are equal. -/
theorem relate_of_alike (hcs : cs.BoundsOnly) (p q : Expression) (h : p.alike q = true) :
    cs.relate p q = .equal := by
  induction p, q using Comparers.relate.induct with
  | case1 p q ih =>
    rw [relate_not, ih (by rw [Expression.alike] at h; exact h)]
    rfl
  | case2 p q hatoms =>
    have hcovers := (covers_relateAtoms hcs p q).mpr (.inl h)
    have hcovered := (covers_relateAtoms hcs q p).mpr (.inl (Expression.alike_symm h))
    rw [relateAtoms_swap hcs p q, Relationship.covers_swap] at hcovered
    rw [relate_atoms cs hatoms, Relationship.eq_equal_iff]
    exact ⟨hcovered, hcovers⟩

/-- **Equal predicates are alike**, and no others: two bounds under one operator are equal
only if their limits are the same. -/
theorem relate_eq_equal_iff (hcs : cs.BoundsOnly) (p q : Expression) :
    cs.relate p q = .equal ↔ p.alike q = true := by
  refine ⟨fun h => ?_, relate_of_alike hcs p q⟩
  induction p, q using Comparers.relate.induct with
  | case1 p q ih =>
    rw [relate_not, Relationship.swap_eq_iff] at h
    rw [Expression.alike]
    exact ih h
  | case2 p q hatoms =>
    rw [relate_atoms cs hatoms, Relationship.eq_equal_iff] at h
    obtain ⟨hcovered, hcovers⟩ := h
    rw [← Relationship.covers_swap, ← relateAtoms_swap hcs, covers_relateAtoms hcs] at hcovered
    rw [covers_relateAtoms hcs] at hcovers
    rcases hcovers with halike | hwider
    · exact halike
    · rcases hcovered with halike | hwider'
      · exact Expression.alike_symm halike
      · rw [widens_antisymm hwider hwider']
        exact Expression.alike_self q

/-- **A registry of bounds is lawful.** -/
theorem lawful_of_boundsOnly (hcs : cs.BoundsOnly) : cs.Lawful where
  swap := relate_swap hcs
  trans p q r := (covers_relate_trans hcs p q r).1
  self p := relate_of_alike hcs p p (Expression.alike_self p)

theorem boundsOnly_empty : empty.BoundsOnly := fun _ => .inl rfl

/-- Registering the comparer of integer bounds for a kind leaves a registry of
bounds one. -/
theorem BoundsOnly.register (hcs : cs.BoundsOnly) (kind : Expression.Kind) :
    (cs.register kind integerBounds).BoundsOnly := by
  intro k
  unfold Comparers.register
  dsimp only
  split
  · exact .inr rfl
  · exact hcs k

/-- **Registering the comparer of integer bounds** for all ordering operators. -/
theorem boundsOnly_registerBounds : empty.registerBounds.BoundsOnly :=
  (((boundsOnly_empty.register _).register _).register _).register _

/-- **The laws of a registry of bounds**, for whichever kinds the comparer is registered:
every predicate is equal to itself, exchanging two predicates turns their relationship
round, "equal or wider" is transitive, and only predicates that are alike are equal. -/
theorem BoundsOnly.judges_by_bounds (hcs : cs.BoundsOnly) :
    (∀ p, cs.relate p p = .equal) ∧
      (∀ p q, cs.relate p q = (cs.relate q p).swap) ∧
      (∀ p q r, (cs.relate p q).covers = true → (cs.relate q r).covers = true →
        (cs.relate p r).covers = true) ∧
      ∀ p q, cs.relate p q = .equal ↔ p.alike q = true := by
  have hlawful := lawful_of_boundsOnly hcs
  exact ⟨hlawful.self, fun p q => hlawful.swap q p, hlawful.trans, relate_eq_equal_iff hcs⟩

/-- A registry for some ordering operators and for kinds without bounds: of three negated
bounds each is wider than the next, under one more negation narrower, and an operator left
out is judged by likeness. -/
theorem judges_by_bounds_negated :
    let cs := [.not, .compare .equal, .compare .less].foldl
      (fun cs kind => cs.register kind integerBounds) empty
    let bound (op : Comparison) (n : Int64) := (Bound.mk op "x" n).expression
    let below (n : Int64) := Expression.not (bound .less n)
    cs.BoundsOnly ∧ cs.relate (below 1) (below 1) = .equal ∧
      cs.relate (below 1) (below 2) = .generalizes ∧
      cs.relate (below 2) (below 1) = .specializes ∧
      (cs.relate (below 1) (below 3)).covers = true ∧
      cs.relate (.not (below 1)) (.not (below 2)) = .specializes ∧
      cs.relate (bound .greater 1) (bound .greater 2) ≠ .equal := by
  intro cs bound below
  have hcs : cs.BoundsOnly := ((boundsOnly_empty.register _).register _).register _
  obtain ⟨hself, hswap, htrans, hequal⟩ := BoundsOnly.judges_by_bounds hcs
  have hwider : cs.relate (below 1) (below 2) = .generalizes := by decide +kernel
  have hwider' : cs.relate (below 2) (below 3) = .generalizes := by decide +kernel
  have hnarrower : cs.relate (below 2) (below 1) = .specializes := by
    rw [hswap, hwider]
    rfl
  refine ⟨hcs, hself _, hwider, hnarrower, ?_, ?_, fun h => ?_⟩
  · exact htrans _ _ _ (Relationship.covers_of_generalizes hwider)
      (Relationship.covers_of_generalizes hwider')
  · rw [relate_not, hwider]
    rfl
  · have halike := (hequal _ _).mp h
    exact absurd halike (by decide +kernel)

/-- **The registry without comparers is lawful.** -/
theorem lawful_empty : empty.Lawful := lawful_of_boundsOnly boundsOnly_empty

end Comparers

end Specificity
