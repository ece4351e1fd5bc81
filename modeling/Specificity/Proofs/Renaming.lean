import Mathlib.Logic.Basic
import Specificity.Expression.Evaluation
import Specificity.Expression.Renaming

/-!
# Renaming and memories

Whether a name is replaced in an expression or given another value in the memory comes
to the same: an expression in which `x` became `y` has in a memory the value, or the
failure, that the expression itself has where `x` is set to the value of `y`
(`Expression.eval_rename`). Nothing is assumed of `y`, which may be mentioned already or
be `x` itself, because no expression binds a name.

Renaming, the test for a name and evaluation each walk over the expression on their own.
What the first two do at anything but a name is to ask the operands, so they are brought
into one form (`Expression.rename_eq_mapOperands`, `Expression.mentions_eq_any`) and
compared by an induction over operands, without a case for each kind of expression.
-/

namespace Specificity

namespace Expression

variable {m m' : Memory} {e : Expression} {es : List Expression} {f : Expression → Expression}
  {x y z : String}

/-! ## Operands -/

/-- **Induction over operands**: what an expression has as soon as its operands have it
is had by every expression. -/
@[elab_as_elim]
theorem operandInduction {motive : Expression → Prop}
    (step : ∀ e, (∀ o ∈ e.operands, motive o) → motive e) (e : Expression) : motive e := by
  have hleaf : ∀ o ∈ ([] : List Expression), motive o := fun _ ho => absurd ho List.not_mem_nil
  have hone : ∀ e, motive e → ∀ o ∈ [e], motive o := fun _ h _ ho => List.mem_singleton.mp ho ▸ h
  have hcons : ∀ e es, motive e → (∀ o ∈ es, motive o) → ∀ o ∈ e :: es, motive o :=
    fun _ _ h hs => List.forall_mem_cons.mpr ⟨h, hs⟩
  exact @Expression.rec motive (fun es => ∀ o ∈ es, motive o)
    (fun _ => step _ hleaf) (fun _ => step _ hleaf) (fun e h => step _ (hone e h))
    (fun _ hs => step _ hs) (fun _ hs => step _ hs) (fun e h => step _ (hone e h))
    (fun e h => step _ (hone e h)) (fun e h => step _ (hone e h))
    (fun _ l r hl hr => step _ (hcons l [r] hl (hone r hr))) hleaf hcons e

theorem eq_accessor_of_kind (h : e.kind = .accessor) : ∃ z, e = accessor z := by
  cases e with
  | accessor z => exact ⟨z, rfl⟩
  | _ => exact absurd h Kind.noConfusion

/-- An expression whose operands are left as they are is left as it is. -/
theorem mapOperands_eq_self (h : ∀ o ∈ e.operands, f o = o) : e.mapOperands f = e := by
  have hmap : ∀ es : List Expression, (∀ o ∈ es, f o = o) → es.map f = es := fun es hes =>
    (List.map_congr_left hes).trans (List.map_id es)
  cases e with
  | constant v => rfl
  | accessor x => rfl
  | and es => exact congrArg and (hmap es h)
  | or es => exact congrArg or (hmap es h)
  | not e => exact congrArg not (h e List.mem_cons_self)
  | optional e => exact congrArg optional (h e List.mem_cons_self)
  | ignore e => exact congrArg ignore (h e List.mem_cons_self)
  | present e => exact congrArg present (h e List.mem_cons_self)
  | compare op l r =>
    rw [mapOperands, h l List.mem_cons_self, h r (List.mem_cons_of_mem _ List.mem_cons_self)]

/-! ## Evaluation is compositional -/

theorem evalAll_map_congr (h : ∀ o ∈ es, (f o).eval m = o.eval m') :
    evalAll m (es.map f) = evalAll m' es := by
  induction es with
  | nil => rfl
  | cons e es ih =>
    obtain ⟨hhead, htail⟩ := List.forall_mem_cons.mp h
    rw [List.map_cons, evalAll, evalAll, hhead, ih htail]

theorem evalAny_map_congr (h : ∀ o ∈ es, (f o).eval m = o.eval m') :
    evalAny m (es.map f) = evalAny m' es := by
  induction es with
  | nil => rfl
  | cons e es ih =>
    obtain ⟨hhead, htail⟩ := List.forall_mem_cons.mp h
    rw [List.map_cons, evalAny, evalAny, hhead, ih htail]

/-- **Evaluation asks the operands**: an expression other than a name takes its value, or
its failure, from theirs. -/
theorem eval_mapOperands (hkind : e.kind ≠ .accessor)
    (h : ∀ o ∈ e.operands, (f o).eval m = o.eval m') :
    (e.mapOperands f).eval m = e.eval m' := by
  cases e with
  | constant v => rfl
  | accessor x => exact absurd rfl hkind
  | not e => rw [mapOperands, eval, eval, h e List.mem_cons_self]
  | and es => exact congrArg (Except.map Value.bool) (evalAll_map_congr h)
  | or es => exact congrArg (Except.map Value.bool) (evalAny_map_congr h)
  | optional e => rfl
  | ignore e => rw [mapOperands, eval, eval, h e List.mem_cons_self]
  | present e => rw [mapOperands, eval, eval, h e List.mem_cons_self]
  | compare op l r =>
    rw [mapOperands, eval, eval, h l List.mem_cons_self,
      h r (List.mem_cons_of_mem _ List.mem_cons_self)]

/-! ## Renaming and mentions, read over the operands -/

theorem fst_renameAll (x y : String) (es : List Expression) :
    (renameAll x y es).1 = es.map fun e => (e.rename x y).1 := by
  induction es with
  | nil => rfl
  | cons e es ih => rw [List.map_cons, ← ih]; rfl

theorem snd_renameAll (x y : String) (es : List Expression) :
    (renameAll x y es).2 = es.any fun e => (e.rename x y).2 := by
  induction es with
  | nil => rfl
  | cons e es ih => rw [List.any_cons, ← ih]; rfl

/-- **Renaming asks the operands**, of anything but a name. -/
theorem rename_eq_mapOperands (hkind : e.kind ≠ .accessor) (x y : String) :
    e.rename x y =
      (e.mapOperands fun o => (o.rename x y).1, e.operands.any fun o => (o.rename x y).2) := by
  cases e with
  | constant v => rfl
  | accessor z => exact absurd rfl hkind
  | and es => exact Prod.ext (congrArg and (fst_renameAll x y es)) (snd_renameAll x y es)
  | or es => exact Prod.ext (congrArg or (fst_renameAll x y es)) (snd_renameAll x y es)
  | not e | optional e | ignore e | present e => exact Prod.ext rfl (Bool.or_false _).symm
  | compare op l r =>
    exact Prod.ext rfl (congrArg ((l.rename x y).2 || ·) (Bool.or_false _).symm)

/-- **The test for a name asks the operands**, of anything but a name. -/
theorem mentions_eq_any (hkind : e.kind ≠ .accessor) (z : String) :
    e.mentions z = e.operands.any (mentions z) := by
  cases e with
  | constant v => rfl
  | accessor z => exact absurd rfl hkind
  | and es => exact mentionsAny_eq_any z es
  | or es => exact mentionsAny_eq_any z es
  | not e | optional e | ignore e | present e => exact (Bool.or_false _).symm
  | compare op l r => exact congrArg (l.mentions z || ·) (Bool.or_false _).symm

/-- Renaming keeps the kind. -/
theorem kind_rename (x y : String) (e : Expression) : (e.rename x y).1.kind = e.kind := by
  by_cases hkind : e.kind = .accessor
  · obtain ⟨z, rfl⟩ := eq_accessor_of_kind hkind
    rw [rename]
    split <;> rfl
  · rw [rename_eq_mapOperands hkind, kind_mapOperands]

/-! ## What renaming does -/

/-- **Renaming in an expression is setting the name** to the value of the other one. -/
theorem eval_rename (m : Memory) (x y : String) (e : Expression) :
    (e.rename x y).1.eval m = e.eval (m.set x (m.get y)) := by
  induction e using operandInduction with
  | step e ih =>
    by_cases hkind : e.kind = .accessor
    · obtain ⟨z, rfl⟩ := eq_accessor_of_kind hkind
      rw [rename, eval, Memory.get_set]
      split <;> rfl
    · rw [rename_eq_mapOperands hkind]
      exact eval_mapOperands hkind ih

/-- **Renaming reports whether it met the name**, whatever replaces it. -/
theorem snd_rename (x y : String) (e : Expression) : (e.rename x y).2 = e.mentions x := by
  induction e using operandInduction with
  | step e ih =>
    by_cases hkind : e.kind = .accessor
    · obtain ⟨z, rfl⟩ := eq_accessor_of_kind hkind
      rw [rename, mentions]
      split
      · next heq => exact (beq_iff_eq.mpr heq).symm
      · next hne => exact (beq_eq_false_iff_ne.mpr hne).symm
    · rw [rename_eq_mapOperands hkind, mentions_eq_any hkind]
      rw [Bool.eq_iff_iff, List.any_eq_true, List.any_eq_true]
      exact exists_congr fun o => and_congr_right fun ho => by rw [ih o ho]

/-- **What does not mention the name** is left as it is. -/
theorem rename_eq_self (h : e.mentions x = false) (y : String) : (e.rename x y).1 = e := by
  induction e using operandInduction with
  | step e ih =>
    by_cases hkind : e.kind = .accessor
    · obtain ⟨z, rfl⟩ := eq_accessor_of_kind hkind
      rw [mentions, beq_eq_false_iff_ne] at h
      rw [rename, if_neg h]
    · rw [mentions_eq_any hkind, List.any_eq_false] at h
      rw [rename_eq_mapOperands hkind]
      exact mapOperands_eq_self fun o ho => ih o ho (Bool.eq_false_iff.mpr (h o ho))

/-- **The names after renaming**: those there were but for `x`, and `y` in its place. -/
theorem mentions_rename_iff (x y z : String) (e : Expression) :
    (e.rename x y).1.mentions z = true ↔
      (z ≠ x ∧ e.mentions z = true) ∨ (z = y ∧ e.mentions x = true) := by
  induction e using operandInduction with
  | step e ih =>
    by_cases hkind : e.kind = .accessor
    · obtain ⟨w, rfl⟩ := eq_accessor_of_kind hkind
      rw [rename]
      split
      · next heq =>
        subst heq
        simp only [mentions, beq_iff_eq]
        grind
      · next hne =>
        simp only [mentions, beq_iff_eq]
        grind
    · have hrenamed : (e.rename x y).1.kind ≠ .accessor := by rwa [kind_rename]
      rw [mentions_eq_any hrenamed, mentions_eq_any hkind, mentions_eq_any hkind,
        rename_eq_mapOperands hkind, operands_mapOperands, List.any_map]
      simp only [List.any_eq_true, Function.comp_apply]
      constructor
      · rintro ⟨o, ho, hz⟩
        exact ((ih o ho).mp hz).imp (fun h => ⟨h.1, o, ho, h.2⟩) fun h => ⟨h.1, o, ho, h.2⟩
      · rintro (⟨hzx, o, ho, hz⟩ | ⟨hzy, o, ho, hx⟩)
        · exact ⟨o, ho, (ih o ho).mpr (.inl ⟨hzx, hz⟩)⟩
        · exact ⟨o, ho, (ih o ho).mpr (.inr ⟨hzy, hx⟩)⟩

/-- **Renaming means setting a name.** In every memory the renamed expression has the
value, or the failure, that the expression has where `x` is set to the value of `y`. The
report says whether `x` was mentioned, and if it was not, nothing was changed. Renamed to
another name `x` is gone, `y` is mentioned if one of the two was, and any other name is
if it was before. -/
theorem rename_means_set (e : Expression) (x y : String) :
    (∀ m, (e.rename x y).1.eval m = e.eval (m.set x (m.get y))) ∧
    (e.rename x y).2 = e.mentions x ∧
    ((e.rename x y).2 = false → (e.rename x y).1 = e) ∧
    (y ≠ x →
      (e.rename x y).1.mentions x = false ∧
      (e.rename x y).1.mentions y = (e.mentions x || e.mentions y) ∧
      ∀ z, z ≠ x → z ≠ y → (e.rename x y).1.mentions z = e.mentions z) := by
  refine ⟨fun m => eval_rename m x y e, snd_rename x y e, fun h => ?_, fun hyx => ⟨?_, ?_, ?_⟩⟩
  · exact rename_eq_self ((snd_rename x y e).symm.trans h) y
  · refine Bool.eq_false_iff.mpr fun h => ?_
    rcases (mentions_rename_iff x y x e).mp h with ⟨hne, -⟩ | ⟨heq, -⟩
    · exact hne rfl
    · exact hyx heq.symm
  · rw [Bool.eq_iff_iff, mentions_rename_iff, Bool.or_eq_true, or_comm]
    simp [hyx]
  · intro z hzx hzy
    rw [Bool.eq_iff_iff, mentions_rename_iff]
    simp [hzx, hzy]

/-- A name at two depths, one that takes its place and was there before, and one that is
not mentioned. -/
theorem rename_means_set_nested :
    let e : Expression := .and [.present (.accessor "x"), .or [.accessor "a",
      .compare .less (.accessor "x") (.constant (.integer 3))], .accessor "y"]
    ("a" ≠ "x" ∧ (e.rename "x" "a").1.mentions "x" = false ∧
      (e.rename "x" "a").1.mentions "y" = e.mentions "y") ∧
    (e.rename "z" "a").2 = false ∧ (e.rename "z" "a").1 = e := by
  intro e
  obtain ⟨-, -, -, hnames⟩ := rename_means_set e "x" "a"
  obtain ⟨-, -, hself, -⟩ := rename_means_set e "z" "a"
  obtain ⟨hgone, -, hothers⟩ := hnames (by decide)
  exact ⟨⟨by decide, hgone, hothers "y" (by decide) (by decide)⟩, by decide, hself (by decide)⟩

end Expression

end Specificity
