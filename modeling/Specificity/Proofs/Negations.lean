import Specificity.Proofs.NormalForm
import Specificity.Proofs.Renaming

/-!
# Where negations end

Pushing negations down leaves them only where they can go no further: above a name, a
test for a value, or a constant that is no truth value (`Expression.staysNegated`). The
places that count are those that an expression *exposes*, which are reached from the top
through negations, conjunctions, disjunctions and markers. Below a test for a value and
below a comparison stand values rather than conditions; whatever is negated there is left
as it is.

So the expressions whose exposed negations have all ended are the normal forms, and they
are just the expressions that pushing down leaves as they are
(`Expression.negationNormal_eq_self_iff`). In particular a normal form is its own normal
form.
-/

namespace Specificity

namespace Expression

variable {e f : Expression}

/-! ## Exposed parts -/

/-- Does the normal form go on to the operands, as conditions of their own? -/
def passesOn : Expression → Bool
  | not _ | and _ | or _ | optional _ | ignore _ => true
  | constant _ | accessor _ | present _ | compare _ _ _ => false

/-- **What an expression exposes**: itself and, through negations, conjunctions,
disjunctions and markers, what its operands expose. -/
inductive Exposes : Expression → Expression → Prop where
  /-- An expression exposes itself. -/
  | self (e : Expression) : Exposes e e
  /-- It exposes what an operand exposes that it passes on to. -/
  | operand {e o f : Expression} (hpasses : e.passesOn = true) (ho : o ∈ e.operands)
      (hf : Exposes o f) : Exposes e f

/-- Does a negation end above the expression? -/
def staysNegated : Expression → Bool
  | accessor _ | present _ => true
  | constant v => v.asBool?.isNone
  | _ => false

/-- **All exposed negations have ended.** -/
def NegationsEnd (e : Expression) : Prop := ∀ f, e.Exposes (not f) → f.staysNegated = true

/-- Negations have ended in an expression if it is none that could go further, and they
have in the operands that it passes on to. -/
theorem negationsEnd_iff (e : Expression) :
    e.NegationsEnd ↔ (∀ f, e = not f → f.staysNegated = true) ∧
      (e.passesOn = true → ∀ o ∈ e.operands, o.NegationsEnd) := by
  constructor
  · intro h
    refine ⟨fun f he => h f (he ▸ .self e), fun hpasses o ho f hf => h f (.operand hpasses ho hf)⟩
  · rintro ⟨hself, hoperands⟩ f hf
    generalize hnot : not f = g at hf
    cases hf with
    | self => exact hself f hnot.symm
    | operand hpasses ho hf => exact hoperands hpasses _ ho f (hnot ▸ hf)

/-- What is no negation and does not pass on has none to end. -/
theorem negationsEnd_of_leaf (hnot : ∀ f, e ≠ not f) (hpasses : e.passesOn = false) :
    e.NegationsEnd :=
  (negationsEnd_iff e).mpr ⟨fun f he => absurd he (hnot f), fun h => by simp [hpasses] at h⟩

/-- What is no negation has them ended as soon as its operands have. -/
theorem negationsEnd_of_operands (hnot : ∀ f, e ≠ not f) (h : ∀ o ∈ e.operands, o.NegationsEnd) :
    e.NegationsEnd :=
  (negationsEnd_iff e).mpr ⟨fun f he => absurd he (hnot f), fun _ => h⟩

/-- A negation that ends above what passes on to nothing. -/
theorem negationsEnd_not (h : e.staysNegated = true) (he : e.NegationsEnd) :
    (not e).NegationsEnd := by
  refine (negationsEnd_iff _).mpr ⟨fun f hf => ?_, fun _ o ho => ?_⟩
  · rwa [← not.inj hf]
  · rwa [List.mem_singleton.mp ho]

/-! ## Normal forms -/

/-- **In a normal form all negations have ended**, whatever the expression was. -/
theorem inherited_negationsEnd : Inherited (fun _ => True) NegationsEnd where
  constant v := by
    have hleaf : (constant v).NegationsEnd :=
      negationsEnd_of_leaf (fun _ => Expression.noConfusion) rfl
    exact ⟨hleaf, fun hv => negationsEnd_not (by rw [staysNegated, hv]; rfl) hleaf⟩
  accessor x := by
    have hleaf : (accessor x).NegationsEnd :=
      negationsEnd_of_leaf (fun _ => Expression.noConfusion) rfl
    exact ⟨hleaf, negationsEnd_not rfl hleaf⟩
  operand _ _ := trivial
  operands es _ := by
    refine ⟨fun _ _ => trivial, fun fs hfs => ⟨?_, ?_⟩⟩ <;>
      exact negationsEnd_of_operands (fun _ => Expression.noConfusion) hfs
  optional e _ := by
    refine ⟨trivial, fun f hf => negationsEnd_of_operands (fun _ => Expression.noConfusion) ?_⟩
    exact fun o ho => List.mem_singleton.mp ho ▸ hf
  ignore negated e _ h := by
    refine negationsEnd_of_operands (fun _ => Expression.noConfusion) fun o ho => ?_
    exact List.mem_singleton.mp ho ▸ h trivial
  present e _ := by
    have hleaf : (present e).NegationsEnd :=
      negationsEnd_of_leaf (fun _ => Expression.noConfusion) rfl
    exact ⟨hleaf, negationsEnd_not rfl hleaf⟩
  compare op l r _ := by
    constructor <;> exact negationsEnd_of_leaf (fun _ => Expression.noConfusion) rfl

theorem negationsEnd_negationNormal (e : Expression) : e.negationNormal.NegationsEnd :=
  inherited_negationsEnd.nnf false e trivial

/-- A negation that has ended is left as it is. -/
theorem nnf_not_of_staysNegated (h : e.staysNegated = true) : nnf false (not e) = not e := by
  cases e with
  | constant v =>
    cases v with
    | bool b => exact absurd h Bool.false_ne_true
    | null | integer n | text s => rfl
  | accessor x | present e => rfl
  | _ => exact absurd h Bool.false_ne_true

/-- **Where all negations have ended nothing is pushed down.** -/
theorem negationNormal_of_negationsEnd (e : Expression) (h : e.NegationsEnd) :
    e.negationNormal = e := by
  unfold negationNormal
  induction e using operandInduction with
  | step e ih =>
    -- a negation is settled by what it stands above, all else by its operands
    obtain ⟨hself, hoperands⟩ := (negationsEnd_iff e).mp h
    have hkept (hpasses : e.passesOn = true) : e.mapOperands (nnf false) = e :=
      mapOperands_eq_self fun o ho => ih o ho (hoperands hpasses o ho)
    cases e with
    | constant v =>
      cases v with
      | bool b => rw [nnf, Bool.bne_false]
      | null | integer n | text s => rfl
    | not e => exact nnf_not_of_staysNegated (hself e rfl)
    | and es | or es =>
      rw [nnf, nnfAll_eq_map]
      exact hkept rfl
    | optional e | ignore e =>
      rw [nnf]
      exact hkept rfl
    | accessor x | present e | compare op l r => rfl

/-- **The normal forms are what pushing down leaves as it is.** -/
theorem negationNormal_eq_self_iff (e : Expression) : e.negationNormal = e ↔ e.NegationsEnd :=
  ⟨fun h => h ▸ negationsEnd_negationNormal e, negationNormal_of_negationsEnd e⟩

/-- **Pushing negations down reaches a normal form**: every exposed negation has ended,
pushing down once more changes nothing, a double negation does not matter, and the
expressions in which every exposed negation has ended already are left as they are. -/
theorem negationNormal_reaches_normal_form (e : Expression) :
    (∀ f, e.negationNormal.Exposes (not f) → f.staysNegated = true) ∧
      e.negationNormal.negationNormal = e.negationNormal ∧
      (not (not e)).negationNormal = e.negationNormal ∧
      (e.negationNormal = e ↔ ∀ f, e.Exposes (not f) → f.staysNegated = true) := by
  have hends := negationsEnd_negationNormal e
  refine ⟨hends, negationNormal_of_negationsEnd _ hends, ?_, negationNormal_eq_self_iff e⟩
  show nnf false (not (not e)) = nnf false e
  rw [nnf, nnf, Bool.not_not]

/-- A negated disjunction of a negated conjunction, an ignored test and a comparison whose
operand is negated: the test stays negated, and the operand is not touched. -/
theorem negationNormal_reaches_normal_form_test :
    let below : Expression := .compare .less (.not (.and [])) (.constant (.integer 3))
    let test : Expression := .present (.accessor "b")
    let e : Expression := .not (.or [.not (.and [.accessor "a", .constant (.bool true)]),
      .ignore test, below])
    e.negationNormal = .and [.and [.accessor "a", .constant (.bool true)], .ignore (.not test),
        .compare .greaterOrEqual (.not (.and [])) (.constant (.integer 3))] ∧
      e.negationNormal.Exposes (.not test) ∧ test.staysNegated = true ∧
      e.negationNormal.negationNormal = e.negationNormal ∧ e.negationNormal ≠ e := by
  intro below test e
  obtain ⟨hends, hagain, -, hsame⟩ := negationNormal_reaches_normal_form e
  have hexposed : e.negationNormal.Exposes (.not test) :=
    .operand rfl (.tail _ (.head _)) (.operand rfl (.head _) (.self _))
  refine ⟨rfl, hexposed, hends test hexposed, hagain, fun h => ?_⟩
  -- the disjunction under the negation on top could go further
  exact Bool.false_ne_true (hsame.mp h _ (.self e))

end Expression

end Specificity
