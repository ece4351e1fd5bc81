import Mathlib.Data.List.Forall2
import Specificity.Workload.Source

/-!
# What draws yield

A draw *yields* values with a property if it does so from every stream of words and every
position in it (`Draw.Yields`), which is to say whatever words come up. Nothing is said
about how often a value is drawn. The property of a composed draw is put together from
those of its parts, one rule for each way of composing them, so that no proof about a
draw mentions words or positions.
-/

namespace Specificity

namespace Draw

variable {β γ ι : Type} {d : Draw β} {P Q : β → Prop}

/-- **Whatever words come up**, the value that is drawn has the property. -/
def Yields (d : Draw β) (P : β → Prop) : Prop := ∀ s, P (d s).1

/-! ## Composing draws -/

theorem Yields.mono (h : Yields d P) (hPQ : ∀ b, P b → Q b) : Yields d Q := fun s => hPQ _ (h s)

/-- Two properties at once. -/
theorem Yields.and (hP : Yields d P) (hQ : Yields d Q) : Yields d fun b => P b ∧ Q b :=
  fun s => ⟨hP s, hQ s⟩

theorem yields_pure {b : β} (h : P b) : Yields (pure b) P := fun _ => h

/-- **One draw after another**: the second may rely on what the first one yields. -/
theorem Yields.bind {f : β → Draw γ} {R : γ → Prop} (hd : Yields d P)
    (hf : ∀ b, P b → Yields (f b) R) : Yields (d >>= f) R := fun s => hf _ (hd s) (d s).2

/-- A draw of which nothing is asked. -/
theorem yields_true (d : Draw β) : Yields d fun _ => True := fun _ => trivial

/-- **A draw for each member of a list**: each value has the property that its member
asks for. -/
theorem yields_mapM {f : ι → Draw β} {R : ι → β → Prop} {is : List ι}
    (h : ∀ i ∈ is, Yields (f i) (R i)) : Yields (is.mapM f) (List.Forall₂ R is) := by
  induction is with
  | nil => exact yields_pure .nil
  | cons i is ih =>
    rw [List.forall_mem_cons] at h
    rw [List.mapM_cons]
    exact h.1.bind fun b hb => (ih h.2).bind fun bs hbs => yields_pure (.cons hb hbs)

/-- The same draw several times: all values have its property. -/
theorem yields_replicate {f : Nat → Draw β} (h : ∀ i, Yields (f i) P) (n : Nat) :
    Yields ((List.range n).mapM f) fun bs => ∀ b ∈ bs, P b := by
  refine (yields_mapM (R := fun _ => P) fun i _ => h i).mono fun bs hbs b hb => ?_
  generalize List.range n = is at hbs
  induction hbs with
  | nil => exact absurd hb List.not_mem_nil
  | cons hhead _ ih => exact (List.mem_cons.mp hb).elim (fun heq => heq ▸ hhead) ih

/-- As many values come up as were asked for. -/
theorem yields_length (f : Nat → Draw β) (n : Nat) :
    Yields ((List.range n).mapM f) fun bs => bs.length = n := by
  refine (yields_mapM (R := fun _ _ => True) fun i _ => yields_true (f i)).mono fun bs hbs => ?_
  rw [← hbs.length_eq, List.length_range]

/-- **A draw that is changed again and again** keeps what each change keeps. -/
theorem yields_foldlM {f : β → ι → Draw β} {is : List ι} {b : β} (hb : P b)
    (hf : ∀ b i, P b → Yields (f b i) P) : Yields (is.foldlM f b) P := by
  induction is generalizing b with
  | nil => exact yields_pure hb
  | cons i is ih =>
    rw [List.foldlM_cons]
    exact (hf b i hb).bind fun c hc => ih hc

/-! ## Single draws -/

/-- **A number below `n`**, unless `n` is zero. -/
theorem yields_below (n : Nat) : Yields (below n) fun i => i < max n 1 :=
  (yields_true word).bind fun w _ =>
    yields_pure (Nat.mod_lt w.toNat (Nat.le_max_right n 1))

theorem yields_between (least limit : Nat) : Yields (between least limit) fun i => least ≤ i :=
  (yields_below _).bind fun _ _ => yields_pure (Nat.le_add_right _ _)

/-- **What is drawn from a list** is a member. -/
theorem yields_oneOf (pool : List β) : Yields (oneOf pool) fun o => ∀ b ∈ o, b ∈ pool := by
  unfold oneOf
  split
  · exact yields_pure fun b hb => absurd hb.symm (Option.some_ne_none b)
  · exact (yields_below _).bind fun i _ => yields_pure fun b hb => List.mem_of_getElem? hb

/-- **Several members of a list** are members, and there is one if one was asked for and the
list has one. -/
theorem yields_several (count : Nat) (pool : List β) :
    Yields (several count pool) fun bs =>
      bs ⊆ pool ∧ (0 < count → pool ≠ [] → bs ≠ []) := by
  induction count generalizing pool with
  | zero => exact yields_pure ⟨List.nil_subset _, fun h => absurd h (Nat.lt_irrefl 0)⟩
  | succ count ih =>
    rw [several]
    split
    · next hempty =>
      exact yields_pure ⟨List.nil_subset _, fun _ hne => absurd (List.isEmpty_iff.mp hempty) hne⟩
    · next hne =>
      refine (yields_below _).bind fun i hi => (ih _).bind fun rest hrest => yields_pure ?_
      have hlength : 0 < pool.length := List.length_pos_iff.mpr (mt List.isEmpty_iff.mpr hne)
      have hget : pool[i]? = some pool[i] := List.getElem?_eq_getElem (by omega)
      rw [hget]
      constructor
      · refine List.append_subset.mpr ⟨?_, fun b hb => List.mem_of_mem_eraseIdx (hrest.1 hb)⟩
        simp
      · exact fun _ _ => List.cons_ne_nil _ _

end Draw

end Specificity
