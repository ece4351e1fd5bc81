import Mathlib.Data.List.Perm.Subperm
import Specificity.Clause.Relation
import Specificity.Proofs.Judgement

/-!
# The order of clauses

Under a lawful registry the judgement on clauses is orderly, and every clause
is equal to itself. Both are read off one description of "equal or wider",
`Clause.Wider`: every predicate is at least as wide as some predicate of the
other clause, and the other clause is longer, or it is as long and – unless it
is strictly narrower already – has all its bindings here.

That the judgement is turned round by exchanging the clauses holds for every
registry, whatever its comparers answer.
-/

namespace Specificity

/-! ## Entries of a map from names -/

namespace NameMap

variable {α : Type}

/-- In an ascending list of entries, an entry is what its name is looked up as. -/
theorem mem_iff_lookup {es : List (String × α)} (h : es.Pairwise fun a b => a.1 < b.1)
    (name : String) (value : α) : (name, value) ∈ es ↔ es.lookup name = some value := by
  induction es with
  | nil => simp
  | cons e es ih =>
    obtain ⟨hhead, htail⟩ := List.pairwise_cons.mp h
    rw [lookup_cons_eq_ite, List.mem_cons, ih htail]
    by_cases hname : name = e.1
    · rw [if_pos hname]
      constructor
      · rintro (rfl | hlookup)
        · rfl
        · have hmem := (ih htail).mpr hlookup
          have hlt : e.1 < name := hhead _ hmem
          exact absurd (hname ▸ hlt) (String.lt_irrefl _)
      · intro hvalue
        exact .inl (Prod.ext hname (Option.some.inj hvalue).symm)
    · rw [if_neg hname]
      constructor
      · rintro (rfl | hlookup)
        · exact absurd rfl hname
        · exact hlookup
      · exact .inr

/-- **An entry is what its name is looked up as.** -/
theorem mem_entries_iff (m : NameMap α) (name : String) (value : α) :
    (name, value) ∈ m.entries ↔ m.get? name = some value :=
  mem_iff_lookup m.sorted name value

theorem nodup_entries (m : NameMap α) : m.entries.Nodup := by
  refine List.Pairwise.imp ?_ m.sorted
  intro a b hlt heq
  exact String.lt_irrefl a.1 (heq ▸ hlt)

theorem size_le_of_subset {m n : NameMap α} (h : m.entries ⊆ n.entries) : m.size ≤ n.size :=
  (m.nodup_entries.subperm h).length_le

/-- **Counting entries**: a map within another one that is no larger is all of it. -/
theorem subset_of_subset_of_size_le {m n : NameMap α} (h : m.entries ⊆ n.entries)
    (hsize : n.size ≤ m.size) : n.entries ⊆ m.entries :=
  ((m.nodup_entries.subperm h).perm_of_length_le hsize).symm.subset

end NameMap

namespace Clause

variable {cs : Comparers} {c d e : Clause}

/-! ## Bindings -/

theorem boundWithin_iff (c d : Clause) :
    c.boundWithin d = true ↔ c.bindings.entries ⊆ d.bindings.entries := by
  unfold boundWithin
  rw [List.all_eq_true]
  constructor
  · intro h b hb
    exact (d.bindings.mem_entries_iff b.1 b.2).mpr (by simpa using h b hb)
  · intro h b hb
    have hget := (d.bindings.mem_entries_iff b.1 b.2).mp (h hb)
    simp [hget]

/-- By bindings, a clause is at most as wide if its bindings are among the
other's. -/
theorem isCovered_relateBindings (c d : Clause) :
    (relateBindings c d).isCovered = c.boundWithin d := by
  rw [Bool.eq_iff_iff, boundWithin_iff]
  unfold relateBindings
  split
  · next hlt =>
    have hnot : ¬ c.bindings.entries ⊆ d.bindings.entries := fun h =>
      absurd (NameMap.size_le_of_subset h) (Nat.not_le.mpr hlt)
    split <;> simp [hnot]
  · split
    · next hwithin =>
      rw [boundWithin_iff] at hwithin
      split <;> simp [hwithin]
    · next hwithin =>
      rw [boundWithin_iff] at hwithin
      simp [hwithin]

/-- By bindings, a clause is at least as wide if the other's bindings are among
its own. -/
theorem covers_relateBindings (c d : Clause) :
    (relateBindings c d).covers = d.boundWithin c := by
  rw [Bool.eq_iff_iff]
  unfold relateBindings
  split
  · split <;> simp_all
  · next hge =>
    have hwiden (h : d.boundWithin c = true) :
        c.boundWithin d = true ∧ ¬ c.bindings.size < d.bindings.size := by
      rw [boundWithin_iff] at h ⊢
      have hle := NameMap.size_le_of_subset h
      exact ⟨NameMap.subset_of_subset_of_size_le h (Nat.not_lt.mp hge), Nat.not_lt.mpr hle⟩
    split
    · next hwithin =>
      split
      · next hlt =>
        have hnot : ¬ d.boundWithin c = true := fun h => (hwiden h).2 hlt
        simp [hnot]
      · next hnlt =>
        have hback : d.boundWithin c = true := by
          rw [boundWithin_iff] at hwithin ⊢
          exact NameMap.subset_of_subset_of_size_le hwithin (Nat.not_lt.mp hnlt)
        simp [hback]
    · next hwithin =>
      have hnot : ¬ d.boundWithin c = true := fun h => hwithin (hwiden h).1
      simp [hnot]

/-! ## Equal or wider -/

/-- **Equal or wider**: each predicate of `c` is at least as wide as one of `d`;
and `d` is longer, or as long and, if it is no narrower, bound within `c`. -/
def Wider (cs : Comparers) (c d : Clause) : Prop :=
  coversAll cs c d = true ∧
    (c.size < d.size ∨
      c.size = d.size ∧ (coversAll cs d c = true → d.boundWithin c = true))

theorem covers_relateShorter (h : c.size ≤ d.size) :
    (relateShorter cs c d).covers = true ↔ Wider cs c d := by
  unfold relateShorter relatePredicates Wider
  by_cases hsize : c.size = d.size
  · rw [if_pos hsize]
    cases coversAll cs c d <;> cases coversAll cs d c <;>
      simp [covers_relateBindings, hsize]
  · have hlt : c.size < d.size := by omega
    rw [if_neg hsize]
    cases coversAll cs c d <;> simp [hlt]

theorem isCovered_relateShorter (h : c.size ≤ d.size) :
    (relateShorter cs c d).isCovered = true ↔ Wider cs d c := by
  unfold relateShorter relatePredicates Wider
  by_cases hsize : c.size = d.size
  · rw [if_pos hsize]
    cases coversAll cs c d <;> cases coversAll cs d c <;>
      simp [isCovered_relateBindings, hsize]
  · have hlt : ¬ d.size < c.size := by omega
    rw [if_neg hsize]
    cases coversAll cs c d <;> simp [hlt, Ne.symm hsize]

/-- A clause is judged at least as wide exactly if it is equal or wider. -/
theorem covers_relate (cs : Comparers) (c d : Clause) :
    (c.relate cs d).covers = true ↔ Wider cs c d := by
  unfold relate
  split
  · next hlt =>
    rw [Relationship.covers_swap, isCovered_relateShorter (Nat.le_of_lt hlt)]
  · next hge => exact covers_relateShorter (Nat.not_lt.mp hge)

/-- A clause is judged at most as wide exactly if the other one is equal or wider. -/
theorem isCovered_relate (cs : Comparers) (c d : Clause) :
    (c.relate cs d).isCovered = true ↔ Wider cs d c := by
  unfold relate
  split
  · next hlt =>
    rw [Relationship.isCovered_swap, covers_relateShorter (Nat.le_of_lt hlt)]
  · next hge => exact isCovered_relateShorter (Nat.not_lt.mp hge)

/-- **Exchanging two clauses turns their relationship round**, under every
registry. -/
theorem relate_swap (cs : Comparers) (c d : Clause) :
    d.relate cs c = (c.relate cs d).swap := by
  refine Relationship.eq_of_halves ?_ ?_
  · rw [Relationship.isCovered_swap, Bool.eq_iff_iff, isCovered_relate, covers_relate]
  · rw [Relationship.covers_swap, Bool.eq_iff_iff, isCovered_relate, covers_relate]

/-! ## The order -/

/-- Each predicate of `c` is at least as wide as one of `d`. -/
theorem coversAll_iff (cs : Comparers) (c d : Clause) :
    coversAll cs c d = true ↔
      ∀ p ∈ c.conjuncts, ∃ q ∈ d.conjuncts, (cs.relate p q).covers = true := by
  unfold coversAll
  simp only [List.all_eq_true, List.any_eq_true]

theorem coversAll_self (hcs : cs.Lawful) (c : Clause) : coversAll cs c c = true := by
  rw [coversAll_iff]
  intro p hp
  exact ⟨p, hp, Relationship.covers_of_equal (hcs.self p)⟩

theorem coversAll_trans (hcs : cs.Lawful) (hcd : coversAll cs c d = true)
    (hde : coversAll cs d e = true) : coversAll cs c e = true := by
  rw [coversAll_iff] at *
  intro p hp
  obtain ⟨q, hq, hpq⟩ := hcd p hp
  obtain ⟨r, hr, hqr⟩ := hde q hq
  exact ⟨r, hr, hcs.trans p q r hpq hqr⟩

theorem wider_self (hcs : cs.Lawful) (c : Clause) : Wider cs c c := by
  refine ⟨coversAll_self hcs c, .inr ⟨rfl, fun _ => ?_⟩⟩
  rw [boundWithin_iff]
  exact List.Subset.refl _

/-- **Equal or wider is transitive.** Only clauses of one length need a word:
if the narrowest covers the widest, all three cover each other. -/
theorem wider_trans (hcs : cs.Lawful) (hcd : Wider cs c d) (hde : Wider cs d e) :
    Wider cs c e := by
  obtain ⟨hcover, hsize⟩ := hcd
  obtain ⟨hcover', hsize'⟩ := hde
  refine ⟨coversAll_trans hcs hcover hcover', ?_⟩
  rcases hsize with hlt | ⟨heq, hbound⟩
  · left
    rcases hsize' with hlt' | ⟨heq', -⟩ <;> omega
  · rcases hsize' with hlt' | ⟨heq', hbound'⟩
    · left
      omega
    · refine .inr ⟨heq.trans heq', fun hback => ?_⟩
      have hdc := hbound (coversAll_trans hcs hcover' hback)
      have hed := hbound' (coversAll_trans hcs hback hcover)
      rw [boundWithin_iff] at *
      exact List.Subset.trans hed hdc

/-- **Clauses are judged in an orderly way** under a lawful registry. -/
theorem orderly_relate (hcs : cs.Lawful) : Relationship.Orderly (relate cs) where
  swap c d := relate_swap cs c d
  trans c d e hcd hde := by
    rw [covers_relate] at *
    exact wider_trans hcs hcd hde

/-- **Every clause is equal to itself** under a lawful registry. -/
theorem relate_self (hcs : cs.Lawful) (c : Clause) : c.relate cs c = .equal := by
  rw [Relationship.eq_equal_iff, isCovered_relate, covers_relate]
  exact ⟨wider_self hcs c, wider_self hcs c⟩

/-- Alike predicates make clauses of one length and bindings equal. -/
theorem relate_eq_equal_iff (cs : Comparers) (c d : Clause) :
    c.relate cs d = .equal ↔ Wider cs c d ∧ Wider cs d c := by
  rw [Relationship.eq_equal_iff, isCovered_relate, covers_relate]
  exact And.comm

/-! ## The empty clause -/

/-- **Nothing is wider than the empty clause but a clause of bindings alone**: a
clause with predicates is narrower. -/
theorem relate_empty_of_pos (cs : Comparers) (h : 0 < c.size) :
    c.relate cs empty = .specializes := by
  have hwider : Wider cs empty c := ⟨rfl, .inl h⟩
  have hnot : ¬ Wider cs c empty := fun hback => by
    rcases hback.2 with hlt | ⟨heq, -⟩
    · exact absurd hlt (Nat.not_lt_zero _)
    · exact absurd heq (Nat.ne_of_gt h)
  rw [Relationship.eq_specializes_iff, isCovered_relate, covers_relate]
  exact ⟨hwider, hnot⟩

/-- A clause without predicates is at least as wide as the empty clause. -/
theorem covers_relate_empty (cs : Comparers) (h : c.size = 0) :
    (c.relate cs empty).covers = true := by
  have hnil : c.conjuncts = [] := List.eq_nil_of_length_eq_zero h
  rw [covers_relate]
  refine ⟨by simp [coversAll, hnil], .inr ⟨h, fun _ => ?_⟩⟩
  rw [boundWithin_iff]
  exact List.nil_subset _

/-- **A clause fits below the root** if it has a predicate or nothing is bound in it. -/
def Fits (c : Clause) : Prop := 0 < c.size ∨ c.bindings.size = 0

instance (c : Clause) : Decidable c.Fits :=
  inferInstanceAs (Decidable (0 < c.size ∨ c.bindings.size = 0))

/-- **What fits below the root** is at most as wide as the empty clause, under every
registry. -/
theorem fits_iff (cs : Comparers) (c : Clause) :
    c.Fits ↔ (c.relate cs empty).isCovered = true := by
  have hbound : c.boundWithin empty = true ↔ c.bindings.size = 0 := by
    rw [boundWithin_iff]
    exact List.subset_nil.trans List.length_eq_zero_iff.symm
  rw [isCovered_relate]
  unfold Fits Wider
  rw [hbound]
  rcases Nat.eq_zero_or_pos c.size with hzero | hpos
  · have hnil : c.conjuncts = [] := List.eq_nil_of_length_eq_zero hzero
    have hcovers : coversAll cs c empty = true := by
      rw [coversAll, hnil]
      rfl
    constructor
    · rintro (hpos | hnone)
      · exact absurd hzero (Nat.ne_of_gt hpos)
      · exact ⟨rfl, .inr ⟨hzero.symm, fun _ => hnone⟩⟩
    · rintro ⟨-, hlt | ⟨-, hnone⟩⟩
      · exact .inl hlt
      · exact .inr (hnone hcovers)
  · exact ⟨fun _ => ⟨rfl, .inl hpos⟩, fun _ => .inl hpos⟩

/-- **A clause of bindings alone** is wider than the empty clause. -/
theorem relate_empty_of_not_fits (cs : Comparers) (h : ¬ c.Fits) :
    c.relate cs empty = .generalizes := by
  have hzero : c.size = 0 := Nat.eq_zero_of_not_pos fun hpos => h (.inl hpos)
  refine ((Relationship.covers_iff _).mp (covers_relate_empty cs hzero)).resolve_left fun heq => ?_
  exact h ((fits_iff cs c).mpr (Relationship.isCovered_of_equal heq))

/-- What is at most as wide as a clause that fits below the root does so too. -/
theorem Fits.of_isCovered (hcs : cs.Lawful) (hd : d.Fits)
    (h : (c.relate cs d).isCovered = true) : c.Fits := by
  rw [fits_iff cs] at hd ⊢
  exact (orderly_relate hcs).isCovered_trans h hd

end Clause

end Specificity
