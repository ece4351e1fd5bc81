import Specificity.Proofs.Agreement
import Specificity.Proofs.Filing
import Specificity.Proofs.Matching

/-!
# When matching is silent

A clause that holds may be silent for two reasons. The tree keeps one node for
all equal clauses, made from the first of them, and this one may fail where the
others hold, since the operands of a disjunction can stand in another order and
the first one that has no value ends its evaluation. And the node may hide the
trigger behind narrower ones whose ignored conditions are not true: what is hidden
is settled when triggers come and go, without regard to ignored conditions. Neither
is meant to happen: what is matched is said to be the most specific that holds, and a
node whose triggers are withheld does not silence the nodes above it.

These are the only reasons. Whatever is visible at a node that holds, and not withheld,
is enough for something to be matched, there or further down. So a clause that is due is
missed only if the node it is filed at does not hold, for which without comparers some
comparison in the clause itself has to fail, or if the node does not show its trigger
and withholds all that it shows.
-/

namespace Specificity

/-! ## Ignored conditions -/

/-- **Is the ignored condition true**, if there is one? -/
def Clause.Granted (m : Memory) (c : Clause) : Prop := ∀ e ∈ c.ignored, e.holds m = .ok true

instance (m : Memory) (c : Clause) : Decidable (c.Granted m) :=
  inferInstanceAs (Decidable (∀ e ∈ c.ignored, e.holds m = .ok true))

namespace Trigger

variable {α : Type} {cs : Comparers} {m : Memory} {t : Trigger α} {c node : Clause}

/-- **A trigger is free at a clause** if it has it, and not withheld there by its
ignored condition. -/
def FreeAt (cs : Comparers) (m : Memory) (t : Trigger α) (c : Clause) : Prop :=
  ∃ d ∈ t.active, d.relate cs c = .equal ∧ d.Granted m

instance (cs : Comparers) (m : Memory) (t : Trigger α) (c : Clause) :
    Decidable (t.FreeAt cs m c) :=
  inferInstanceAs (Decidable (∃ d ∈ t.active, d.relate cs c = .equal ∧ d.Granted m))

/-- A trigger fires at the node of a clause at which it is free. -/
theorem firesAt_of_freeAt (hcs : cs.Lawful) (h : t.FreeAt cs m c)
    (hnode : node.relate cs c = .equal) : t.firesAt cs m node = true := by
  have hord := Clause.orderly_relate hcs
  obtain ⟨d, hd, hdc, hgranted⟩ := h
  have hequal : d.relate cs node = .equal := by
    rw [hord.eq_of_equal hdc]
    exact hord.equal_symm hnode
  refine List.any_eq_true.mpr ⟨d, hd, ?_⟩
  unfold Clause.firesAt
  rw [hequal, beq_self_eq_true, Bool.or_true, Bool.true_and]
  split
  · rfl
  · next e he =>
    rw [hgranted e he]

end Trigger

/-- **Without comparers** a clause that is equal to one that holds does so too, unless some
comparison in the latter fails. -/
theorem Clause.eval_eq_true_or_fails {m : Memory} {c d : Clause}
    (hequal : d.relate .empty c = .equal) (hc : c.eval m = .ok true) :
    d.eval m = .ok true ∨ ∃ p ∈ c.conjuncts, ∃ op l r, p.Contains (.compare op l r) ∧
      ∃ err, (Expression.compare op l r).eval m = .error err := by
  by_cases hfails : ∀ p ∈ c.conjuncts, p.unfailing m = true
  · refine .inl ((Expression.evalAll_eq_true_iff m d.conjuncts).mpr fun q hq => ?_)
    obtain ⟨p, hp, hqp⟩ := (coversAll_iff _ _ _).mp ((relate_eq_equal_iff _ _ _).mp hequal).1.1 q hq
    rw [Comparers.relate_empty, Comparer.covers_byLikeness] at hqp
    have htrue := (Expression.evalAll_eq_true_iff m c.conjuncts).mp hc p hp
    obtain ⟨v, hv, htruthy⟩ := (Expression.holds_eq_ok_iff m p true).mp htrue
    have hpq := Expression.alike_symm hqp
    have hq := Expression.unfailing_of_alike p q hpq (hfails p hp)
    exact (Expression.holds_eq_ok_iff m q true).mpr
      ⟨v, Expression.eval_of_alike_of_unfailing hpq hq hv, htruthy⟩
  · push Not at hfails
    obtain ⟨p, hp, hfails⟩ := hfails
    rw [Ne, Expression.unfailing_iff_contains] at hfails
    push Not at hfails
    obtain ⟨op, l, r, hcontains, hnone⟩ := hfails
    refine .inr ⟨p, hp, op, l, r, hcontains, ?_⟩
    cases hvalue : (Expression.compare op l r).eval m with
    | ok v => exact absurd hvalue (hnone v)
    | error err => exact ⟨err, rfl⟩

/-! ## Narrowest triggers -/

/-- **Below every member of a list there is a least one**, for a transitive relation. -/
theorem exists_least_of_mem {ι : Type} {W : ι → ι → Prop}
    (htrans : ∀ a b c, W a b → W b c → W a c) {is : List ι} {a : ι} (ha : a ∈ is)
    (hself : W a a) : ∃ b ∈ is, W b a ∧ ∀ c ∈ is, W c b → W b c := by
  have hfinite : Finite {b // b ∈ is} := is.finite_toSet
  have htransitive : IsTrans {b // b ∈ is} fun b c => W b c ∧ ¬ W c b :=
    ⟨fun b c d hbc hcd => ⟨htrans _ _ _ hbc.1 hcd.1, fun hdb => hcd.2 (htrans _ _ _ hdb hbc.1)⟩⟩
  have hirreflexive : Std.Irrefl fun b c : {b // b ∈ is} => W b c ∧ ¬ W c b :=
    ⟨fun b hbb => hbb.2 hbb.1⟩
  have hwf := Finite.wellFounded_of_trans_of_irrefl fun b c : {b // b ∈ is} => W b c ∧ ¬ W c b
  obtain ⟨b, hba, hleast⟩ := hwf.has_min {b | W b a} ⟨⟨a, ha⟩, hself⟩
  refine ⟨b, b.2, hba, fun c hc hcb => ?_⟩
  by_contra hbc
  exact hleast ⟨c, hc⟩ (htrans _ _ _ hcb hba) ⟨hcb, hbc⟩

/-- **A node shows a narrowest trigger** at most as wide as any that it carries. -/
theorem Node.Accounted.exists_least {α : Type} {cs : Comparers} {r : Register α} {n : Node}
    {u : TriggerId} (hcs : cs.Lawful) (h : n.Accounted cs r) (hu : u ∈ n.carried) :
    ∃ v ∈ n.visible, r.Within cs v u ∧ ∀ w ∈ n.carried, r.Within cs w v → r.Within cs v w := by
  have htrans : ∀ a b c, r.Within cs a b → r.Within cs b c → r.Within cs a c :=
    fun a b c hab hbc => hab.trans hcs hbc
  obtain ⟨v, hv, hvu⟩ := h.shown u hu
  obtain ⟨t, ht, -⟩ := h.has v (h.carried v hv)
  obtain ⟨b, hb, hbv, hleast⟩ := exists_least_of_mem htrans hv (Register.within_self hcs ht)
  refine ⟨b, hb, htrans _ _ _ hbv hvu, fun w hw hwb => ?_⟩
  obtain ⟨x, hx, hxw⟩ := h.shown w hw
  exact htrans _ _ _ (hleast x hx (htrans _ _ _ hxw hwb)) hxw

namespace Tree

variable {α : Type} {cs : Comparers} {opts : List Optimizer} {tree : Tree α} {m : Memory}
  {t : Trigger α} {c : Clause}

/-- **A narrowest trigger with a clause**: no other one that has the clause is
narrower. -/
structure Narrowest (tree : Tree α) (c : Clause) (t : Trigger α) : Prop where
  /-- The trigger is in the tree. -/
  live : t ∈ tree.triggers.live
  /-- It has the clause. -/
  has : t.Has tree.comparers c
  /-- What is at most as wide and has the clause too is as wide. -/
  least : ∀ u ∈ tree.triggers.live, u.Has tree.comparers c → u.Within tree.comparers t →
    t.Within tree.comparers u

/-- **A filed clause is shown by a narrowest trigger** that has it, at most as wide as
the given one. -/
theorem Accounted.exists_narrowest (hcs : cs.Lawful) (hs : tree.Sound cs opts)
    (h : tree.Accounted cs) {id : TriggerId} (ht : tree.trigger? id = some t) (hc : c ∈ t.active)
    (hsize : 0 < c.size) :
    ∃ v n, tree.store.Reachable v ∧ tree.store.get? v = some n ∧
      n.clause.relate cs c = .equal ∧ id ∈ n.carried ∧
      ∃ i ∈ n.visible, ∃ s, tree.trigger? i = some s ∧ tree.Narrowest c s ∧ s.Within cs t := by
  obtain ⟨v, n, hv, hn, hequal, hid⟩ := h.filed id t ht c hc (.inl hsize)
  have haccounted := h.nodes v hv n hn
  obtain ⟨i, hi, ⟨s, t', hget, ht', hwithin⟩, hleast⟩ := haccounted.exists_least hcs hid
  obtain rfl := Option.some.inj (ht.symm.trans ht')
  have hnarrowest : tree.Narrowest c s := {
    live := (Register.mem_live_iff _ _).mpr ⟨i, hget⟩
    has := by
      obtain ⟨s', hs', hhas⟩ := haccounted.has i (haccounted.carried i hi)
      obtain rfl := Option.some.inj (hget.symm.trans hs')
      rw [hs.comparers]
      exact hhas.of_equal hcs hequal
    least := by
      intro u hu huc huwithin
      rw [hs.comparers] at huc huwithin ⊢
      obtain ⟨j, hj⟩ := (Register.mem_live_iff _ _).mp hu
      have hcarried := h.mem_carried hcs hs hv hn hequal (.inl hsize) hj huc
      obtain ⟨s', u', hs', hu', hsu⟩ := hleast j hcarried ⟨u, s, hj, hget, huwithin⟩
      obtain rfl := Option.some.inj (hget.symm.trans hs')
      obtain rfl := Option.some.inj (hj.symm.trans hu')
      exact hsu }
  obtain ⟨x, hx, rfl⟩ := Option.map_eq_some_iff.mp hn
  exact ⟨v, x, hv, hx, hequal, hid, i, hi, s, hget, hnarrowest, hwithin⟩

/-- **A loud node is enough** for something to be matched: a foremost node stands behind
it. -/
theorem Sound.matched_ne_nil_of_loud (hcs : cs.Lawful) (h : tree.Sound cs opts)
    (honce : tree.ShowsOnce) {v : NodeId} (hloud : tree.Loud m v) : tree.matched m ≠ [] := by
  have hflat := h.flatMatch_foremost hcs honce m
  have hs := h.store.diagram
  rw [← h.comparers] at hcs hs
  obtain ⟨w, hw, -⟩ := exists_foremost hcs hs hloud
  obtain ⟨p, hp, -, j, hj, u, hu, hufires⟩ := (candidates_ne_nil_iff tree m w).mp hw.1.2
  rw [← h.id_eq hu] at hj hu
  exact List.ne_nil_of_mem ((hflat.reported u).mpr ⟨hu, w, hw, p, hp, hj, hufires⟩)

/-- Without a loud node nothing is matched. -/
theorem Sound.exists_loud (hcs : cs.Lawful) (h : tree.Sound cs opts) (honce : tree.ShowsOnce)
    (hne : tree.matched m ≠ []) : ∃ v, tree.Loud m v := by
  obtain ⟨s, hs⟩ := List.exists_mem_of_ne_nil _ hne
  obtain ⟨-, v, hforemost, -⟩ := ((h.flatMatch_foremost hcs honce m).reported s).mp hs
  exact ⟨v, hforemost.1⟩

/-- A visible trigger that fires at the node of a clause that holds is enough for
something to be matched. -/
theorem Sound.matched_ne_nil_of_fires (hcs : cs.Lawful) (h : tree.Sound cs opts)
    (honce : tree.ShowsOnce) {v : NodeId} {n : Node} {id : TriggerId}
    (hv : tree.store.Reachable v) (hn : tree.store.get? v = some n)
    (heval : n.clause.eval m = .ok true) (hid : id ∈ n.visible) (ht : tree.trigger? id = some t)
    (hfires : t.firesAt cs m n.clause = true) : tree.matched m ≠ [] := by
  rw [← h.comparers] at hfires
  exact h.matched_ne_nil_of_loud hcs honce
    ⟨hv, (candidates_ne_nil_iff tree m v).mpr ⟨n, hn, heval, id, hid, t, ht, hfires⟩⟩

/-! ## No silent miss -/

/-- A trigger is *due* if one of its active clauses has a predicate, holds, and is not
withheld by its ignored condition. -/
def Due (tree : Tree α) (m : Memory) : Prop :=
  ∃ t ∈ tree.triggers.live, ∃ c ∈ t.active, 0 < c.size ∧ c.eval m = .ok true ∧ c.Granted m

instance (tree : Tree α) (m : Memory) : Decidable (tree.Due m) :=
  inferInstanceAs (Decidable
    (∃ t ∈ tree.triggers.live, ∃ c ∈ t.active, 0 < c.size ∧ c.eval m = .ok true ∧ c.Granted m))

/-- **What is due may be missed**: behind a narrower trigger that is withheld, and at a
node whose clause was first written in an order in which it has no value. -/
theorem due_and_matched_eq_nil :
    (let tree : Tree Nat := .run .empty []
        [.add (.and [.accessor "a", .ignore (.accessor "i")]) 1 [],
          .add (.or [.accessor "a", .accessor "b"]) 2 []]
      let m := Memory.ofList [("a", .bool true)]
      Reached Fresh .empty [] tree ∧ tree.Due m ∧ tree.matched m = []) ∧
    (let below := Expression.compare .less (.accessor "x") (.constant (.integer 1))
      let tree : Tree Nat := .run .empty []
        [.add (.present (.or [below, .constant (.bool true)])) 1 [],
          .add (.present (.or [.constant (.bool true), below])) 2 []]
      let m := Memory.ofList []
      Reached Fresh .empty [] tree ∧ tree.Due m ∧ tree.matched m = []) := by
  refine ⟨⟨?_, by decide +kernel, ?_⟩, ⟨?_, by decide +kernel, ?_⟩⟩
  · exact .change (.change .empty (.add _ 1 []) (by decide)) (.add _ 2 []) (by decide +kernel)
  · exact List.isEmpty_iff.mp (by decide +kernel)
  · exact .change (.change .empty (.add _ 1 []) (by decide)) (.add _ 2 []) (by decide +kernel)
  · exact List.isEmpty_iff.mp (by decide +kernel)

/-- **The node that a clause is filed at**, and when it answers for the clause. -/
structure FiledAt (tree : Tree α) (m : Memory) (id : TriggerId) (t : Trigger α) (c : Clause)
    (n : Node) : Prop where
  /-- The node is reached, and its clause is equal. -/
  node : ∃ v, tree.store.Reachable v ∧ tree.store.get? v = some n ∧
    n.clause.relate tree.comparers c = .equal
  /-- It carries the trigger. -/
  carried : id ∈ n.carried
  /-- It shows a narrowest trigger that has the clause, at most as wide as the given one. -/
  shown : ∃ i ∈ n.visible, ∃ s, tree.trigger? i = some s ∧ tree.Narrowest c s ∧
    s.Within tree.comparers t
  /-- If it holds, any trigger that it shows and that is free there is enough. -/
  answers : n.clause.eval m = .ok true →
    (∃ i ∈ n.visible, ∃ s, tree.trigger? i = some s ∧ s.FreeAt tree.comparers m c) →
    tree.matched m ≠ []
  /-- If the clause is due and nothing is matched, the node does not hold, or it does not
  show the trigger and withholds those that it shows. -/
  missed : c.eval m = .ok true → c.Granted m → tree.matched m = [] →
    n.clause.eval m ≠ .ok true ∨ id ∉ n.visible ∧
      ∀ i ∈ n.visible, ∀ s, tree.trigger? i = some s → ¬ s.FreeAt tree.comparers m c
  /-- Without comparers the node holds with the clause, unless a comparison in it fails. -/
  holds : tree.comparers = .empty → c.eval m = .ok true →
    n.clause.eval m = .ok true ∨ ∃ p ∈ c.conjuncts, ∃ op l r, p.Contains (.compare op l r) ∧
      ∃ err, (Expression.compare op l r).eval m = .error err

/-- **A clause of a trigger has its node**, which answers for it unless something silences it
there. -/
theorem Reached.exists_filedAt [DecidableEq α] (hcs : cs.Lawful) (h : Reached Fresh cs opts tree)
    (m : Memory) {id : TriggerId} (ht : tree.trigger? id = some t) (hc : c ∈ t.active)
    (hsize : 0 < c.size) : ∃ n, tree.FiledAt m id t c n := by
  have hsound := h.sound hcs
  obtain ⟨v, n, hv, hn, hequal, hid, hshown⟩ :=
    (h.accounted hcs).exists_narrowest hcs hsound ht hc hsize
  have hanswers : n.clause.eval m = .ok true →
      (∃ i ∈ n.visible, ∃ s, tree.trigger? i = some s ∧ s.FreeAt cs m c) →
      tree.matched m ≠ [] := by
    rintro heval ⟨i, hi, s, hs, hfree⟩
    exact hsound.matched_ne_nil_of_fires hcs (h.showsOnce hcs) hv hn heval hi hs
      (Trigger.firesAt_of_freeAt hcs hfree hequal)
  have hself : c.relate cs c = .equal := Clause.relate_self hcs c
  rw [← hsound.comparers] at hequal hshown hanswers hself
  refine ⟨n, ⟨v, hv, hn, hequal⟩, hid, hshown, hanswers, fun _ hgranted hnil => ?_, fun hempty => ?_⟩
  · by_cases heval : n.clause.eval m = .ok true
    · have hnone : ∀ i ∈ n.visible, ∀ s, tree.trigger? i = some s →
          ¬ s.FreeAt tree.comparers m c := fun i hi s hs hfree =>
        hanswers heval ⟨i, hi, s, hs, hfree⟩ hnil
      exact .inr ⟨fun hvisible => hnone id hvisible t ht ⟨c, hc, hself, hgranted⟩, hnone⟩
    · exact .inl heval
  · rw [hempty] at hequal
    exact Clause.eval_eq_true_or_fails hequal

/-- **Something is matched** exactly if a node that holds shows a trigger that fires there.
So a clause that is due is missed only for what its own node lacks. -/
theorem matched_ne_nil_iff_fires [DecidableEq α] (hcs : cs.Lawful)
    (h : Reached Fresh cs opts tree) (m : Memory) :
    (tree.matched m ≠ [] ↔ ∃ v n, tree.store.Reachable v ∧ tree.store.get? v = some n ∧
      n.clause.eval m = .ok true ∧
        ∃ i ∈ n.visible, ∃ s, tree.trigger? i = some s ∧ s.firesAt cs m n.clause = true) ∧
    ∀ id t, tree.trigger? id = some t → ∀ c ∈ t.active, 0 < c.size →
      ∃ n, tree.FiledAt m id t c n := by
  have hsound := h.sound hcs
  have honce := h.showsOnce hcs
  refine ⟨⟨fun hne => ?_, ?_⟩, fun id t ht c hc hsize => h.exists_filedAt hcs m ht hc hsize⟩
  · obtain ⟨v, hv, hloud⟩ := hsound.exists_loud hcs honce hne
    rw [candidates_ne_nil_iff, hsound.comparers] at hloud
    obtain ⟨n, hn, hanswers⟩ := hloud
    exact ⟨v, n, hv, hn, hanswers⟩
  · rintro ⟨v, n, hv, hn, heval, i, hi, s, hs, hfires⟩
    exact hsound.matched_ne_nil_of_fires hcs honce hv hn heval hi hs hfires

/-- A trigger that is free is matched although its equal, which the node shows as well, is
withheld. -/
theorem matched_ne_nil_iff_fires_beside :
    let tree : Tree Nat := .run .empty []
      [.add (.accessor "a") 1 [], .add (.and [.accessor "a", .ignore (.accessor "i")]) 2 []]
    let m := Memory.ofList [("a", .bool true)]
    let c := Clause.ofConjuncts [.accessor "a"]
    tree.Due m ∧ (∃ s ∈ tree.triggers.live, s.Has .empty c ∧ ¬ s.FreeAt .empty m c) ∧
      (∃ t n, tree.trigger? ⟨0⟩ = some t ∧ tree.FiledAt m ⟨0⟩ t c n) ∧ tree.matched m ≠ [] := by
  intro tree m c
  have hreached : Reached Fresh .empty [] tree :=
    .change (.change .empty (.add _ 1 []) (by decide)) (.add _ 2 []) (by decide +kernel)
  have hwithheld : ∃ s ∈ tree.triggers.live,
      (∃ d ∈ s.active, d.relate .empty c = .equal) ∧ ¬ s.FreeAt .empty m c := by decide +kernel
  have hfirst : (tree.trigger? ⟨0⟩).any fun t => decide (c ∈ t.active) := by decide +kernel
  have hloud : tree.preorder.any fun v => (tree.store.get? v).any fun n =>
      decide (n.clause.eval m = .ok true) && n.visible.any fun i =>
        (tree.trigger? i).any fun s => s.firesAt .empty m n.clause := by decide +kernel
  simp only [List.any_eq_true, Option.any_eq_true, Bool.and_eq_true, decide_eq_true_eq]
    at hfirst hloud
  obtain ⟨t, ht, hc⟩ := hfirst
  obtain ⟨v, hv, n, hn, heval, i, hi, s, hs, hfires⟩ := hloud
  obtain ⟨hanswered, hfiled⟩ := matched_ne_nil_iff_fires Comparers.lawful_empty hreached m
  obtain ⟨n', hn'⟩ := hfiled ⟨0⟩ t ht c hc (by decide)
  refine ⟨by decide +kernel, hwithheld, ⟨t, n', ht, hn'⟩, hanswered.mpr ?_⟩
  exact ⟨v, n, (tree.store.mem_preorder_iff v).mp hv, hn, heval, i, hi, s, hs, hfires⟩

end Tree

end Specificity
