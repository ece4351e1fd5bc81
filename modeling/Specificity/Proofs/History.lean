import Specificity.Proofs.Store.Upkeep
import Specificity.Tree

/-!
# Histories of a tree

A tree is *reached* if additions and removals lead to it from the tree without
triggers. What holds of every reached tree is shown change by change, and a
change node by node: `Store.Inserted` and `Store.Withdrawn` say where the nodes
of a changed store come from.

A store is in order if its reachable nodes form a covering diagram and its free
slots are empty; a tree is, if its store is and every trigger in its register is
the one built from its own condition.
That is so after any history under a lawful registry. Under any other one the
store is tidy still (`Reached.tidy`).
-/

namespace Specificity

/-! ## The register -/

namespace Register

variable {α : Type} {r : Register α}

theorem mem_live_iff (r : Register α) (t : Trigger α) :
    t ∈ r.live ↔ ∃ id, r.get? id = some t := by
  unfold live
  simp only [List.mem_filterMap, Array.mem_toList_iff, id_eq, exists_eq_right]
  constructor
  · intro hmem
    obtain ⟨i, hi, hget⟩ := Array.mem_iff_getElem.mp hmem
    refine ⟨⟨i⟩, ?_⟩
    rw [get?, Array.getElem?_eq_getElem hi, hget]
    rfl
  · rintro ⟨⟨i⟩, hget⟩
    rw [get?, Option.join_eq_some_iff] at hget
    exact Array.mem_of_getElem? hget

/-- **The register is in the order of handles**, if every entry has its own. -/
theorem pairwise_live (h : ∀ id t, r.get? id = some t → t.id = id) :
    r.live.Pairwise fun t u => t.id.index < u.id.index := by
  unfold live
  rw [List.pairwise_filterMap, List.pairwise_iff_getElem]
  intro i j hi hj hij t ht u hu
  have hentry : ∀ (k : Nat) (hk : k < r.slots.toList.length) (x : Trigger α),
      some x = r.slots.toList[k] → x.id.index = k := by
    intro k hk x hx
    rw [Array.getElem_toList] at hx
    rw [h ⟨k⟩ x]
    rw [get?, Array.getElem?_eq_getElem (by simpa using hk), ← hx]
    rfl
  rw [hentry i hi t ht.symm, hentry j hj u hu.symm]
  exact hij

/-- Handles are given in ascending order. -/
theorem index_lt_of_get? {r : Register α} {id : TriggerId} {t : Trigger α}
    (h : r.get? id = some t) : id.index < r.nextId.index := by
  rw [get?, Option.join_eq_some_iff] at h
  exact (Array.getElem?_eq_some_iff.mp h).1

/-- Was the handle given already? -/
def Given (r : Register α) (id : TriggerId) : Prop := id.index < r.nextId.index

theorem not_given_nextId (r : Register α) : ¬ r.Given r.nextId := Nat.lt_irrefl _

/-- Registering a trigger gives the next handle, besides those that were given. -/
theorem given_push (r : Register α) (t : Trigger α) (id : TriggerId) :
    (r.push t).Given id ↔ r.Given id ∨ id = r.nextId := by
  have hsize : (r.push t).slots.size = r.slots.size + 1 := Array.size_push _
  obtain ⟨i⟩ := id
  simp only [Given, nextId, hsize, TriggerId.mk.injEq]
  omega

/-- Striking a trigger off takes no handle back. -/
theorem given_erase (r : Register α) (removed id : TriggerId) :
    (r.erase removed).Given id ↔ r.Given id := by
  have hsize : (r.erase removed).slots.size = r.slots.size := Array.size_setIfInBounds
  simp only [Given, nextId, hsize]

/-- The handle given next stands for nothing yet. -/
theorem get?_nextId (r : Register α) : r.get? r.nextId = none := by
  unfold get? nextId
  rw [Array.getElem?_eq_none (Nat.le_refl _)]
  rfl

end Register

namespace Store

variable {α : Type} {cs : Comparers} {r : Register α} {trigger : TriggerId}
  {clause : Clause} {s t : Store} {V : Set NodeId} {placed found : Bool}

/-! ## Stores in order -/

/-- **A store in order**: the nodes that are reached form a covering diagram. -/
structure Sound (cs : Comparers) (s : Store) : Prop where
  /-- The nodes that are reached form a covering diagram. -/
  diagram : s.Diagram cs {v | s.Reachable v}
  /-- Free slots are empty. -/
  free : s.FreeSound

/-- The members of a diagram are the nodes that are reached. -/
theorem Diagram.eq_reachable (hcs : cs.Lawful) (h : s.Diagram cs V) :
    V = {v | s.Reachable v} := Set.ext (h.mem_iff_reachable hcs)

theorem Diagram.sound (hcs : cs.Lawful) (h : s.Diagram cs V) (hfree : s.FreeSound) :
    s.Sound cs := ⟨h.eq_reachable hcs ▸ h, hfree⟩

/-- **The store of a tree without triggers is in order.** -/
theorem sound_initial (hcs : cs.Lawful) : initial.Sound cs := by
  have hdiagram : initial.Diagram cs {NodeId.root} := by
    have hleaf : initial.children .root = [] := rfl
    refine ⟨rfl, rfl, fun v hv hne => absurd hv hne, fun v hv => ?_, fun u hu v hv _ => ?_, ?_⟩
    · rw [Set.mem_singleton_iff.mp hv]
      rfl
    · rw [Set.mem_singleton_iff.mp hu, Set.mem_singleton_iff.mp hv]
    · intro u hu
      rw [Set.mem_singleton_iff.mp hu]
      refine ⟨?_, ?_, ?_, fun v hv hbelow => ?_⟩
      · rw [hleaf]
        exact fun k hk => absurd hk List.not_mem_nil
      · rw [hleaf]
        exact fun k hk => absurd hk List.not_mem_nil
      · rw [hleaf]
        exact .nil
      · rw [Set.mem_singleton_iff.mp hv] at hbelow
        exact absurd hbelow ((orderly_relate hcs initial).specializes_irrefl _)
  exact hdiagram.sound hcs freeSound_initial

/-! ## What the operations keep -/

/-- **Where the nodes of a changed store come from**: a node there is now was there
before, and nothing else became of it than `change` says, or it is one of the
`new` ones. -/
def Descends (s t : Store) (change : Node → Node → Prop) (new : Node → Prop) : Prop :=
  ∀ v, t.Reachable v → ∀ n, t.bare v = some n →
    (s.Reachable v ∧ ∃ m, s.bare v = some m ∧ change m n) ∨ ¬ s.Reachable v ∧ new n

/-- **After a withdrawal** a node is the one it was, without the trigger, and has something
to show unless it is the root. -/
theorem Withdrawn.descends (hcs : cs.Lawful)
    (h : Withdrawn cs r trigger s {v | s.Reachable v} found t) :
    s.Descends t
      (fun m n => n = m.without (r.relate cs) trigger ∧ (n.clause = .empty ∨ n.visible ≠ []))
      fun _ => False := by
  intro v hv n hn
  have hmem := (h.diagram.mem_iff_reachable hcs v).mpr hv
  have hwithout := h.bare v hmem.1
  rw [hn] at hwithout
  obtain ⟨m, hm, rfl⟩ := Option.map_eq_some_iff.mp hwithout.symm
  refine .inl ⟨hmem.1, m, hm, rfl, ?_⟩
  rcases hmem.2 with rfl | hloud
  · obtain ⟨x, hx, hempty⟩ := Option.map_eq_some_iff.mp h.diagram.root_clause
    rw [Store.bare, hx] at hn
    left
    rw [← Option.some.inj hn]
    exact hempty
  · right
    rwa [silenced, hm, Option.any_some, List.isEmpty_iff] at hloud

/-- **Withdrawing keeps a store in order.** -/
theorem Sound.withdraw (hcs : cs.Lawful) (hs : s.Sound cs) (r : Register α)
    (trigger : TriggerId) :
    (s.withdraw cs r trigger).2.Sound cs ∧
      Withdrawn cs r trigger s {v | s.Reachable v} (s.withdraw cs r trigger).1
        (s.withdraw cs r trigger).2 := by
  have h := withdraw_spec hcs hs.diagram r trigger
  exact ⟨h.diagram.sound hcs (hs.free.congr h.size h.free h.isSome), h⟩

/-- **Sweeping keeps a store in order**, and the nodes that are reached with it. -/
theorem Sound.sweep (hcs : cs.Lawful) (hs : s.Sound cs) :
    s.sweep.Sound cs ∧ (∀ v, s.sweep.Reachable v ↔ s.Reachable v) ∧
      ∀ v, s.Reachable v → s.sweep.get? v = s.get? v :=
  ⟨(hs.diagram.sweep hcs).sound hcs hs.free.sweep, s.reachable_sweep_iff,
    fun _ => get?_sweep_of_reachable⟩

section

variable [DecidableEq α]

/-- **After an insertion** a node is the one it was, or one with an equal clause that the
trigger joined for the first time, or the new one. -/
theorem Inserted.descends (hcs : cs.Lawful) (ht : (r.get? trigger).isSome = true)
    (h : Inserted cs r trigger clause s {v | s.Reachable v} placed t) :
    s.Descends t
      (fun m n => n = m ∨ m.clause.relate cs clause = .equal ∧ trigger ∉ m.carried ∧
        n = m.join (r.relate cs trigger) trigger)
      fun n => n = .ofTrigger clause trigger := by
  obtain ⟨u, hu⟩ := Option.isSome_iff_exists.mp ht
  intro v hv n hn
  cases h with
  | @joined e m t he hm hequal hdiagram hmembers =>
    have hmem := (hdiagram.mem_iff_reachable hcs v).mpr hv
    rw [bare_of_get?_eq (hmembers v hmem)] at hn
    refine .inl ⟨hmem, ?_⟩
    by_cases hve : v = e
    · subst hve
      rcases join_eq cs hu hm with ⟨hjoin, -⟩ | ⟨hjoin, hnone⟩
      · rw [hjoin] at hn
        exact ⟨n, hn, .inl rfl⟩
      · rw [hjoin, bare_update_self _ _ (Node.bare_join _ _), bare, hm] at hn
        obtain rfl := Option.some.inj hn
        exact ⟨m.bare, bare_eq_some hm,
          .inr ⟨hequal, fun hcarried => hnone _ hcarried u hu rfl, rfl⟩⟩
    · rw [bare_join_of_ne hve] at hn
      exact ⟨n, hn, .inl rfl⟩
  | @filed x t hfresh hunequal hdiagram hnew hold =>
    rcases (hdiagram.mem_iff_reachable hcs v).mpr hv with hmem | rfl
    · rw [hold v hmem] at hn
      exact .inl ⟨hmem, n, hn, .inl rfl⟩
    · exact .inr ⟨hfresh, Option.some.inj (hn.symm.trans hnew)⟩
  | @refused t hwide hdiagram hmembers =>
    have hmem := (hdiagram.mem_iff_reachable hcs v).mpr hv
    rw [bare_of_get?_eq (hmembers v hmem)] at hn
    exact .inl ⟨hmem, n, hn, .inl rfl⟩

/-- **Inserting keeps a store in order.** -/
theorem Sound.insert (hcs : cs.Lawful) (hs : s.Sound cs) (ht : (r.get? trigger).isSome = true)
    (clause : Clause) :
    (s.insert cs r trigger clause).2.Sound cs ∧
      Inserted cs r trigger clause s {v | s.Reachable v} (s.insert cs r trigger clause).1
        (s.insert cs r trigger clause).2 := by
  obtain ⟨hfree, hinserted⟩ := insert_spec hcs hs.diagram hs.free ht clause
  refine ⟨?_, hinserted⟩
  generalize s.insert cs r trigger clause = result at hfree hinserted
  obtain ⟨placed, t⟩ := result
  cases hinserted with
  | joined _ _ _ hdiagram _ => exact hdiagram.sound hcs hfree
  | filed _ _ hdiagram _ _ => exact hdiagram.sound hcs hfree
  | refused _ hdiagram _ => exact hdiagram.sound hcs hfree

/-- Inserting several clauses of a trigger, and which of them found a place. -/
def insertAll (cs : Comparers) (r : Register α) (trigger : TriggerId) (clauses : List Clause)
    (s : Store) : List Bool × Store :=
  visitAll (fun clause s => s.insert cs r trigger clause) clauses s

/-- The first of several clauses is inserted before the rest. -/
theorem insertAll_cons (cs : Comparers) (r : Register α) (trigger : TriggerId) (clause : Clause)
    (clauses : List Clause) (s : Store) :
    s.insertAll cs r trigger (clause :: clauses) =
      ((s.insert cs r trigger clause).1 ::
          ((s.insert cs r trigger clause).2.insertAll cs r trigger clauses).1,
        ((s.insert cs r trigger clause).2.insertAll cs r trigger clauses).2) := rfl

/-- Inserting several clauses keeps a store in order. -/
theorem Sound.sound_insertAll (hcs : cs.Lawful) (hs : s.Sound cs)
    (ht : (r.get? trigger).isSome = true) (clauses : List Clause) :
    (s.insertAll cs r trigger clauses).2.Sound cs :=
  visitAll_invariant (fun clause s => Store.insert cs r trigger clause s) clauses s
    (fun s => s.Sound cs) (fun c _ _ ha => (ha.insert hcs ht c).1) hs

/-- **Inserting several clauses** keeps what each insertion keeps, and what it does
for its clause if that lasts. -/
theorem Sound.insertAll (hcs : cs.Lawful) (hs : s.Sound cs)
    (ht : (r.get? trigger).isSome = true) (clauses : List Clause) (inv : Store → Prop)
    (done : Clause → Store → Prop)
    (hinsert : ∀ c ∈ clauses, ∀ placed a b, a.Sound cs → inv a → b.Sound cs →
      Inserted cs r trigger c a {v | a.Reachable v} placed b →
      inv b ∧ done c b ∧ ∀ d, done d a → done d b)
    (hinv : inv s) :
    (s.insertAll cs r trigger clauses).2.Sound cs ∧ inv (s.insertAll cs r trigger clauses).2 ∧
      ∀ c ∈ clauses, done c (s.insertAll cs r trigger clauses).2 := by
  obtain ⟨⟨hsound, hinv⟩, -, hdone⟩ := visitAll_spec
    (fun clause s => Store.insert cs r trigger clause s) clauses s
    (fun s => s.Sound cs ∧ inv s) (fun a b => ∀ d, done d a → done d b) done
    (fun _ _ hd => hd) (fun _ _ _ hab hbc d hd => hbc d (hab d hd)) (fun c _ _ hab hc => hab c hc)
    (fun c hc a ha => by
      obtain ⟨hsound, hinserted⟩ := ha.1.insert hcs ht c
      obtain ⟨hinv, hdone, hlast⟩ := hinsert c hc _ _ _ ha.1 ha.2 hsound hinserted
      exact ⟨⟨hsound, hinv⟩, hlast, hdone⟩)
    ⟨hs, hinv⟩
  exact ⟨hsound, hinv, hdone⟩

/-- Inserting several clauses keeps a store tidy, under any registry. -/
theorem Tidy.insertAll {known : TriggerId → Prop} (h : s.Tidy known) (htrigger : known trigger)
    (cs : Comparers) (r : Register α) (clauses : List Clause) :
    (s.insertAll cs r trigger clauses).2.Tidy known :=
  visitAll_invariant (fun clause s => Store.insert cs r trigger clause s) clauses s
    (fun s => s.Tidy known) (fun c _ _ ha => ha.insert htrigger cs r c) h

end

end Store

/-! ## Changes -/

variable {α : Type}

/-- What can be done to a tree. -/
inductive Change (α : Type) where
  /-- A trigger is added. -/
  | add (expression : Expression) (action : α) (quantifiers : List Quantifier)
  /-- A trigger is removed. -/
  | remove (id : TriggerId)

namespace Tree

variable {cs : Comparers} {opts : List Optimizer} {tree : Tree α}

/-- **A tree in order**: so is its store, and every trigger is the one built from
its condition under the registry and the optimizers of the tree. -/
structure Sound (cs : Comparers) (opts : List Optimizer) (tree : Tree α) : Prop where
  /-- The registry is the given one. -/
  comparers : tree.comparers = cs
  /-- The optimizers are the given ones. -/
  optimizers : tree.optimizers = opts
  /-- The store is in order. -/
  store : tree.store.Sound cs
  /-- Triggers are built from their conditions. -/
  built : ∀ id t, tree.trigger? id = some t →
    t = .build cs opts id t.expression t.action t.quantifiers

/-- Every registered trigger knows its handle. -/
theorem Sound.id_eq (h : tree.Sound cs opts) {id : TriggerId} {t : Trigger α}
    (ht : tree.trigger? id = some t) : t.id = id := by
  rw [h.built id t ht]
  rfl

/-- The live triggers are those registered under their own handles. -/
theorem Sound.mem_live_iff (h : tree.Sound cs opts) (t : Trigger α) :
    t ∈ tree.triggers.live ↔ tree.trigger? t.id = some t := by
  rw [Register.mem_live_iff]
  constructor
  · rintro ⟨id, hid⟩
    rw [h.id_eq hid]
    exact hid
  · exact fun ht => ⟨t.id, ht⟩

/-! ## One change -/

/-- **The tree without triggers is in order.** -/
theorem sound_empty (hcs : cs.Lawful) : (Tree.empty cs opts : Tree α).Sound cs opts := by
  refine ⟨rfl, rfl, Store.sound_initial hcs, fun id t ht => ?_⟩
  exact (Option.some_ne_none t ht.symm).elim

/-- **What a removal does**: nothing, if there is no such trigger; otherwise the
trigger is withdrawn, the store swept, and the trigger struck off. -/
theorem remove_cases (tree : Tree α) (id : TriggerId) :
    (tree.trigger? id = none ∧ (tree.remove id).2 = tree) ∨
      ((tree.trigger? id).isSome = true ∧ (tree.remove id).2.comparers = tree.comparers ∧
        (tree.remove id).2.optimizers = tree.optimizers ∧
        (tree.remove id).2.store =
          (tree.store.withdraw tree.comparers tree.triggers id).2.sweep ∧
        (tree.remove id).2.triggers = tree.triggers.erase id) := by
  cases h : tree.trigger? id with
  | none =>
    refine .inl ⟨rfl, ?_⟩
    rw [remove, h]
  | some t =>
    rw [remove, h]
    -- with its parts named the answer of the withdrawal is not computed any further
    obtain ⟨found, store⟩ := tree.store.withdraw tree.comparers tree.triggers id
    exact .inr ⟨rfl, rfl, rfl, rfl, rfl⟩

/-- A trigger that is there after a removal was there, and is not the removed one. -/
theorem trigger?_remove {id removed : TriggerId} {t : Trigger α}
    (h : (tree.remove removed).2.trigger? id = some t) :
    tree.trigger? id = some t ∧ id ≠ removed := by
  rcases tree.remove_cases removed with ⟨hnone, heq⟩ | ⟨-, -, -, -, htriggers⟩
  · rw [heq] at h
    refine ⟨h, ?_⟩
    rintro rfl
    exact Option.some_ne_none t (h.symm.trans hnone)
  · rw [trigger?, htriggers, Register.get?_erase] at h
    split at h
    · exact (Option.some_ne_none t h.symm).elim
    · next hne => exact ⟨h, hne⟩

/-- A removal leaves the other triggers alone. -/
theorem trigger?_remove_of_ne {id removed : TriggerId} (hne : id ≠ removed) :
    (tree.remove removed).2.trigger? id = tree.trigger? id := by
  rcases tree.remove_cases removed with ⟨-, heq⟩ | ⟨-, -, -, -, htriggers⟩
  · rw [heq]
  · rw [trigger?, htriggers, Register.get?_erase, if_neg hne]
    rfl

/-- **Removing a trigger keeps a tree in order.** -/
theorem Sound.remove (hcs : cs.Lawful) (h : tree.Sound cs opts) (id : TriggerId) :
    (tree.remove id).2.Sound cs opts := by
  have hbuilt : ∀ i t, (tree.remove id).2.trigger? i = some t →
      t = .build cs opts i t.expression t.action t.quantifiers :=
    fun i t ht => h.built i t (trigger?_remove ht).1
  rcases tree.remove_cases id with ⟨-, heq⟩ | ⟨-, hcomparers, hoptimizers, hstore, -⟩
  · rw [heq]
    exact h
  · refine ⟨hcomparers.trans h.comparers, hoptimizers.trans h.optimizers, ?_, hbuilt⟩
    rw [hstore, h.comparers]
    exact ((h.store.withdraw hcs tree.triggers id).1.sweep hcs).1

/-- The incoming trigger is registered while its clauses are inserted. -/
theorem get?_push_nextId (tree : Tree α) (t : Trigger α) :
    (tree.triggers.push t).get? tree.triggers.nextId = some t := by
  rw [Register.get?_push, if_pos rfl]

theorem isSome_get?_push_nextId (tree : Tree α) (t : Trigger α) :
    ((tree.triggers.push t).get? tree.triggers.nextId).isSome = true := by
  rw [get?_push_nextId]
  rfl

variable [DecidableEq α]

/-- The trigger that an addition builds. -/
def incoming (tree : Tree α) (expression : Expression) (action : α)
    (quantifiers : List Quantifier) : Trigger α :=
  .build tree.comparers tree.optimizers tree.triggers.nextId expression action quantifiers

/-- The store after the active clauses of an incoming trigger were inserted, and
which of them found a place. -/
def filing (tree : Tree α) (t : Trigger α) : List Bool × Store :=
  tree.store.insertAll tree.comparers (tree.triggers.push t) tree.triggers.nextId
    (t.active.map Clause.core)

/-- **What an addition does**: the clauses are inserted and the store is swept, and
the trigger is struck off again if none found a place. -/
theorem add_cases (tree : Tree α) (expression : Expression) (action : α)
    (quantifiers : List Quantifier) :
    (tree.add expression action quantifiers).2.comparers = tree.comparers ∧
      (tree.add expression action quantifiers).2.optimizers = tree.optimizers ∧
      (tree.add expression action quantifiers).2.store =
        (tree.filing (tree.incoming expression action quantifiers)).2.sweep ∧
      (tree.add expression action quantifiers).2.triggers =
        if (tree.filing (tree.incoming expression action quantifiers)).1.contains true
        then tree.triggers.push (tree.incoming expression action quantifiers)
        else (tree.triggers.push (tree.incoming expression action quantifiers)).erase
          tree.triggers.nextId := by
  set t := tree.incoming expression action quantifiers with ht
  have heq : (tree.add expression action quantifiers).2 =
      if (tree.filing t).1.contains true then
        { tree with
          store := (tree.filing t).2.sweep
          triggers := tree.triggers.push t
          total := tree.total + 1 }
      else
        { tree with
          store := (tree.filing t).2.sweep
          triggers := (tree.triggers.push t).erase tree.triggers.nextId } :=
    apply_ite Prod.snd _ _ _
  rw [heq]
  split <;> exact ⟨rfl, rfl, rfl, rfl⟩

/-- An addition answers the next handle, whether it retains the trigger or not. -/
theorem fst_add (tree : Tree α) (expression : Expression) (action : α)
    (quantifiers : List Quantifier) :
    (tree.add expression action quantifiers).1 = tree.triggers.nextId := by
  set t := tree.incoming expression action quantifiers
  have hfst : (tree.add expression action quantifiers).1 =
      if (tree.filing t).1.contains true then tree.triggers.nextId else tree.triggers.nextId :=
    apply_ite Prod.fst _ _ _
  rw [hfst, ite_self]

/-- An addition counts the trigger if a clause of it found a place. -/
theorem total_add (tree : Tree α) (expression : Expression) (action : α)
    (quantifiers : List Quantifier) :
    (tree.add expression action quantifiers).2.total =
      if (tree.filing (tree.incoming expression action quantifiers)).1.contains true
      then tree.total + 1 else tree.total := by
  set t := tree.incoming expression action quantifiers
  have heq : (tree.add expression action quantifiers).2.total =
      (if (tree.filing t).1.contains true then
        (tree.triggers.nextId,
          { tree with
            store := (tree.filing t).2.sweep
            triggers := tree.triggers.push t
            total := tree.total + 1 })
      else
        (tree.triggers.nextId,
          { tree with
            store := (tree.filing t).2.sweep
            triggers := (tree.triggers.push t).erase tree.triggers.nextId })).2.total := rfl
  rw [heq]
  split <;> rfl

/-- The handle stands for the trigger then, and for nothing otherwise. -/
theorem trigger?_nextId_add (tree : Tree α) (expression : Expression) (action : α)
    (quantifiers : List Quantifier) :
    (tree.add expression action quantifiers).2.trigger? tree.triggers.nextId =
      if (tree.filing (tree.incoming expression action quantifiers)).1.contains true
      then some (tree.incoming expression action quantifiers) else none := by
  obtain ⟨-, -, -, htriggers⟩ := tree.add_cases expression action quantifiers
  rw [trigger?, htriggers]
  split
  · exact get?_push_nextId tree _
  · rw [Register.get?_erase, if_pos rfl]

/-- A trigger that is there after an addition is the incoming one or was there. -/
theorem trigger?_add {expression : Expression} {action : α} {quantifiers : List Quantifier}
    {id : TriggerId} {t : Trigger α}
    (h : (tree.add expression action quantifiers).2.trigger? id = some t) :
    (id = tree.triggers.nextId ∧ t = tree.incoming expression action quantifiers) ∨
      tree.trigger? id = some t := by
  obtain ⟨-, -, -, htriggers⟩ := tree.add_cases expression action quantifiers
  have hpush : (tree.triggers.push (tree.incoming expression action quantifiers)).get? id
      = some t := by
    rw [trigger?, htriggers] at h
    split at h
    · exact h
    · rw [Register.get?_erase] at h
      split at h
      · exact (Option.some_ne_none t h.symm).elim
      · exact h
  rw [Register.get?_push] at hpush
  split at hpush
  · next heq => exact .inl ⟨heq, (Option.some.inj hpush).symm⟩
  · exact .inr hpush

/-- An addition leaves the other triggers alone. -/
theorem trigger?_add_of_ne (expression : Expression) (action : α) (quantifiers : List Quantifier)
    {id : TriggerId} (hne : id ≠ tree.triggers.nextId) :
    (tree.add expression action quantifiers).2.trigger? id = tree.trigger? id := by
  obtain ⟨-, -, -, htriggers⟩ := tree.add_cases expression action quantifiers
  rw [trigger?, htriggers]
  split
  · rw [Register.get?_push, if_neg hne]
    rfl
  · rw [Register.get?_erase, if_neg hne, Register.get?_push, if_neg hne]
    rfl

/-- **Adding a trigger keeps a tree in order.** -/
theorem Sound.add (hcs : cs.Lawful) (h : tree.Sound cs opts) (expression : Expression)
    (action : α) (quantifiers : List Quantifier) :
    (tree.add expression action quantifiers).2.Sound cs opts := by
  obtain ⟨hcomparers, hoptimizers, hstore, -⟩ := tree.add_cases expression action quantifiers
  refine ⟨hcomparers.trans h.comparers, hoptimizers.trans h.optimizers, ?_, fun i u hu => ?_⟩
  · set t := tree.incoming expression action quantifiers
    have hfiled := h.store.sound_insertAll hcs (isSome_get?_push_nextId tree t)
      (t.active.map Clause.core)
    rw [hstore, filing, h.comparers]
    exact (hfiled.sweep hcs).1
  · rcases trigger?_add hu with ⟨rfl, rfl⟩ | hu
    · rw [incoming, h.comparers, h.optimizers]
      rfl
    · exact h.built i u hu

/-! ## Histories -/

/-- The tree after a change. -/
def change (tree : Tree α) : Change α → Tree α
  | .add expression action quantifiers => (tree.add expression action quantifiers).2
  | .remove id => (tree.remove id).2

/-- **Reached trees**: those that changes lead to, each of them admitted by `ok` at
the tree it is made to. -/
inductive Reached (ok : Tree α → Change α → Prop) (cs : Comparers) (opts : List Optimizer) :
    Tree α → Prop where
  /-- The tree without triggers is reached. -/
  | empty : Reached ok cs opts (.empty cs opts)
  /-- An admitted change to a reached tree leads to a reached tree. -/
  | change {tree : Tree α} (reached : Reached ok cs opts tree) (c : Change α)
      (admitted : ok tree c) : Reached ok cs opts (tree.change c)

/-- Every change is admitted. -/
def Free : Tree α → Change α → Prop := fun _ _ => True

/-- **Running changes** in order, from the tree without triggers. -/
def run (cs : Comparers) (opts : List Optimizer) (changes : List (Change α)) : Tree α :=
  changes.foldl change (.empty cs opts)

/-- Every run leads to a reached tree. -/
theorem reached_run (cs : Comparers) (opts : List Optimizer) (changes : List (Change α)) :
    Reached Free cs opts (run cs opts changes) := by
  suffices hrun : ∀ tree, Reached Free cs opts tree →
      Reached Free cs opts (changes.foldl change tree) from hrun _ .empty
  induction changes with
  | nil => exact fun _ h => h
  | cons c changes ih => exact fun tree h => ih _ (.change h c trivial)

/-- Trees that are reached under a stricter admission are reached under a laxer one. -/
theorem Reached.mono {ok ok' : Tree α → Change α → Prop}
    (hlax : ∀ tree c, ok tree c → ok' tree c) (h : Reached ok cs opts tree) :
    Reached ok' cs opts tree := by
  induction h with
  | empty => exact .empty
  | change _ c hc ih => exact ih.change c (hlax _ c hc)

/-- An added action is admitted if no trigger in the tree has it. -/
def Fresh (tree : Tree α) : Change α → Prop
  | .add _ action _ => ∀ t ∈ tree.triggers.live, t.action ≠ action
  | .remove _ => True

instance (tree : Tree α) : ∀ c, Decidable (tree.Fresh c)
  | .add _ action _ => inferInstanceAs (Decidable (∀ t ∈ tree.triggers.live, t.action ≠ action))
  | .remove _ => inferInstanceAs (Decidable True)

/-- A reached tree has the registry it started with. -/
theorem Reached.comparers {ok : Tree α → Change α → Prop} (h : Reached ok cs opts tree) :
    tree.comparers = cs := by
  induction h with
  | empty => rfl
  | @change tree _ c _ ih =>
    cases c with
    | add expression action quantifiers =>
      exact (tree.add_cases expression action quantifiers).1.trans ih
    | remove id =>
      show (tree.remove id).2.comparers = cs
      rcases tree.remove_cases id with ⟨-, heq⟩ | ⟨-, hcomparers, -⟩
      · rw [heq, ih]
      · rw [hcomparers, ih]

/-- **Every reached tree is in order.** -/
theorem Reached.sound {ok : Tree α → Change α → Prop} (hcs : cs.Lawful)
    (h : Reached ok cs opts tree) : tree.Sound cs opts := by
  induction h with
  | empty => exact sound_empty hcs
  | change _ c _ ih =>
    cases c with
    | add expression action quantifiers => exact ih.add hcs expression action quantifiers
    | remove id => exact ih.remove hcs id

/-- Inserting clauses of an incoming trigger keeps a store tidy in which nodes carry only
handles that were given. -/
theorem tidy_insertAll_push (h : tree.store.Tidy tree.triggers.Given) (t : Trigger α)
    (clauses : List Clause) :
    (tree.store.insertAll tree.comparers (tree.triggers.push t) tree.triggers.nextId
      clauses).2.Tidy (tree.triggers.push t).Given :=
  (h.mono fun u hu => (Register.given_push _ t u).mpr (.inl hu)).insertAll
    ((Register.given_push _ t _).mpr (.inr rfl)) _ _ _

/-- **Every reached tree is tidy**, under any registry: nodes carry only handles that were
given. -/
theorem Reached.tidy {ok : Tree α → Change α → Prop} (h : Reached ok cs opts tree) :
    tree.store.Tidy tree.triggers.Given := by
  induction h with
  | empty => exact .initial _
  | @change tree _ c _ ih =>
    cases c with
    | add expression action quantifiers =>
      obtain ⟨-, -, hstore, htriggers⟩ := tree.add_cases expression action quantifiers
      set t := tree.incoming expression action quantifiers
      have hfiled : (tree.filing t).2.Tidy (tree.triggers.push t).Given :=
        tidy_insertAll_push ih t _
      show (tree.add expression action quantifiers).2.store.Tidy _
      rw [hstore]
      refine hfiled.sweep.mono fun u hu => ?_
      show (tree.add expression action quantifiers).2.triggers.Given u
      rw [htriggers]
      split
      · exact hu
      · exact (Register.given_erase _ _ u).mpr hu
    | remove id =>
      show (tree.remove id).2.store.Tidy (tree.remove id).2.triggers.Given
      rcases tree.remove_cases id with ⟨-, heq⟩ | ⟨-, -, -, hstore, htriggers⟩
      · rw [heq]
        exact ih
      · rw [hstore, htriggers]
        exact (ih.withdraw tree.comparers tree.triggers id).sweep.mono fun u hu =>
          (Register.given_erase _ _ u).mpr hu

/-! ## What holds of every node -/

/-- Does every node that is reached have a property of bare nodes? -/
def AllNodes (P : Node → Prop) (s : Store) : Prop :=
  ∀ v, s.Reachable v → ∀ n, s.bare v = some n → P n

omit [DecidableEq α] in
theorem AllNodes.sweep (hcs : cs.Lawful) {P : Node → Prop} {s : Store} (hs : s.Sound cs)
    (h : AllNodes P s) : AllNodes P s.sweep := by
  obtain ⟨-, hreach, hget⟩ := hs.sweep hcs
  intro v hv n hn
  have hv := (hreach v).mp hv
  rw [Store.bare_of_get?_eq (hget v hv)] at hn
  exact h v hv n hn

/-- **What joining and withdrawing keep holds of every node** of a reached tree, if it
holds of the root and of new nodes. Only the root may be left with nothing to show. -/
theorem Reached.allNodes {ok : Tree α → Change α → Prop} {P : Node → Prop} (hcs : cs.Lawful)
    (hroot : P (.ofClause .empty)) (hnew : ∀ c t, P (.ofTrigger c t))
    (hjoin : ∀ judge t n, P n → P (n.join judge t))
    (hwithout : ∀ judge t n, (n.clause = .empty ∨ (n.without judge t).visible ≠ []) → P n →
      P (n.without judge t)) (h : Reached ok cs opts tree) :
    AllNodes P tree.store := by
  induction h with
  | empty =>
    intro v _ n hn
    obtain ⟨m, hm, rfl⟩ := Option.map_eq_some_iff.mp hn
    rw [(Store.get?_initial hm).2]
    exact hroot
  | @change tree h c _ ih =>
    have hsound := h.sound hcs
    cases c with
    | add expression action quantifiers =>
      obtain ⟨-, -, hstore, -⟩ := tree.add_cases expression action quantifiers
      set t := tree.incoming expression action quantifiers
      obtain ⟨hfiled, hall, -⟩ := hsound.store.insertAll hcs
        (isSome_get?_push_nextId tree t) (t.active.map Clause.core) (AllNodes P) (fun _ _ => True)
        (fun c _ placed a b _ ha _ hinserted => by
          refine ⟨fun v hv n hn => ?_, trivial, fun _ _ => trivial⟩
          rcases hinserted.descends hcs (isSome_get?_push_nextId tree t) v hv n hn with
            ⟨hv, m, hm, rfl | ⟨-, -, rfl⟩⟩ | ⟨-, rfl⟩
          · exact ha v hv n hm
          · exact hjoin _ _ m (ha v hv m hm)
          · exact hnew _ _)
        ih
      show AllNodes P (tree.add expression action quantifiers).2.store
      -- striking the trigger off again leaves the nodes alone
      rw [hstore, filing, hsound.comparers]
      exact hall.sweep hcs hfiled
    | remove id =>
      show AllNodes P (tree.remove id).2.store
      rcases tree.remove_cases id with ⟨-, heq⟩ | ⟨-, -, -, hstore, -⟩
      · rw [heq]
        exact ih
      · obtain ⟨hwithdrawn, hspec⟩ := hsound.store.withdraw hcs tree.triggers id
        rw [hstore, hsound.comparers]
        refine AllNodes.sweep hcs hwithdrawn fun v hv n hn => ?_
        obtain ⟨hv, m, hm, rfl, hshows⟩ := (hspec.descends hcs v hv n hn).resolve_right And.right
        rw [Node.clause_without] at hshows
        exact hwithout _ _ m hshows (ih v hv m hm)

end Tree

end Specificity
