import Specificity.Proofs.Bounds
import Specificity.Proofs.Searching

/-!
# Matching is flat

A search walks down the tree, shares what it has found between the parents of a
node, and lets a node be silent on behalf of those below. The answer has nothing
of this: it is read off the nodes and their order alone. A node fires if its
clause holds, a visible trigger fires with it, and no narrower node fires
(`Tree.IsFiring`), which determines the firing nodes by recursion on the order;
and the answer is what the firing nodes show (`Tree.FlatMatch`).

A node that holds but has nothing to report – every trigger of it withheld by an
ignored condition – does not count as firing, and so hides nothing.
-/

namespace Specificity

namespace Tree

variable {α : Type} {cs : Comparers} {opts : List Optimizer} {tree : Tree α} {m : Memory}
  {fires : NodeId → Prop}

/-! ## Firing nodes -/

/-- **The firing nodes**: `fires` tells those whose clause holds, with a visible
trigger that fires, and with no narrower node that fires. -/
def IsFiring (tree : Tree α) (m : Memory) (fires : NodeId → Prop) : Prop :=
  ∀ v, fires v ↔ tree.store.Reachable v ∧
    (∃ n, tree.store.get? v = some n ∧ n.clause.eval m = .ok true ∧
      ∃ id ∈ n.visible, ∃ t, tree.trigger? id = some t ∧
        t.firesAt tree.comparers m n.clause = true) ∧
    ∀ u, fires u → tree.store.relate tree.comparers u v ≠ .specializes

/-- A loud node holds, and a visible trigger fires with it. -/
theorem candidates_ne_nil_iff (tree : Tree α) (m : Memory) (v : NodeId) :
    tree.candidates m v ≠ [] ↔
      ∃ n, tree.store.get? v = some n ∧ n.clause.eval m = .ok true ∧
        ∃ id ∈ n.visible, ∃ t, tree.trigger? id = some t ∧
          t.firesAt tree.comparers m n.clause = true := by
  unfold candidates
  cases tree.store.get? v with
  | none => simp
  | some n =>
    constructor
    · intro hne
      obtain ⟨id, hid⟩ := List.exists_mem_of_ne_nil _ hne
      obtain ⟨heval, hvisible, ht⟩ := (mem_firingAt tree m n id).mp hid
      exact ⟨n, rfl, heval, id, hvisible, ht⟩
    · rintro ⟨n', hn', heval, id, hvisible, ht⟩
      obtain rfl := Option.some.inj hn'
      exact List.ne_nil_of_mem ((mem_firingAt tree m n id).mpr ⟨heval, hvisible, ht⟩)

/-- At or below every loud node there is a foremost one. -/
theorem exists_foremost (hcs : tree.comparers.Lawful)
    (hs : tree.store.Diagram tree.comparers {v | tree.store.Reachable v}) {v : NodeId}
    (hv : tree.Loud m v) :
    ∃ u, tree.Foremost m u ∧ (tree.store.relate tree.comparers u v).isCovered = true := by
  have hord := Store.orderly_relate hcs tree.store
  induction hheight : tree.store.height tree.comparers v using Nat.strong_induction_on
    generalizing v with
  | _ n ih =>
    by_cases hnone : ∀ u, tree.Loud m u → tree.store.relate tree.comparers u v ≠ .specializes
    · exact ⟨v, ⟨hv, hnone⟩, Store.isCovered_self hcs (hs.stored v hv.1)⟩
    · push Not at hnone
      obtain ⟨u, hu, hlt⟩ := hnone
      obtain ⟨w, hw, hwu⟩ := ih _ (hheight ▸ Store.height_lt hcs hlt) hu rfl
      exact ⟨w, hw, hord.isCovered_trans hwu (Relationship.isCovered_of_specializes hlt)⟩

/-- **The foremost nodes are the firing nodes.** -/
theorem isFiring_foremost (hcs : tree.comparers.Lawful)
    (hs : tree.store.Diagram tree.comparers {v | tree.store.Reachable v}) (m : Memory) :
    tree.IsFiring m (tree.Foremost m) := by
  have hord := Store.orderly_relate hcs tree.store
  intro v
  rw [← candidates_ne_nil_iff]
  constructor
  · rintro ⟨⟨hreach, hloud⟩, hnone⟩
    exact ⟨hreach, hloud, fun u hu => hnone u hu.1⟩
  · rintro ⟨hreach, hloud, hnone⟩
    refine ⟨⟨hreach, hloud⟩, fun u hu hlt => ?_⟩
    obtain ⟨w, hw, hwu⟩ := exists_foremost hcs hs hu
    exact hnone w hw (hord.specializes_of_isCovered_of_specializes hwu hlt)

/-- **There is no other solution**: the firing nodes below a node settle whether it
fires. The induction is on the height. -/
theorem IsFiring.unique (hcs : tree.comparers.Lawful) {fires' : NodeId → Prop}
    (h : tree.IsFiring m fires) (h' : tree.IsFiring m fires') : fires = fires' := by
  funext v
  induction hheight : tree.store.height tree.comparers v using Nat.strong_induction_on
    generalizing v with
  | _ n ih =>
    have hbelow : (∀ u, fires u → tree.store.relate tree.comparers u v ≠ .specializes) ↔
        ∀ u, fires' u → tree.store.relate tree.comparers u v ≠ .specializes := by
      refine forall_congr' fun u => ?_
      by_cases hlt : tree.store.relate tree.comparers u v = .specializes
      · rw [ih _ (hheight ▸ Store.height_lt hcs hlt) u rfl]
      · exact ⟨fun _ _ => hlt, fun _ _ => hlt⟩
    rw [propext (h v), propext (h' v), hbelow]

/-! ## The answer -/

/-- Does the node show the trigger, and does it fire there? -/
def Reports (tree : Tree α) (m : Memory) (v : NodeId) (t : Trigger α) : Prop :=
  ∃ n, tree.store.get? v = some n ∧ t.id ∈ n.visible ∧
    t.firesAt tree.comparers m n.clause = true

/-- The clause of a node, if it is stored. -/
def clauseAt? (tree : Tree α) (v : NodeId) : Option Clause :=
  (tree.store.get? v).map Node.clause

/-- **The flat match**: the triggers that firing nodes report, by ascending handle,
each with the clauses of those nodes. -/
structure FlatMatch (tree : Tree α) (m : Memory) (fires : NodeId → Prop)
    (answer : List (Firing α)) : Prop where
  /-- A trigger is in the answer if a firing node reports it. -/
  reported : ∀ t, t ∈ answer.map Firing.trigger ↔
    tree.trigger? t.id = some t ∧ ∃ v, fires v ∧ tree.Reports m v t
  /-- Its clauses are those of all these nodes, one for each of them. -/
  clauses : ∀ f ∈ answer, ∃ vs : List NodeId, vs.Nodup ∧
    (∀ v, v ∈ vs ↔ fires v ∧ tree.Reports m v f.trigger) ∧
    f.clauses.map some = vs.map tree.clauseAt?
  /-- No clause is reported twice. -/
  distinct : ∀ f ∈ answer,
    f.clauses.Pairwise fun c d => c.relate tree.comparers d = .incomparable
  /-- Handles ascend, so no trigger is reported twice. -/
  ascending : answer.Pairwise fun f g => f.trigger.id.index < g.trigger.id.index
  /-- No reported clause is narrower than another one. -/
  narrowest : ∀ f ∈ answer, ∀ g ∈ answer, ∀ c ∈ f.clauses, ∀ d ∈ g.clauses,
    c.relate tree.comparers d ≠ .specializes

/-- The nodes that a trigger fired at. -/
def firedAt (tree : Tree α) (m : Memory) (t : TriggerId) : List NodeId :=
  (tree.firings m).filterMap fun f => if f.1 = t then some f.2 else none

theorem mem_firedAt (tree : Tree α) (m : Memory) (t : TriggerId) (v : NodeId) :
    v ∈ tree.firedAt m t ↔ (t, v) ∈ tree.firings m := by
  unfold firedAt
  rw [List.mem_filterMap]
  constructor
  · rintro ⟨⟨t', v'⟩, hmem, hif⟩
    split at hif
    · next heq =>
      obtain rfl := Option.some.inj hif
      obtain rfl : t' = t := heq
      exact hmem
    · exact (Option.some_ne_none v hif.symm).elim
  · exact fun hmem => ⟨(t, v), hmem, if_pos rfl⟩

theorem nodup_firedAt (h : (tree.firings m).Nodup) (t : TriggerId) :
    (tree.firedAt m t).Nodup := by
  unfold firedAt
  refine h.filterMap ?_
  rintro ⟨a, v⟩ ⟨b, w⟩ x hv hw
  rw [Option.mem_def] at hv hw
  split at hv
  · next hat =>
    split at hw
    · next hbt =>
      exact Prod.ext (hat.trans hbt.symm)
        ((Option.some.inj hv).trans (Option.some.inj hw).symm)
    · exact (Option.some_ne_none x hw.symm).elim
  · exact (Option.some_ne_none x hv.symm).elim

/-- **The members of the answer**: live triggers that fired, with the clauses of the
nodes they fired at. -/
theorem mem_matching (tree : Tree α) (m : Memory) (f : Firing α) :
    f ∈ tree.matching m ↔ f.trigger ∈ tree.triggers.live ∧
      tree.firedAt m f.trigger.id ≠ [] ∧
      f.clauses = (tree.firedAt m f.trigger.id).filterMap tree.clauseAt? := by
  unfold matching
  simp only [getD_nodesByTrigger, List.mem_filterMap]
  constructor
  · rintro ⟨t, ht, hf⟩
    split at hf
    · exact (Option.some_ne_none f hf.symm).elim
    · next hne =>
      obtain rfl := Option.some.inj hf
      exact ⟨ht, hne, rfl⟩
  · rintro ⟨ht, hne, hclauses⟩
    refine ⟨f.trigger, ht, ?_⟩
    split
    · next heq => exact absurd heq hne
    · exact congrArg (fun clauses => some (Firing.mk f.trigger clauses)) hclauses.symm

/-- A foremost node reports a trigger if the trigger fired there. -/
theorem mem_firedAt_iff (hcs : tree.comparers.Lawful)
    (hs : tree.store.Diagram tree.comparers {v | tree.store.Reachable v})
    (honce : tree.ShowsOnce) {t : Trigger α} (ht : tree.trigger? t.id = some t) (v : NodeId) :
    v ∈ tree.firedAt m t.id ↔ tree.Foremost m v ∧ tree.Reports m v t := by
  rw [mem_firedAt, (firings_spec hcs hs honce m).2]
  refine and_congr_right fun hforemost => ?_
  obtain ⟨n, hn, heval, -⟩ := (candidates_ne_nil_iff tree m v).mp hforemost.1.2
  have hcandidates : tree.candidates m v = tree.firingAt m n := by rw [candidates, hn]
  rw [hcandidates, mem_firingAt]
  constructor
  · rintro ⟨-, hvisible, u, hu, hfires⟩
    obtain rfl := Option.some.inj (ht.symm.trans hu)
    exact ⟨n, hn, hvisible, hfires⟩
  · rintro ⟨_, hn', hvisible, hfires⟩
    obtain rfl := Option.some.inj (hn.symm.trans hn')
    exact ⟨heval, hvisible, t, ht, hfires⟩

/-- The clauses of several reachable nodes, one for each of them. -/
theorem map_some_filterMap_clauseAt {vs : List NodeId}
    (h : ∀ v ∈ vs, (tree.store.get? v).isSome = true) :
    (vs.filterMap tree.clauseAt?).map some = vs.map tree.clauseAt? := by
  induction vs with
  | nil => rfl
  | cons v vs ih =>
    obtain ⟨n, hn⟩ := Option.isSome_iff_exists.mp (h v List.mem_cons_self)
    have hclause : tree.clauseAt? v = some n.clause := by rw [clauseAt?, hn, Option.map_some]
    rw [List.filterMap_cons_some hclause, List.map_cons, List.map_cons, hclause,
      ih fun w hw => h w (List.mem_cons_of_mem v hw)]

/-- The clauses of two nodes relate as the nodes do. -/
theorem relate_clauseAt {u v : NodeId} {c d : Clause} (hu : tree.clauseAt? u = some c)
    (hv : tree.clauseAt? v = some d) :
    c.relate tree.comparers d = tree.store.relate tree.comparers u v := by
  obtain ⟨m, hm, rfl⟩ := Option.map_eq_some_iff.mp hu
  obtain ⟨n, hn, rfl⟩ := Option.map_eq_some_iff.mp hv
  rw [Store.relate_eq hm hn]

/-- Two foremost nodes are unrelated. -/
theorem Foremost.incomparable (hcs : tree.comparers.Lawful)
    (hs : tree.store.Diagram tree.comparers {v | tree.store.Reachable v}) {u v : NodeId}
    (hu : tree.Foremost m u) (hv : tree.Foremost m v) (hne : u ≠ v) :
    tree.store.relate tree.comparers u v = .incomparable := by
  have hord := Store.orderly_relate hcs tree.store
  cases hrel : tree.store.relate tree.comparers u v with
  | equal => exact absurd (hs.distinct u hu.1.1 v hv.1.1 hrel) hne
  | specializes => exact absurd hrel (hv.2 u hu.1)
  | generalizes => exact absurd (hord.generalizes_iff.mp hrel) (hu.2 v hv.1)
  | incomparable => rfl

/-- The answer keeps the order of the register. -/
theorem Sound.pairwise_matching (h : tree.Sound cs opts) (m : Memory) :
    (tree.matching m).Pairwise fun f g => f.trigger.id.index < g.trigger.id.index := by
  unfold matching
  rw [List.pairwise_filterMap]
  refine (Register.pairwise_live fun _ _ => h.id_eq).imp fun {t u} htu f hf g hg => ?_
  split at hf
  · exact (Option.some_ne_none f hf.symm).elim
  · split at hg
    · exact (Option.some_ne_none g hg.symm).elim
    · rw [← Option.some.inj hf, ← Option.some.inj hg]
      exact htu

/-- **The answer of a tree in order** is the flat match of its foremost nodes. -/
theorem Sound.flatMatch_foremost (hcs : cs.Lawful) (h : tree.Sound cs opts)
    (honce : tree.ShowsOnce) (m : Memory) :
    tree.FlatMatch m (tree.Foremost m) (tree.matching m) := by
  have hs := h.store.diagram
  rw [← h.comparers] at hcs hs
  have hnodup := nodup_firedAt (firings_spec hcs hs honce m).1
  -- where a live trigger fired, a foremost node reports it
  have hfired := fun (t : Trigger α) (ht : t ∈ tree.triggers.live) (v : NodeId) =>
    mem_firedAt_iff (m := m) hcs hs honce ((h.mem_live_iff t).mp ht) v
  -- so every reported clause is the clause of a foremost node
  have hclauses : ∀ f ∈ tree.matching m, ∀ c ∈ f.clauses,
      ∃ v, tree.Foremost m v ∧ tree.clauseAt? v = some c := by
    intro f hf c hc
    obtain ⟨hmem, -, heq⟩ := (mem_matching tree m f).mp hf
    rw [heq, List.mem_filterMap] at hc
    obtain ⟨v, hv, hvc⟩ := hc
    exact ⟨v, ((hfired f.trigger hmem v).mp hv).1, hvc⟩
  exact {
    reported := fun t => by
      rw [List.mem_map, ← h.mem_live_iff]
      constructor
      · rintro ⟨f, hf, rfl⟩
        obtain ⟨hmem, hne, -⟩ := (mem_matching tree m f).mp hf
        obtain ⟨v, hv⟩ := List.exists_mem_of_ne_nil _ hne
        exact ⟨hmem, v, (hfired f.trigger hmem v).mp hv⟩
      · rintro ⟨hmem, v, hv⟩
        refine ⟨⟨t, (tree.firedAt m t.id).filterMap tree.clauseAt?⟩, ?_, rfl⟩
        exact (mem_matching tree m _).mpr
          ⟨hmem, List.ne_nil_of_mem ((hfired t hmem v).mpr hv), rfl⟩
    clauses := fun f hf => by
      obtain ⟨hmem, -, heq⟩ := (mem_matching tree m f).mp hf
      refine ⟨tree.firedAt m f.trigger.id, hnodup _, hfired f.trigger hmem, ?_⟩
      rw [heq]
      exact map_some_filterMap_clauseAt fun v hv =>
        hs.stored v ((hfired f.trigger hmem v).mp hv).1.1.1
    distinct := fun f hf => by
      obtain ⟨hmem, -, heq⟩ := (mem_matching tree m f).mp hf
      rw [heq, List.pairwise_filterMap]
      refine (hnodup f.trigger.id).imp_of_mem fun {u v} hu hv hne c hc d hd => ?_
      rw [relate_clauseAt hc hd]
      exact ((hfired f.trigger hmem u).mp hu).1.incomparable hcs hs
        ((hfired f.trigger hmem v).mp hv).1 hne
    ascending := h.pairwise_matching m
    narrowest := fun f hf g hg c hc d hd hlt => by
      obtain ⟨u, hu, huc⟩ := hclauses f hf c hc
      obtain ⟨v, hv, hvd⟩ := hclauses g hg d hd
      rw [relate_clauseAt huc hvd] at hlt
      exact hv.2 u hu.1 hlt }

/-- **Matching is flat**: in every reached tree there is one way to tell the firing
nodes, and the answer is what they report. -/
theorem flatMatch_of_reached [DecidableEq α] (hcs : cs.Lawful) (h : Reached Free cs opts tree)
    (m : Memory) :
    ∃ fires, tree.IsFiring m fires ∧ (∀ fires', tree.IsFiring m fires' → fires' = fires) ∧
      tree.FlatMatch m fires (tree.matching m) := by
  have hsound := h.sound hcs
  have hflat := hsound.flatMatch_foremost hcs (h.showsOnce hcs) m
  have hs := hsound.store.diagram
  rw [← hsound.comparers] at hcs hs
  have hfiring := isFiring_foremost hcs hs m
  exact ⟨tree.Foremost m, hfiring, fun fires' h' => h'.unique hcs hfiring, hflat⟩

/-- A narrow trigger and a wide one, in a memory that satisfies both. -/
theorem flatMatch_narrow_wide :
    let tree : Tree Nat := .run .empty []
      [.add (.and [.accessor "a", .accessor "b"]) 1 [], .add (.accessor "a") 2 []]
    let m := Memory.ofList [("a", .bool true), ("b", .bool true)]
    ∃ fires, tree.IsFiring m fires ∧ (∀ fires', tree.IsFiring m fires' → fires' = fires) ∧
      tree.FlatMatch m fires (tree.matching m) :=
  flatMatch_of_reached Comparers.lawful_empty (reached_run _ _ _) _

end Tree

end Specificity
