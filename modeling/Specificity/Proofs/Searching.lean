import Specificity.Proofs.History
import Specificity.Proofs.Visibility
import Specificity.Tree.Firing

/-!
# What a search finds

A node is *loud* in a memory if it has something to report there, regardless of
other nodes. The search answers for a node whether it or one at most as wide is
loud, and lets those loud nodes fire that have no narrower loud one
(`Tree.Foremost`). Both are said of the whole tree without reference to the
search, so its memory of earlier answers needs no history: the invariant
(`Tree.Searching`) only keeps which nodes were answered.

That everything at most as wide is asked before a node answers rests on the
covering diagram, where all of it is below.
-/

namespace Specificity

namespace Tree

variable {α : Type} {cs : Comparers} {tree : Tree α} {m : Memory} {st : Search}
  {here v : NodeId}

/-! ## Loud nodes -/

/-- The triggers that a node has to report. -/
def candidates (tree : Tree α) (m : Memory) (v : NodeId) : List TriggerId :=
  match tree.store.get? v with
  | some n => tree.firingAt m n
  | none => []

/-- A node is loud if it has something to report. -/
def Loud (tree : Tree α) (m : Memory) (v : NodeId) : Prop :=
  tree.store.Reachable v ∧ tree.candidates m v ≠ []

/-- Is the node, or one at most as wide, loud? -/
def Stirs (tree : Tree α) (m : Memory) (v : NodeId) : Prop :=
  ∃ u, tree.Loud m u ∧ (tree.store.relate tree.comparers u v).isCovered = true

/-- **A foremost node** is loud, and no narrower node is. -/
def Foremost (tree : Tree α) (m : Memory) (v : NodeId) : Prop :=
  tree.Loud m v ∧ ∀ u, tree.Loud m u → tree.store.relate tree.comparers u v ≠ .specializes

/-- What makes a trigger fire at a node. -/
theorem mem_firingAt (tree : Tree α) (m : Memory) (n : Node) (t : TriggerId) :
    t ∈ tree.firingAt m n ↔ n.clause.eval m = .ok true ∧ t ∈ n.visible ∧
      ∃ u, tree.trigger? t = some u ∧ u.firesAt tree.comparers m n.clause = true := by
  have hany : ((tree.trigger? t).any fun u => u.firesAt tree.comparers m n.clause) = true ↔
      ∃ u, tree.trigger? t = some u ∧ u.firesAt tree.comparers m n.clause = true := by
    cases tree.trigger? t <;> simp
  unfold firingAt
  split
  · next heval => rw [List.mem_filter, hany, heval, eq_self_iff_true, true_and]
  · next hne =>
    constructor
    · exact fun h => absurd h List.not_mem_nil
    · rintro ⟨heval, -⟩
      exact absurd heval hne

/-- The narrower nodes stir if they do below some child. -/
theorem exists_stirs_child_iff (hcs : tree.comparers.Lawful)
    (hs : tree.store.Diagram tree.comparers {v | tree.store.Reachable v})
    (hhere : tree.store.Reachable here) :
    (∃ k ∈ tree.store.children here, tree.Stirs m k) ↔
      ∃ u, tree.Loud m u ∧ tree.store.relate tree.comparers u here = .specializes := by
  have hord := Store.orderly_relate hcs tree.store
  have hcovers := hs.covers here hhere
  constructor
  · rintro ⟨k, hk, u, hu, huk⟩
    exact ⟨u, hu, hord.specializes_of_isCovered_of_specializes huk (hcovers.narrower k hk)⟩
  · rintro ⟨u, hu, hbelow⟩
    obtain ⟨k, hk, huk⟩ := hcovers.covering u hu.1 hbelow
    exact ⟨k, hk, u, hu, huk⟩

/-- **A node stirs** if it is loud or a child stirs. -/
theorem stirs_iff (hcs : tree.comparers.Lawful)
    (hs : tree.store.Diagram tree.comparers {v | tree.store.Reachable v})
    (hhere : tree.store.Reachable here) :
    tree.Stirs m here ↔
      (∃ k ∈ tree.store.children here, tree.Stirs m k) ∨ tree.candidates m here ≠ [] := by
  rw [exists_stirs_child_iff hcs hs hhere]
  constructor
  · rintro ⟨u, hu, huh⟩
    rcases (Relationship.isCovered_iff _).mp huh with hequal | hbelow
    · right
      rw [← hs.distinct u hu.1 here hhere hequal]
      exact hu.2
    · exact .inl ⟨u, hu, hbelow⟩
  · rintro (⟨u, hu, hbelow⟩ | hloud)
    · exact ⟨u, hu, Relationship.isCovered_of_specializes hbelow⟩
    · exact ⟨here, ⟨hhere, hloud⟩, Store.isCovered_self hcs (hs.stored here hhere)⟩

/-! ## The invariant of the search -/

/-- **The invariant of a search.** -/
structure Searching (tree : Tree α) (m : Memory) (st : Search) : Prop where
  /-- Answers are right. -/
  answer : ∀ v b, st.answers.get? v = some b →
    tree.store.Reachable v ∧ (b = true ↔ tree.Stirs m v)
  /-- With a node all narrower ones are answered. -/
  below : ∀ v, st.answers.has v = true → ∀ u, tree.store.Reachable u →
    tree.store.relate tree.comparers u v = .specializes → st.answers.has u = true
  /-- Of the nodes answered the foremost ones fired, for all their candidates. -/
  mem_firings : ∀ t v, (t, v) ∈ st.firings ↔
    st.answers.has v = true ∧ tree.Foremost m v ∧ t ∈ tree.candidates m v
  /-- Nothing fired twice. -/
  nodup : st.firings.Nodup

namespace Searching

/-- At the start nothing was answered. -/
theorem start (tree : Tree α) (m : Memory) : tree.Searching m ⟨.empty, []⟩ := by
  have hnone : ∀ v, ¬ (Marks.empty : Marks Bool).has v = true := Marks.not_has_empty
  exact {
    answer := fun v b hget => by
      rw [Marks.get?_empty] at hget
      exact (Option.some_ne_none b hget.symm).elim
    below := fun v hhas => absurd hhas (hnone v)
    mem_firings := fun t v => ⟨fun h => absurd h List.not_mem_nil, fun h => absurd h.1 (hnone v)⟩
    nodup := .nil }

/-- **Answering one more node**, all narrower ones being answered. -/
theorem answered (h : tree.Searching m st) (hhere : tree.store.Reachable here)
    (hnew : ¬ st.answers.has here = true)
    (hbelow : ∀ u, tree.store.Reachable u →
      tree.store.relate tree.comparers u here = .specializes → st.answers.has u = true)
    {firing : List TriggerId} {fired : Bool} (hfired : fired = true ↔ tree.Stirs m here)
    (hfiring : ∀ t, t ∈ firing ↔ tree.Foremost m here ∧ t ∈ tree.candidates m here)
    (hnodup : firing.Nodup) :
    tree.Searching m
      { answers := st.answers.set here fired
        firings := st.firings ++ firing.map fun t => (t, here) } where
  answer v b hget := by
    rw [Marks.get?_set] at hget
    split at hget
    · next heq =>
      obtain rfl := Option.some.inj hget
      rw [heq]
      exact ⟨hhere, hfired⟩
    · exact h.answer v b hget
  below v hhas u hu huv := by
    rw [Marks.has_set] at hhas ⊢
    right
    rcases hhas with rfl | hhas
    · exact hbelow u hu huv
    · exact h.below v hhas u hu huv
  mem_firings t v := by
    rw [List.mem_append, h.mem_firings, List.mem_map, Marks.has_set]
    constructor
    · rintro (⟨hhas, hrest⟩ | ⟨t', ht', heq⟩)
      · exact ⟨.inr hhas, hrest⟩
      · obtain ⟨rfl, rfl⟩ := Prod.mk.inj heq
        exact ⟨.inl rfl, (hfiring _).mp ht'⟩
    · rintro ⟨rfl | hhas, hrest⟩
      · exact .inr ⟨t, (hfiring t).mpr hrest, rfl⟩
      · exact .inl ⟨hhas, hrest⟩
  nodup := by
    refine List.nodup_append.mpr ⟨h.nodup, hnodup.map fun a b hab => (Prod.mk.inj hab).1, ?_⟩
    rintro ⟨t, v⟩ hold f hf rfl
    obtain ⟨t', -, heq⟩ := List.mem_map.mp hf
    obtain ⟨-, rfl⟩ := Prod.mk.inj heq
    exact hnew ((h.mem_firings t _).mp hold).1

end Searching

/-! ## The whole search -/

/-- No node shows a trigger twice. -/
def ShowsOnce (tree : Tree α) : Prop :=
  ∀ v, tree.store.Reachable v → ∀ n, tree.store.get? v = some n → n.visible.Nodup

/-- **What a search at and below a node comes to**, relative to the state `st` it
started from. -/
structure Searched (tree : Tree α) (m : Memory) (here : NodeId) (st : Search)
    (result : Bool × Search) : Prop where
  /-- The answer is right. -/
  answer : result.1 = true ↔ tree.Stirs m here
  /-- The invariant is kept. -/
  searching : tree.Searching m result.2
  /-- The node is answered. -/
  self : result.2.answers.has here = true
  /-- Nodes that were answered stay so. -/
  mono : ∀ v, st.answers.has v = true → result.2.answers.has v = true
  /-- Nodes that were not answered before are at most as wide. -/
  new : ∀ v, result.2.answers.has v = true →
    st.answers.has v = true ∨ (tree.store.relate tree.comparers v here).isCovered = true

/-- **Searching the children** of a node that is not answered: whether one of them
stirs, that all narrower nodes are answered, and that the node itself is not. -/
theorem visitAll_search (hcs : tree.comparers.Lawful)
    (hs : tree.store.Diagram tree.comparers {v | tree.store.Reachable v})
    (h : tree.Searching m st) (hhere : tree.store.Reachable here)
    (hnew : ¬ st.answers.has here = true) {visit : NodeId → Search → Bool × Search}
    (hvisit : ∀ k ∈ tree.store.children here, ∀ st, tree.Searching m st →
      tree.Searched m k st (visit k st)) :
    ∃ below st', visitAll visit (tree.store.children here) st = (below, st') ∧
      (below.contains true = true ↔ ∃ k ∈ tree.store.children here, tree.Stirs m k) ∧
      tree.Searching m st' ∧ ¬ st'.answers.has here = true ∧
      (∀ u, tree.store.Reachable u → tree.store.relate tree.comparers u here = .specializes →
        st'.answers.has u = true) ∧
      (∀ v, st.answers.has v = true → st'.answers.has v = true) ∧
      ∀ v, st'.answers.has v = true →
        st.answers.has v = true ∨ tree.store.relate tree.comparers v here = .specializes := by
  classical
  have hord := Store.orderly_relate hcs tree.store
  have hcovers := hs.covers here hhere
  obtain ⟨st', hloop, hinv, hdone, hmono, hback⟩ := visitAll_marks visit
    (tree.Searching m) (fun a v => a.answers.has v = true)
    (fun v => tree.store.relate tree.comparers v here = .specializes)
    (fun k => decide (tree.Stirs m k))
    (fun k hk a ha => by
      have hsearched := hvisit k hk a ha
      refine ⟨Bool.eq_iff_iff.mpr (hsearched.answer.trans decide_eq_true_iff.symm),
        hsearched.searching, hsearched.self, hsearched.mono, fun v hv => ?_⟩
      exact (hsearched.new v hv).imp id fun hle =>
        hord.specializes_of_isCovered_of_specializes hle (hcovers.narrower k hk))
    h
  refine ⟨_, st', hloop, ?_, hinv, fun hhas => ?_, fun u hu hlt => ?_, hmono, hback⟩
  · rw [List.contains_iff_mem, List.mem_map]
    exact exists_congr fun k => and_congr_right fun _ => decide_eq_true_iff
  · show False
    rcases hback here hhas with hold | hlt
    · exact hnew hold
    · exact hord.specializes_irrefl here hlt
  · -- a narrower node is at or below a child, and that was searched
    obtain ⟨k, hk, huk⟩ := hcovers.covering u hu hlt
    rcases (Relationship.isCovered_iff _).mp huk with hequal | hlt
    · rw [hs.distinct u hu k (hcovers.mem k hk) hequal]
      exact hdone k hk
    · exact hinv.below k (hdone k hk) u hu hlt

/-- **A node fires for its candidates** if no child stirs, and then it is foremost. -/
theorem mem_firing_iff (hcs : tree.comparers.Lawful)
    (hs : tree.store.Diagram tree.comparers {v | tree.store.Reachable v})
    (hhere : tree.store.Reachable here) {below : Bool}
    (hbelow : below = true ↔ ∃ k ∈ tree.store.children here, tree.Stirs m k) (t : TriggerId) :
    t ∈ (if below then [] else tree.candidates m here) ↔
      tree.Foremost m here ∧ t ∈ tree.candidates m here := by
  rw [exists_stirs_child_iff hcs hs hhere] at hbelow
  cases below with
  | true =>
    obtain ⟨u, hu, hlt⟩ := hbelow.mp rfl
    exact ⟨fun h => absurd h List.not_mem_nil, fun h => absurd hlt (h.1.2 u hu)⟩
  | false =>
    refine ⟨fun ht => ⟨⟨⟨hhere, List.ne_nil_of_mem ht⟩, fun u hu hlt => ?_⟩, ht⟩, And.right⟩
    exact Bool.false_ne_true (hbelow.mpr ⟨u, hu, hlt⟩)

/-- **A node stirs** if a child does or the node fires. -/
theorem fired_iff (hcs : tree.comparers.Lawful)
    (hs : tree.store.Diagram tree.comparers {v | tree.store.Reachable v})
    (hhere : tree.store.Reachable here) {below : Bool}
    (hbelow : below = true ↔ ∃ k ∈ tree.store.children here, tree.Stirs m k) :
    (below || !(if below then [] else tree.candidates m here).isEmpty) = true ↔
      tree.Stirs m here := by
  rw [stirs_iff hcs hs hhere, ← hbelow]
  cases below with
  | true => exact ⟨fun _ => .inl rfl, fun _ => rfl⟩
  | false =>
    rw [Bool.false_or, Bool.not_eq_true', if_neg Bool.false_ne_true, List.isEmpty_eq_false_iff]
    exact ⟨.inr, fun h => h.resolve_left Bool.false_ne_true⟩

/-- No candidate is listed twice. -/
theorem ShowsOnce.nodup_candidates (h : tree.ShowsOnce) (hhere : tree.store.Reachable here)
    (m : Memory) : (tree.candidates m here).Nodup := by
  unfold candidates
  split
  · next n hn =>
    unfold firingAt
    split
    · exact (h here hhere n hn).filter _
    · exact .nil
  · exact .nil

/-- **Searching at and below a node** answers it rightly. The induction is on the
fuel, which exceeds the height. -/
theorem search_spec (hcs : tree.comparers.Lawful)
    (hs : tree.store.Diagram tree.comparers {v | tree.store.Reachable v})
    (honce : tree.ShowsOnce) (m : Memory) (fuel : Nat) :
    ∀ here, tree.store.Reachable here → tree.store.height tree.comparers here < fuel →
      ∀ st, tree.Searching m st → tree.Searched m here st (tree.search m fuel here st) := by
  induction fuel with
  | zero => exact fun _ _ hfuel => absurd hfuel (Nat.not_lt_zero _)
  | succ fuel ih =>
    intro here hhere hfuel st h
    rw [search]
    cases hget : st.answers.get? here with
    | some fired =>
      refine ⟨(h.answer here fired hget).2, h, ?_, fun _ hv => hv, fun _ hv => .inl hv⟩
      rw [Marks.has, hget]
      rfl
    | none =>
      have hnew : ¬ st.answers.has here = true := by
        rw [Marks.has, hget]
        exact Bool.false_ne_true
      obtain ⟨n, hn⟩ := Option.isSome_iff_exists.mp (hs.stored here hhere)
      have hchildren : n.children = tree.store.children here := by rw [Store.children, hn]
      have hcandidates : tree.firingAt m n = tree.candidates m here := by rw [candidates, hn]
      obtain ⟨below, st', hloop, hbelow, hinv, hstill, hnarrower, hmono, hback⟩ :=
        visitAll_search hcs hs h hhere hnew fun k hk =>
          ih k ((hs.covers here hhere).mem k hk) (by
            have := Store.height_lt hcs ((hs.covers here hhere).narrower k hk)
            omega)
      have hnodup : (if below.contains true then [] else tree.candidates m here).Nodup := by
        split
        · exact .nil
        · exact honce.nodup_candidates hhere m
      have hfired := fired_iff hcs hs hhere hbelow
      simp only [hn, hchildren, hcandidates, hloop]
      exact {
        answer := hfired
        searching := hinv.answered hhere hstill hnarrower hfired
          (mem_firing_iff hcs hs hhere hbelow) hnodup
        self := (Marks.has_set _ _ _ _).mpr (.inl rfl)
        mono := fun v hv => (Marks.has_set _ _ _ _).mpr (.inr (hmono v hv))
        new := fun v hv => by
          rcases (Marks.has_set _ _ _ _).mp hv with rfl | hv
          · exact .inr (Store.isCovered_self hcs (hs.stored v hhere))
          · exact (hback v hv).imp id Relationship.isCovered_of_specializes }

/-- **What fired where**: the foremost nodes, for all their candidates, once each. -/
theorem firings_spec (hcs : tree.comparers.Lawful)
    (hs : tree.store.Diagram tree.comparers {v | tree.store.Reachable v})
    (honce : tree.ShowsOnce) (m : Memory) :
    (tree.firings m).Nodup ∧
      ∀ t v, (t, v) ∈ tree.firings m ↔ tree.Foremost m v ∧ t ∈ tree.candidates m v := by
  obtain ⟨-, hinv, hroot, -, -⟩ := search_spec hcs hs honce m tree.store.depthBound .root
    hs.root_mem
    (Nat.lt_of_succ_lt (Store.height_succ_lt_depthBound hcs (hs.stored _ hs.root_mem)))
    _ (Searching.start tree m)
  refine ⟨hinv.nodup, fun t v => (hinv.mem_firings t v).trans ⟨And.right, fun h => ⟨?_, h⟩⟩⟩
  by_cases hne : v = .root
  · rw [hne]
    exact hroot
  · exact hinv.below .root hroot v h.1.1.1 (hs.below_root v h.1.1.1 hne)

/-- **Visible triggers are listed once**, in every reached tree. -/
theorem Reached.showsOnce [DecidableEq α] {opts : List Optimizer}
    {ok : Tree α → Change α → Prop} (hcs : cs.Lawful) (h : Reached ok cs opts tree) :
    tree.ShowsOnce := by
  have hall := h.allNodes (P := fun n => n.visible.Nodup) hcs .nil
    (fun c t => List.nodup_singleton t)
    (fun judge t _ hn => Node.nodup_visible_join judge t hn)
    (fun judge t _ _ hn => Node.nodup_visible_without judge t hn)
  intro v hv n hn
  exact hall v hv n.bare (Store.bare_eq_some hn)

end Tree

end Specificity
