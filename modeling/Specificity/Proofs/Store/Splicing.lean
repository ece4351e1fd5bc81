import Specificity.Proofs.Store.Joining
import Specificity.Proofs.Store.Placing
import Specificity.Proofs.Visiting

/-!
# Withdrawing a trigger

A withdrawal visits every node once, takes the trigger from it, and splices
out the children that have nothing left to show once all of them were visited.
What a node is left with depends on the node alone, so it is known beforehand
which nodes are silent in the end (`Store.silenced`) and which remain
(`Store.remaining`).

Splicing out one child is followed on the list of children: the list is
`Store.Overtaking` while silent children are still `rest`, or children of the
one just spliced out are still `due`. A node is open between its own withdrawal
and the splicing of its children; `Store.Splicing` is the invariant of the
withdrawal, with the open nodes as a parameter.
-/

namespace Specificity

namespace Store

variable {α : Type} {cs : Comparers} {r : Register α} {trigger : TriggerId}
  {s t : Store} {V W K : Set NodeId} {here c g : NodeId} {rest due ks : List NodeId}
  {w : Withdrawal}

/-! ## Taking over the children of silent children -/

/-- **Taking over a child** of one that was spliced out. -/
def takeOver (cs : Comparers) (here : NodeId) (s : Store) (child : NodeId) : Store :=
  s.place cs s.depthBound here child

/-- **The children of `here` while silent ones are spliced out**, those in `rest`
yet to go and those in `due` yet to be taken over. -/
structure Overtaking (cs : Comparers) (s : Store) (V W : Set NodeId) (here : NodeId)
    (rest due ks : List NodeId) : Prop where
  /-- Children are narrower members. -/
  mem : ∀ k ∈ ks, k ∈ V ∧ s.relate cs k here = .specializes
  /-- Children are incomparable to each other. -/
  siblings : ks.Pairwise fun a b => s.relate cs a b = .incomparable
  /-- Children remain or have yet to go. -/
  kept : ∀ k ∈ ks, k ∈ W ∨ k ∈ rest
  /-- Remaining narrower members are at or below a child or one yet to be taken over. -/
  covering : ∀ v ∈ W, s.relate cs v here = .specializes →
    (∃ k ∈ ks, (s.relate cs v k).isCovered = true) ∨
      ∃ k ∈ due, (s.relate cs v k).isCovered = true

namespace Overtaking

/-- At the start the children are those of the diagram. -/
theorem start (hWV : W ⊆ V) (h : s.CoversAt cs V here)
    (hrest : ∀ k ∈ s.children here, k ∈ W ∨ k ∈ rest) :
    Overtaking cs s V W here rest [] (s.children here) where
  mem k hk := ⟨h.mem k hk, h.narrower k hk⟩
  siblings := h.siblings
  kept := hrest
  covering v hv hbelow := .inl (h.covering v (hWV hv) hbelow)

/-- **A silent child goes**, and its children are due. -/
theorem drop (h : Overtaking cs s V W here (c :: rest) [] ks)
    (hmem : ∀ v ∈ W, s.relate cs v c ≠ .equal)
    (hcovers : ∀ v ∈ W, s.relate cs v c = .specializes →
      ∃ k ∈ due, (s.relate cs v k).isCovered = true) :
    Overtaking cs s V W here rest due (ks.filter fun k => k ≠ c) where
  mem k hk := h.mem k (List.mem_filter.mp hk).1
  siblings := h.siblings.filter _
  kept k hk := by
    obtain ⟨hk, hne⟩ := List.mem_filter.mp hk
    exact (h.kept k hk).imp id fun hrest =>
      (List.mem_cons.mp hrest).resolve_left (of_decide_eq_true hne)
  covering v hv hbelow := by
    obtain ⟨k, hk, hvk⟩ := (h.covering v hv hbelow).resolve_right fun ⟨k, hk, _⟩ =>
      List.not_mem_nil hk
    by_cases hkc : k = c
    · subst hkc
      exact .inr (hcovers v hv (((Relationship.isCovered_iff _).mp hvk).resolve_left (hmem v hv)))
    · exact .inl ⟨k, List.mem_filter.mpr ⟨hk, by simpa using hkc⟩, hvk⟩

/-- **One that is due is taken over.** -/
theorem take (hcs : cs.Lawful) (h : Overtaking cs s V W here rest (g :: due) ks) (hgV : g ∈ V)
    (hgW : g ∈ W) (hnarrow : s.relate cs g here = .specializes) :
    Overtaking cs s V W here rest due (Relationship.adopt (s.relate cs) g ks) where
  mem k hk := by
    rcases Relationship.mem_or_eq_of_mem_adopt hk with hk | rfl
    · exact h.mem k hk
    · exact ⟨hgV, hnarrow⟩
  siblings := Relationship.pairwise_adopt (orderly_relate hcs s) h.siblings
  kept k hk := by
    rcases Relationship.mem_or_eq_of_mem_adopt hk with hk | rfl
    · exact h.kept k hk
    · exact .inl hgW
  covering v hv hbelow := by
    have hadopt := fun h' => Relationship.exists_isCovered_adopt ks v g
      (orderly_relate hcs s) h'
    rcases h.covering v hv hbelow with hk | ⟨k, hk, hvk⟩
    · exact .inl (hadopt (.inl hk))
    · rcases List.mem_cons.mp hk with rfl | hk
      · exact .inl (hadopt (.inr hvk))
      · exact .inr ⟨k, hk, hvk⟩

/-- At the end the children are the widest of the remaining members. -/
theorem finish (h : Overtaking cs s V W here [] [] ks) (hks : t.children here = ks)
    (hrel : t.relate cs = s.relate cs) : t.CoversAt cs W here := by
  subst hks
  exact {
    mem := fun k hk => (h.kept k hk).resolve_right List.not_mem_nil
    narrower := by
      rw [hrel]
      exact fun k hk => (h.mem k hk).2
    siblings := by
      rw [hrel]
      exact h.siblings
    covering := by
      rw [hrel]
      exact fun v hv hbelow => (h.covering v hv hbelow).resolve_right fun ⟨k, hk, _⟩ =>
        List.not_mem_nil hk }

end Overtaking

/-- **Where a node is overtaken**: the members below it have the widest remaining
ones as children, and the children to be spliced out are among those it had. -/
structure Overtaken (cs : Comparers) (s : Store) (V W : Set NodeId) (here : NodeId) (t : Store) :
    Prop where
  /-- Nodes have the clauses they had. -/
  relate : t.relate cs = s.relate cs
  /-- The same slots are in use. -/
  isSome : ∀ v, (t.get? v).isSome = (s.get? v).isSome
  /-- Members below have the widest remaining ones as children. -/
  covers : ∀ u ∈ V, s.relate cs u here = .specializes → t.CoversAt cs W u

namespace Overtaken

theorem rewire (h : Overtaken cs s V W here t) (hcs : cs.Lawful) (ks : List NodeId) :
    Overtaken cs s V W here (t.rewire here ks) := by
  have hrewired := rewired_rewire t here ks
  refine ⟨(hrewired.relate cs).trans h.relate, fun v => (hrewired.isSome v).trans (h.isSome v),
    fun u hu hbelow => (h.covers u hu hbelow).congr (hrewired.relate cs) ?_⟩
  refine children_rewire_of_ne ?_ t ks
  rintro rfl
  exact (orderly_relate hcs s).specializes_irrefl _ hbelow

/-- **Taking over one node** is adopting it into the list of children. Those it
replaces remain, because a silent child of `here` that were narrower than it
would be narrower than its sibling `c`. -/
theorem takeOver_eq_rewire (h : Overtaken cs s V W here t) (hcs : cs.Lawful) (hs : s.Diagram cs V)
    (hWV : W ⊆ V) (hhere : here ∈ V)
    (hks : Overtaking cs s V W here rest (g :: due) (t.children here))
    (hrest : ∀ k ∈ rest, k ∈ s.children here) (hc : c ∈ s.children here) (hcrest : c ∉ rest)
    (hg : g ∈ W) (hgc : s.relate cs g c = .specializes) :
    t.takeOver cs here g =
      t.rewire here (Relationship.adopt (s.relate cs) g (t.children here)) := by
  have hord := orderly_relate hcs s
  have hgbelow : s.relate cs g here = .specializes :=
    hord.specializes_trans hgc ((hs.covers here hhere).narrower c hc)
  rw [← h.relate]
  refine Store.place_eq_rewire hcs (D := {v | v ∈ V ∧ s.relate cs v here = .specializes})
    (W := {v | v ∈ W ∧ s.relate cs v here = .specializes}) (fun v hv => ⟨hWV hv.1, hv.2⟩)
    ?_ ?_ ?_ ?_ ⟨hg, hgbelow⟩ hks.mem ?_
  · rintro u ⟨hu, hbelow⟩
    have hcovers := h.covers u hu hbelow
    refine ⟨fun k hk => ⟨hcovers.mem k hk, ?_⟩, hcovers.narrower, hcovers.siblings,
      fun v hv => hcovers.covering v hv.1⟩
    have hku := hcovers.narrower k hk
    rw [h.relate] at hku
    exact hord.specializes_trans hku hbelow
  · exact fun hself => hord.specializes_irrefl _ hself.2
  · show (t.get? here).isSome = true
    rw [h.isSome, hs.stored here hhere]
  · rintro u ⟨hu, -⟩
    show (t.get? u).isSome = true
    rw [h.isSome, hs.stored u hu]
  · intro k hk hgk
    rw [h.relate] at hgk
    refine ⟨(hks.kept k hk).resolve_right fun hkrest => ?_, (hks.mem k hk).2⟩
    show False
    -- `k` is below its sibling `c`
    have hkc : s.relate cs k c = .specializes :=
      hord.specializes_trans (hord.generalizes_iff.mp hgk) hgc
    have hsiblings := (hs.covers here hhere).incomparable hcs (hrest k hkrest) hc
      (ne_of_mem_of_not_mem hkrest hcrest)
    exact absurd (hkc.symm.trans hsiblings) (by decide)

/-- **Taking over all that are due.** -/
theorem foldl_takeOver (h : Overtaken cs s V W here t) (hcs : cs.Lawful) (hs : s.Diagram cs V)
    (hWV : W ⊆ V) (hhere : here ∈ V)
    (hks : Overtaking cs s V W here rest due (t.children here))
    (hrest : ∀ k ∈ rest, k ∈ s.children here) (hc : c ∈ s.children here) (hcrest : c ∉ rest)
    (hdue : ∀ g ∈ due, g ∈ W ∧ s.relate cs g c = .specializes) :
    ∃ ks, due.foldl (takeOver cs here) t = t.rewire here ks ∧
      Overtaking cs s V W here rest [] ks := by
  induction due generalizing t with
  | nil => exact ⟨t.children here, (rewire_children t here).symm, hks⟩
  | cons g due ih =>
    obtain ⟨hg, hgc⟩ := hdue g List.mem_cons_self
    have hstored : (t.get? here).isSome = true := by rw [h.isSome, hs.stored here hhere]
    have hgbelow := (orderly_relate hcs s).specializes_trans hgc
      ((hs.covers here hhere).narrower c hc)
    have htake := hks.take hcs (hWV hg) hg hgbelow
    obtain ⟨ls, hls, htaken⟩ := ih (h.rewire hcs _)
      (by rw [children_rewire_self hstored]; exact htake)
      fun g hg => hdue g (List.mem_cons_of_mem _ hg)
    refine ⟨ls, ?_, htaken⟩
    rw [List.foldl_cons, h.takeOver_eq_rewire hcs hs hWV hhere hks hrest hc hcrest hg hgc, hls,
      rewire_rewire]

/-- **Splicing out a silent child** gives `here` another list of children. -/
theorem splice (h : Overtaken cs s V W here t) (hcs : cs.Lawful) (hs : s.Diagram cs V)
    (hWV : W ⊆ V) (hhere : here ∈ V)
    (hks : Overtaking cs s V W here (c :: rest) [] (t.children here))
    (hrest : ∀ k ∈ c :: rest, k ∈ s.children here ∧ k ∉ W) (hnodup : (c :: rest).Nodup) :
    ∃ ks, t.splice cs here c = t.rewire here ks ∧ Overtaking cs s V W here rest [] ks := by
  have hord := orderly_relate hcs s
  obtain ⟨hc, hcW⟩ := hrest c List.mem_cons_self
  have hcV := (hs.covers here hhere).mem c hc
  have hcbelow := (hs.covers here hhere).narrower c hc
  have hcovers := h.covers c hcV hcbelow
  have hstored : (t.get? here).isSome = true := by rw [h.isSome, hs.stored here hhere]
  have hne : c ≠ here := by
    rintro rfl
    exact hord.specializes_irrefl _ hcbelow
  -- what was below `c` is below one of its children, and these are taken over next
  have hdrop : Overtaking cs s V W here rest (t.children c)
      ((t.children here).filter fun k => k ≠ c) := by
    refine hks.drop (fun v hv hequal => ?_) fun v hv hbelow => ?_
    · rw [hs.distinct v (hWV hv) c hcV hequal] at hv
      exact hcW hv
    · obtain ⟨k, hk, hvk⟩ := hcovers.covering v hv (by rw [h.relate]; exact hbelow)
      rw [h.relate] at hvk
      exact ⟨k, hk, hvk⟩
  obtain ⟨ks, hfold, htaken⟩ := (h.rewire hcs _).foldl_takeOver hcs hs hWV hhere
    (by rw [children_rewire_self hstored]; exact hdrop)
    (fun k hk => (hrest k (List.mem_cons_of_mem _ hk)).1) hc (List.nodup_cons.mp hnodup).1
    fun g hg => ⟨hcovers.mem g hg, by rw [← h.relate]; exact hcovers.narrower g hg⟩
  refine ⟨ks, ?_, htaken⟩
  unfold Store.splice
  rw [unlink_eq_rewire]
  show List.foldl (takeOver cs here) _ (children _ c) = _
  rw [children_rewire_of_ne hne, hfold, rewire_rewire]

/-- **Splicing out all silent children** leaves the widest remaining members. -/
theorem foldl_splice (h : Overtaken cs s V W here t) (hcs : cs.Lawful) (hs : s.Diagram cs V)
    (hWV : W ⊆ V) (hhere : here ∈ V)
    (hks : Overtaking cs s V W here rest [] (t.children here))
    (hrest : ∀ k ∈ rest, k ∈ s.children here ∧ k ∉ W) (hnodup : rest.Nodup) :
    ∃ ks, rest.foldl (Store.splice cs here) t = t.rewire here ks ∧
      Overtaking cs s V W here [] [] ks := by
  induction rest generalizing t with
  | nil => exact ⟨t.children here, (rewire_children t here).symm, hks⟩
  | cons c rest ih =>
    have hstored : (t.get? here).isSome = true := by rw [h.isSome, hs.stored here hhere]
    obtain ⟨ks, hsplice, hspliced⟩ := h.splice hcs hs hWV hhere hks hrest hnodup
    obtain ⟨ls, hls, hdone⟩ := ih (h.rewire hcs ks)
      (by rw [children_rewire_self hstored]; exact hspliced)
      (fun k hk => hrest k (List.mem_cons_of_mem _ hk)) (List.nodup_cons.mp hnodup).2
    refine ⟨ls, ?_, hdone⟩
    rw [List.foldl_cons, hsplice, hls, rewire_rewire]

end Overtaken

/-! ## What remains -/

/-- Does the node in a slot have nothing to show without the trigger? -/
def silenced (cs : Comparers) (r : Register α) (trigger : TriggerId) (s : Store)
    (v : NodeId) : Bool :=
  (s.bare v).any fun n => (n.without (r.relate cs) trigger).visible.isEmpty

/-- **The nodes that remain**: the root, and those not silenced. -/
def remaining (cs : Comparers) (r : Register α) (trigger : TriggerId) (s : Store)
    (V : Set NodeId) : Set NodeId :=
  {v | v ∈ V ∧ (v = .root ∨ ¬ s.silenced cs r trigger v = true)}

theorem remaining_subset (cs : Comparers) (r : Register α) (trigger : TriggerId) (s : Store)
    (V : Set NodeId) : s.remaining cs r trigger V ⊆ V := fun _ hv => hv.1

/-! ## The invariant of a withdrawal -/

/-- **The invariant of a withdrawal**, relative to the store `s` it started from. The
open nodes `K` were met, but their silent children are still there. -/
structure Splicing (cs : Comparers) (r : Register α) (trigger : TriggerId) (s : Store)
    (V K : Set NodeId) (w : Withdrawal) : Prop where
  /-- There are as many slots. -/
  size : w.store.slots.size = s.slots.size
  /-- The same slots are free. -/
  free : w.store.free = s.free
  /-- The trigger was taken from the nodes that were met. -/
  bare : ∀ v, w.store.bare v =
    if w.met.has v = true then (s.bare v).map (Node.without (r.relate cs) trigger)
    else s.bare v
  /-- Only members were met. -/
  met_mem : ∀ v, w.met.has v = true → v ∈ V
  /-- Members not met, and those open, have the children they had. -/
  kept : ∀ v ∈ V, ¬ (w.met.has v = true ∧ v ∉ K) → w.store.children v = s.children v
  /-- Other members have the widest remaining ones. -/
  spliced : ∀ v, w.met.has v = true → v ∉ K →
    w.store.CoversAt cs (s.remaining cs r trigger V) v
  /-- With a member that is not open all narrower ones were met. -/
  below : ∀ v, w.met.has v = true → v ∉ K → ∀ u ∈ V, s.relate cs u v = .specializes →
    w.met.has u = true ∧ u ∉ K
  /-- The trigger was found if a node that was met carried it. -/
  found : w.found = true ↔
    ∃ v n, w.met.has v = true ∧ s.get? v = some n ∧ trigger ∈ n.carried

namespace Splicing

theorem clause (h : Splicing cs r trigger s V K w) (v : NodeId) :
    (w.store.get? v).map Node.clause = (s.get? v).map Node.clause := by
  rw [← clause_bare, ← clause_bare, h.bare]
  split
  · rw [Option.map_map]
    exact congrArg (fun f => Option.map f _) (funext (Node.clause_without _ _))
  · rfl

theorem relate (h : Splicing cs r trigger s V K w) : w.store.relate cs = s.relate cs :=
  relate_congr h.clause cs

theorem isSome (h : Splicing cs r trigger s V K w) (v : NodeId) :
    (w.store.get? v).isSome = (s.get? v).isSome := by
  rw [← Option.isSome_map (f := Node.clause), h.clause, Option.isSome_map]

/-- A node that was met is silent if it is silenced. -/
theorem isSilent (h : Splicing cs r trigger s V K w) {v : NodeId} (hmet : w.met.has v = true) :
    w.store.isSilent v = s.silenced cs r trigger v := by
  have hany : ∀ u : Store, u.isSilent v = (u.bare v).any fun n => n.visible.isEmpty := fun u => by
    rw [Store.isSilent, Store.bare, Option.any_map]
    rfl
  rw [hany, h.bare, if_pos hmet, Option.any_map]
  rfl

/-- At the start nothing was met. -/
theorem start (cs : Comparers) (r : Register α) (trigger : TriggerId) (s : Store)
    (V : Set NodeId) : Splicing cs r trigger s V ∅ ⟨s, .empty, false⟩ := by
  have hnone : ∀ v, ¬ (Marks.empty : Marks Unit).has v = true := Marks.not_has_empty
  exact {
    size := by
      rfl
    free := by
      rfl
    bare := fun v => (if_neg (hnone v)).symm
    met_mem := fun v hmet => absurd hmet (hnone v)
    kept := fun _ _ _ => rfl
    spliced := fun v hmet => absurd hmet (hnone v)
    below := fun v hmet => absurd hmet (hnone v)
    found := ⟨fun hfound => absurd hfound Bool.false_ne_true,
      fun ⟨v, _, hmet, _⟩ => absurd hmet (hnone v)⟩ }

/-! ### Opening a node -/

/-- The withdrawal at one node: the node is marked, and the trigger taken from it. -/
theorem withdrawHere_eq (cs : Comparers) (r : Register α) (trigger : TriggerId)
    (here : NodeId) (w : Withdrawal) :
    (withdrawHere cs r trigger here w).met = w.met.set here () ∧
      ((withdrawHere cs r trigger here w).store =
        w.store.update here (Node.without (r.relate cs) trigger)) ∧
      ((withdrawHere cs r trigger here w).found = true ↔
        w.found = true ∨ ∃ n, w.store.get? here = some n ∧ trigger ∈ n.carried) := by
  cases hget : w.store.get? here with
  | none =>
    have hnone : ¬ ∃ n, (none : Option Node) = some n ∧ trigger ∈ n.carried := by
      rintro ⟨n, hn, -⟩
      exact Option.some_ne_none n hn.symm
    simp only [withdrawHere, hget]
    refine ⟨trivial, (ext_get? (slots_size_update _ _ _) rfl fun v => ?_).symm,
      ⟨.inl, fun hor => hor.resolve_right hnone⟩⟩
    rw [get?_update]
    split
    · next heq => rw [heq, hget]; rfl
    · rfl
  | some n =>
    by_cases hcarried : n.carried.contains trigger = true
    · simp only [withdrawHere, hget, hcarried, if_true]
      refine ⟨trivial, ext_get? ?_ rfl fun v => ?_, ?_⟩
      · rw [slots_size_update, slots_size_update]
      · rw [get?_update, get?_update]
        split
        · next heq =>
          rw [heq, hget, Option.map_some, Option.map_some, Node.without, if_pos hcarried]
        · rfl
      · exact ⟨fun _ => .inr ⟨n, rfl, by simpa using hcarried⟩, fun _ => trivial⟩
    · simp only [withdrawHere, hget, hcarried, Bool.false_eq_true, if_false]
      refine ⟨trivial, ext_get? (slots_size_update _ _ _).symm rfl fun v => ?_, ?_⟩
      · rw [get?_update]
        split
        · next heq =>
          rw [heq, hget, Option.map_some, Node.without, if_neg hcarried]
        · rfl
      · have hnot : trigger ∉ n.carried := by simpa using hcarried
        simp [hnot]

/-- The withdrawal at one node meets that node. -/
theorem has_withdrawHere (cs : Comparers) (r : Register α) (trigger : TriggerId)
    (here : NodeId) (w : Withdrawal) (v : NodeId) :
    (withdrawHere cs r trigger here w).met.has v = true ↔ v = here ∨ w.met.has v = true := by
  rw [(withdrawHere_eq cs r trigger here w).1, Marks.has_set]

/-- Whether a node carries a trigger does not depend on its children. -/
theorem exists_carried_iff_bare (s : Store) (trigger : TriggerId) (v : NodeId) :
    (∃ n, s.get? v = some n ∧ trigger ∈ n.carried) ↔
      ∃ n, s.bare v = some n ∧ trigger ∈ n.carried := by
  unfold Store.bare
  cases s.get? v <;> simp [Node.bare]

/-- A node that was not met carries what it carried. -/
theorem exists_carried_iff (h : Splicing cs r trigger s V K w)
    (hnew : ¬ w.met.has here = true) :
    (∃ n, w.store.get? here = some n ∧ trigger ∈ n.carried) ↔
      ∃ n, s.get? here = some n ∧ trigger ∈ n.carried := by
  rw [exists_carried_iff_bare, exists_carried_iff_bare, h.bare, if_neg hnew]

/-- **Opening a node**: it is met, and its children are still the ones it had. -/
theorem opened (h : Splicing cs r trigger s V K w) (hhere : here ∈ V)
    (hnew : ¬ w.met.has here = true) :
    Splicing cs r trigger s V (K ∪ {here}) (withdrawHere cs r trigger here w) := by
  obtain ⟨-, hstore, hfound⟩ := withdrawHere_eq cs r trigger here w
  have hhas := has_withdrawHere cs r trigger here w
  have hchildren : ∀ v, (withdrawHere cs r trigger here w).store.children v =
      w.store.children v := fun v => by
    rw [hstore, children_update (Node.children_without _ _)]
  -- the nodes that are met and not open are the same as before
  have hsettled : ∀ v, ((withdrawHere cs r trigger here w).met.has v = true ∧ v ∉ K ∪ {here}) ↔
      (w.met.has v = true ∧ v ∉ K) := by
    intro v
    rw [hhas]
    constructor
    · rintro ⟨hv, hK⟩
      exact ⟨hv.resolve_left fun heq => hK (.inr heq), fun hmem => hK (.inl hmem)⟩
    · rintro ⟨hv, hK⟩
      refine ⟨.inr hv, ?_⟩
      rintro (hmem | rfl)
      · exact hK hmem
      · exact hnew hv
  exact {
    size := by
      rw [hstore, slots_size_update, h.size]
    free := by
      rw [hstore]
      exact h.free
    bare := fun v => by
      rw [hstore]
      by_cases hv : v = here
      · subst hv
        rw [if_pos ((hhas v).mpr (.inl rfl)), bare_update_self _ _ (Node.bare_without _ _), h.bare,
          if_neg hnew]
      · rw [bare_update_of_ne hv, h.bare]
        simp only [hhas, hv, false_or]
    met_mem := fun v hv => by
      rcases (hhas v).mp hv with rfl | hv
      · exact hhere
      · exact h.met_mem v hv
    kept := fun v hv hnot => by
      rw [hchildren]
      exact h.kept v hv fun hmem => hnot ((hsettled v).mpr hmem)
    spliced := fun v hv hK => by
      obtain ⟨hv, hK⟩ := (hsettled v).mp ⟨hv, hK⟩
      refine (h.spliced v hv hK).congr (relate_congr (fun u => ?_) cs) (hchildren v)
      rw [hstore, clause_update (Node.clause_without _ _)]
    below := fun v hv hK u hu hbelow => by
      obtain ⟨hv, hK⟩ := (hsettled v).mp ⟨hv, hK⟩
      exact (hsettled u).mpr (h.below v hv hK u hu hbelow)
    found := by
      rw [hfound, h.found, h.exists_carried_iff hnew]
      constructor
      · rintro (⟨v, n, hv, hn⟩ | ⟨n, hn⟩)
        · exact ⟨v, n, (hhas v).mpr (.inr hv), hn⟩
        · exact ⟨here, n, (hhas here).mpr (.inl rfl), hn⟩
      · rintro ⟨v, n, hv, hn⟩
        rcases (hhas v).mp hv with rfl | hv
        · exact .inr ⟨n, hn⟩
        · exact .inl ⟨v, n, hv, hn⟩ }

/-! ### Closing a node -/

/-- With the children of a node all members below it were met. -/
theorem met_below (h : Splicing cs r trigger s V K w) (hs : s.Diagram cs V) (hhere : here ∈ V)
    (hmet : ∀ k ∈ s.children here, w.met.has k = true ∧ k ∉ K) {u : NodeId} (hu : u ∈ V)
    (hbelow : s.relate cs u here = .specializes) : w.met.has u = true ∧ u ∉ K := by
  obtain ⟨k, hk, huk⟩ := (hs.covers here hhere).covering u hu hbelow
  obtain ⟨hkmet, hkK⟩ := hmet k hk
  rcases (Relationship.isCovered_iff _).mp huk with hequal | hlt
  · rw [hs.distinct u hu k ((hs.covers here hhere).mem k hk) hequal]
    exact ⟨hkmet, hkK⟩
  · exact h.below k hkmet hkK u hu hlt

/-- With its children met, everything below a node is spliced already. -/
theorem overtaken (h : Splicing cs r trigger s V K w) (hs : s.Diagram cs V) (hhere : here ∈ V)
    (hmet : ∀ k ∈ s.children here, w.met.has k = true ∧ k ∉ K) :
    Overtaken cs s V (s.remaining cs r trigger V) here w.store := by
  refine ⟨h.relate, h.isSome, fun u hu hbelow => ?_⟩
  obtain ⟨humet, huK⟩ := h.met_below hs hhere hmet hu hbelow
  exact h.spliced u humet huK

/-- **Splicing the silent children out** leaves a node with the widest members below it
that remain. -/
theorem foldl_splice_eq_rewire (h : Splicing cs r trigger s V K w) (hcs : cs.Lawful)
    (hs : s.Diagram cs V) (hhere : here ∈ V)
    (hchildren : w.store.children here = s.children here)
    (hmet : ∀ k ∈ s.children here, w.met.has k = true ∧ k ∉ K) :
    ∃ ks, ((s.children here).filter (s.silenced cs r trigger)).foldl (splice cs here) w.store =
        w.store.rewire here ks ∧
      Overtaking cs s V (s.remaining cs r trigger V) here [] [] ks := by
  have hord := orderly_relate hcs s
  have hcovers := hs.covers here hhere
  have hrest : ∀ k ∈ (s.children here).filter (s.silenced cs r trigger),
      k ∈ s.children here ∧ k ∉ s.remaining cs r trigger V := by
    intro k hk
    obtain ⟨hk, hsilent⟩ := List.mem_filter.mp hk
    refine ⟨hk, fun hmem => ?_⟩
    rcases hmem.2 with rfl | hnot
    · -- the root is below nothing
      exact hord.specializes_irrefl .root (hord.specializes_of_specializes_of_isCovered
        (hcovers.narrower _ hk) (hs.isCovered_root hcs hhere))
    · exact hnot hsilent
  have hstart : Overtaking cs s V (s.remaining cs r trigger V) here
      ((s.children here).filter (s.silenced cs r trigger)) [] (w.store.children here) := by
    rw [hchildren]
    refine .start (remaining_subset _ _ _ _ _) hcovers fun k hk => ?_
    by_cases hsilent : s.silenced cs r trigger k = true
    · exact .inr (List.mem_filter.mpr ⟨hk, hsilent⟩)
    · exact .inl ⟨hcovers.mem k hk, .inr hsilent⟩
  exact (h.overtaken hs hhere hmet).foldl_splice hcs hs (remaining_subset _ _ _ _ _) hhere
    hstart hrest ((hcovers.nodup hcs).filter _)

/-- **Closing a node**: its silent children are spliced out. -/
theorem closed (h : Splicing cs r trigger s V (K ∪ {here}) w) (hcs : cs.Lawful)
    (hs : s.Diagram cs V) (hhere : here ∈ V) (hself : w.met.has here = true) (hK : here ∉ K)
    (hmet : ∀ k ∈ s.children here, w.met.has k = true ∧ k ∉ K ∪ {here}) :
    Splicing cs r trigger s V K
      { w with
        store := ((s.children here).filter (s.silenced cs r trigger)).foldl
          (splice cs here) w.store } := by
  have hchildren : w.store.children here = s.children here :=
    h.kept here hhere fun hnot => hnot.2 (.inr rfl)
  obtain ⟨ks, hfold, hdone⟩ := h.foldl_splice_eq_rewire hcs hs hhere hchildren hmet
  rw [hfold]
  have hrewired := rewired_rewire w.store here ks
  have hwiden : ∀ v, v ∉ K → v ≠ here → v ∉ K ∪ {here} := by
    rintro v hvK hne (hmem | hmem)
    · exact hvK hmem
    · exact hne hmem
  exact {
    size := hrewired.size.trans h.size
    free := hrewired.free.trans h.free
    bare := fun v => by
      rw [hrewired.bare, h.bare]
    met_mem := h.met_mem
    kept := fun v hv hnot => by
      have hne : v ≠ here := by
        rintro rfl
        exact hnot ⟨hself, hK⟩
      rw [children_rewire_of_ne hne]
      exact h.kept v hv fun hmem => hnot ⟨hmem.1, fun hvK => hmem.2 (.inl hvK)⟩
    spliced := fun v hv hvK => by
      by_cases hne : v = here
      · subst hne
        refine hdone.finish (children_rewire_self ?_ ks) ((hrewired.relate cs).trans h.relate)
        rw [h.isSome, hs.stored v hhere]
      · exact (h.spliced v hv (hwiden v hvK hne)).congr (hrewired.relate cs)
          (children_rewire_of_ne hne _ _)
    below := fun v hv hvK u hu hbelow => by
      have hbelow' : w.met.has u = true ∧ u ∉ K ∪ {here} := by
        by_cases hne : v = here
        · subst hne
          exact h.met_below hs hhere hmet hu hbelow
        · exact h.below v hv (hwiden v hvK hne) u hu hbelow
      exact ⟨hbelow'.1, fun huK => hbelow'.2 (.inl huK)⟩
    found := h.found }

end Splicing

/-! ## The whole withdrawal -/

/-- The withdrawal at and below a child, and whether the child is silent then. -/
def withdrawChild (cs : Comparers) (r : Register α) (trigger : TriggerId) (fuel : Nat)
    (child : NodeId) (w : Withdrawal) : Bool × Withdrawal :=
  ((withdrawBelow cs r trigger fuel child w).store.isSilent child,
    withdrawBelow cs r trigger fuel child w)

/-- The withdrawal at a node and from its children down, before any of them is spliced out. -/
def withdrawChildren (cs : Comparers) (r : Register α) (trigger : TriggerId) (fuel : Nat)
    (here : NodeId) (w : Withdrawal) : List Bool × Withdrawal :=
  visitAll (withdrawChild cs r trigger fuel)
    ((withdrawHere cs r trigger here w).store.children here) (withdrawHere cs r trigger here w)

/-- **A withdrawal at a node that was not met** ends with the silent children spliced out. -/
theorem withdrawBelow_succ (h : ¬ w.met.has here = true) (fuel : Nat) :
    withdrawBelow cs r trigger (fuel + 1) here w =
      { (withdrawChildren cs r trigger fuel here w).2 with
        store := (selected ((withdrawHere cs r trigger here w).store.children here)
          (withdrawChildren cs r trigger fuel here w).1).foldl (splice cs here)
          (withdrawChildren cs r trigger fuel here w).2.store } := by
  rw [withdrawBelow, if_neg h]
  rfl

/-- **The promise of a visit** to `k`: the invariant is kept, the node was met
afterwards, and so were those that had been. -/
def WithdrawsAt (cs : Comparers) (r : Register α) (trigger : TriggerId) (s : Store)
    (V K : Set NodeId) (visit : NodeId → Withdrawal → Withdrawal) (k : NodeId) : Prop :=
  ∀ w, Splicing cs r trigger s V K w →
    Splicing cs r trigger s V K (visit k w) ∧ (visit k w).met.has k = true ∧
      ∀ v, w.met.has v = true → (visit k w).met.has v = true

/-- **Visiting the children** of an open node: they answer whether they are silenced,
and all were met afterwards. -/
theorem visitAll_withdraw {fuel : Nat} {ks : List NodeId}
    (hvisit : ∀ k ∈ ks, WithdrawsAt cs r trigger s V K (withdrawBelow cs r trigger fuel) k)
    (h : Splicing cs r trigger s V K w) :
    ∃ w', visitAll (withdrawChild cs r trigger fuel) ks w =
        (ks.map (s.silenced cs r trigger), w') ∧
      Splicing cs r trigger s V K w' ∧ (∀ k ∈ ks, w'.met.has k = true) ∧
      ∀ v, w.met.has v = true → w'.met.has v = true := by
  obtain ⟨w', hloop, hinv, hdone, hmono, -⟩ := visitAll_marks
    (withdrawChild cs r trigger fuel)
    (Splicing cs r trigger s V K) (fun a v => a.met.has v = true) (fun _ => True)
    (s.silenced cs r trigger)
    (fun k hk a ha => by
      obtain ⟨hinv, hself, hmono⟩ := hvisit k hk a ha
      exact ⟨hinv.isSilent hself, hinv, hself, hmono, fun _ _ => .inr trivial⟩)
    h
  exact ⟨w', hloop, hinv, hdone, hmono⟩

/-- **The withdrawal at and below a member** keeps the invariant, and the member was
met afterwards. The open nodes are above it, so none of its children is open. -/
theorem withdrawBelow_spec (hcs : cs.Lawful) (hs : s.Diagram cs V) (fuel : Nat) :
    ∀ here ∈ V, s.height cs here < fuel → ∀ K : Set NodeId, here ∉ K →
      (∀ k ∈ K, s.relate cs here k = .specializes) →
      WithdrawsAt cs r trigger s V K (withdrawBelow cs r trigger fuel) here := by
  have hord := orderly_relate hcs s
  induction fuel with
  | zero => exact fun _ _ hfuel => absurd hfuel (Nat.not_lt_zero _)
  | succ fuel ih =>
    intro here hhere hfuel K hK habove w h
    by_cases hmet : w.met.has here = true
    · rw [withdrawBelow, if_pos hmet]
      exact ⟨h, hmet, fun _ hv => hv⟩
    · have hopened := h.opened hhere hmet
      have hhas := Splicing.has_withdrawHere cs r trigger here w
      set w' := withdrawHere cs r trigger here w with hw'
      have hchildren : w'.store.children here = s.children here :=
        hopened.kept here hhere fun hnot => hnot.2 (.inr rfl)
      have hcovers := hs.covers here hhere
      -- the children are below whatever is open, `here` included
      have hbelow : ∀ k ∈ s.children here, ∀ l ∈ K ∪ {here},
          s.relate cs k l = .specializes := by
        rintro k hk l (hl | rfl)
        · exact hord.specializes_trans (hcovers.narrower k hk) (habove l hl)
        · exact hcovers.narrower k hk
      have hnotopen : ∀ k ∈ s.children here, k ∉ K ∪ {here} := fun k hk hmem =>
        hord.specializes_irrefl k (hbelow k hk k hmem)
      have hvisit : ∀ k ∈ s.children here,
          WithdrawsAt cs r trigger s V (K ∪ {here}) (withdrawBelow cs r trigger fuel) k := by
        intro k hk
        have hlt := height_lt hcs (hcovers.narrower k hk)
        exact ih k (hcovers.mem k hk) (by omega) _ (hnotopen k hk) (hbelow k hk)
      obtain ⟨w'', hloop, hinv, hdone, hmono⟩ := visitAll_withdraw hvisit hopened
      have hself : w''.met.has here = true := hmono here ((hhas here).mpr (.inl rfl))
      rw [withdrawBelow_succ hmet]
      simp only [withdrawChildren, ← hw', hchildren, hloop, selected_map]
      exact ⟨hinv.closed hcs hs hhere hself hK fun k hk => ⟨hdone k hk, hnotopen k hk⟩, hself,
        fun v hv => hmono v ((hhas v).mpr (.inr hv))⟩

/-- **What a withdrawal comes to**: a covering diagram of the nodes that remain,
each without the trigger, and whether it was found. -/
structure Withdrawn (cs : Comparers) (r : Register α) (trigger : TriggerId) (s : Store)
    (V : Set NodeId) (found : Bool) (t : Store) : Prop where
  /-- The nodes that remain form a covering diagram. -/
  diagram : t.Diagram cs (s.remaining cs r trigger V)
  /-- Every member is without the trigger. -/
  bare : ∀ v ∈ V, t.bare v = (s.bare v).map (Node.without (r.relate cs) trigger)
  /-- There are as many slots. -/
  size : t.slots.size = s.slots.size
  /-- The same slots are free. -/
  free : t.free = s.free
  /-- The same slots are in use. -/
  isSome : ∀ v, (t.get? v).isSome = (s.get? v).isSome
  /-- The trigger was found if a member carried it. -/
  found : found = true ↔ ∃ v ∈ V, ∃ n, s.get? v = some n ∧ trigger ∈ n.carried

/-- **Withdrawing a trigger from a covering diagram.** -/
theorem withdraw_spec (hcs : cs.Lawful) (hs : s.Diagram cs V) (r : Register α)
    (trigger : TriggerId) :
    Withdrawn cs r trigger s V (s.withdraw cs r trigger).1 (s.withdraw cs r trigger).2 := by
  obtain ⟨h, hroot, -⟩ := withdrawBelow_spec hcs hs s.depthBound .root hs.root_mem
    (Nat.lt_of_succ_lt (height_succ_lt_depthBound hcs (hs.stored _ hs.root_mem))) ∅
    (Set.notMem_empty _) (fun k hk => absurd hk (Set.notMem_empty k)) _
    (Splicing.start cs r trigger s V)
  have hmet : ∀ v ∈ V, (withdrawBelow cs r trigger s.depthBound .root
      ⟨s, .empty, false⟩).met.has v = true := by
    intro v hv
    by_cases hne : v = .root
    · rw [hne]
      exact hroot
    · exact (h.below .root hroot (Set.notMem_empty _) v hv (hs.below_root v hv hne)).1
  exact {
    diagram := {
      root_mem := ⟨hs.root_mem, .inl rfl⟩
      root_clause := (h.clause .root).trans hs.root_clause
      below_root := fun v hv hne =>
        (congrFun (congrFun h.relate v) _).trans (hs.below_root v hv.1 hne)
      stored := fun v hv => (h.isSome v).trans (hs.stored v hv.1)
      distinct := fun u hu v hv hequal =>
        hs.distinct u hu.1 v hv.1 ((congrFun (congrFun h.relate u) v).symm.trans hequal)
      covers := fun u hu => h.spliced u (hmet u hu.1) (Set.notMem_empty u) }
    bare := fun v hv => (h.bare v).trans (if_pos (hmet v hv))
    size := h.size
    free := h.free
    isSome := h.isSome
    found := by
      refine h.found.trans ?_
      constructor
      · rintro ⟨v, n, hv, hn⟩
        exact ⟨v, h.met_mem v hv, n, hn⟩
      · rintro ⟨v, hv, n, hn⟩
        exact ⟨v, n, hmet v hv, hn⟩ }

end Store

end Specificity
