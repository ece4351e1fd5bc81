import Specificity.Proofs.Store.Joining
import Specificity.Proofs.Store.Placing
import Specificity.Proofs.Visiting

/-!
# The descent of an incoming node

A clause comes in as a node `x` that is stored but not yet linked, and sinks
through the covering diagram `V` of the nodes that are. What becomes of it at
a node is settled by how that node relates to `x` alone (`Store.destiny`), so
the outcomes that the descent remembers need no history: a node visited from
several parents has one answer.

`Store.Sinking` is the invariant of the descent. All lists of children are as
they were, except that `x` has replaced the narrower children of a wider node
none of whose children is equal or wider (`Store.Lowest`), and that the
children of `x` are the widest of the narrower nodes met so far.
-/

namespace Specificity

/-! ## What outcomes come to -/

namespace Outcome

/-- An outcome without a say: there is no place for the trigger at and below the node. -/
def Pending (o : Outcome) : Prop := o = .unplaced ∨ o = .adopted

/-- One place is enough. -/
theorem combine_eq_placed {outcomes : List Outcome} (h : .placed ∈ outcomes) :
    combine outcomes = .placed := by
  rw [combine, if_pos (List.contains_iff_mem.mpr h)]

/-- Outcomes without a say come to nothing. -/
theorem combine_eq_unplaced {outcomes : List Outcome} (h : ∀ o ∈ outcomes, o.Pending) :
    combine outcomes = .unplaced := by
  have hnot : ∀ o : Outcome, ¬ o.Pending → ¬ outcomes.contains o = true := fun o ho hmem =>
    ho (h o (List.contains_iff_mem.mp hmem))
  rw [combine, if_neg (hnot .placed ?_), if_neg (hnot .present ?_)] <;>
    rintro (h | h) <;> exact Outcome.noConfusion h

end Outcome

namespace Store

variable {α : Type} [DecidableEq α] {cs : Comparers} {r : Register α} {trigger : TriggerId}
  {s : Store} {V : Set NodeId} {x here : NodeId} {fate : Outcome} {d : Descent}

/-! ## What is to become of the incoming node -/

/-- The outcome at a node: `fate` if it is equal or wider. -/
def destiny (cs : Comparers) (s : Store) (x : NodeId) (fate : Outcome) (v : NodeId) : Outcome :=
  match s.relate cs v x with
  | .equal | .generalizes => fate
  | .specializes => .adopted
  | .incomparable => .unplaced

/-- Is `v` wider than `x`, and none of its children equal or wider? -/
def Lowest (cs : Comparers) (s : Store) (x v : NodeId) : Prop :=
  s.relate cs v x = .generalizes ∧ ∀ k ∈ s.children v, ¬ (s.relate cs k x).covers = true

/-- The children of `v` with `x` in place of the narrower ones. -/
def settled (cs : Comparers) (s : Store) (x v : NodeId) : List NodeId :=
  (s.children v).filter (fun k => s.relate cs k x ≠ .specializes) ++ [x]

/-- **A node comes in**: stored, without children, and not a member of the
diagram; `fate` is what joining an equal member comes to, or that the node is
placed where there is none. -/
structure Incoming (cs : Comparers) (r : Register α) (trigger : TriggerId) (s : Store)
    (V : Set NodeId) (x : NodeId) (fate : Outcome) : Prop where
  /-- The registry is lawful. -/
  lawful : cs.Lawful
  /-- The members form a covering diagram. -/
  diagram : s.Diagram cs V
  /-- The node is no member. -/
  fresh : x ∉ V
  /-- The node is stored. -/
  stored : (s.get? x).isSome = true
  /-- The node has no children. -/
  leaf : s.children x = []
  /-- Joining an equal member comes to the fate. -/
  fate_equal : ∀ e ∈ V, s.relate cs e x = .equal → (s.join cs r trigger e).1 = fate
  /-- Without an equal member the node is placed. -/
  fate_placed : (∀ e ∈ V, s.relate cs e x ≠ .equal) → fate = .placed
  /-- The trigger has its place, or a trigger with its action was there before. -/
  fate_cases : fate = .placed ∨ fate = .present

namespace Incoming

theorem orderly (h : Incoming cs r trigger s V x fate) :
    Relationship.Orderly (s.relate cs) := orderly_relate h.lawful s

/-- Below an incomparable node nothing is equal or wider. -/
theorem not_covers_of_incomparable (h : Incoming cs r trigger s V x fate) (hhere : here ∈ V)
    (hrel : s.relate cs here x = .incomparable) {k : NodeId} (hk : k ∈ s.children here) :
    ¬ (s.relate cs k x).covers = true := by
  intro hcovers
  rw [h.orderly.covers_flip] at hcovers
  have hbelow := h.orderly.specializes_of_isCovered_of_specializes hcovers
    ((h.diagram.covers here hhere).narrower k hk)
  rw [← h.orderly.generalizes_iff, hrel] at hbelow
  exact absurd hbelow (by decide)

/-- Below a narrower node everything is narrower. -/
theorem specializes_of_specializes (h : Incoming cs r trigger s V x fate) (hhere : here ∈ V)
    (hrel : s.relate cs here x = .specializes) {k : NodeId} (hk : k ∈ s.children here) :
    s.relate cs k x = .specializes :=
  h.orderly.specializes_trans ((h.diagram.covers here hhere).narrower k hk) hrel

/-- **The outcomes at the children come to the fate** if one of them is equal or
wider, and to nothing otherwise. -/
theorem combine_destiny (h : Incoming cs r trigger s V x fate) (ks : List NodeId) :
    ((∃ k ∈ ks, (s.relate cs k x).covers = true) →
      Outcome.combine (ks.map (destiny cs s x fate)) = fate) ∧
    ((∀ k ∈ ks, ¬ (s.relate cs k x).covers = true) →
      Outcome.combine (ks.map (destiny cs s x fate)) = .unplaced) := by
  -- a child that is equal or wider has the fate, any other one has no say
  have hfate : ∀ k, (s.relate cs k x).covers = true → destiny cs s x fate k = fate := by
    intro k hk
    unfold destiny
    rcases (Relationship.covers_iff _).mp hk with hrel | hrel <;> rw [hrel]
  have hother : ∀ k, ¬ (s.relate cs k x).covers = true → (destiny cs s x fate k).Pending := by
    intro k hk
    unfold destiny Outcome.Pending
    cases hrel : s.relate cs k x <;> simp [hrel] at hk ⊢
  constructor
  · rintro ⟨k, hk, hcovers⟩
    have hmem : fate ∈ ks.map (destiny cs s x fate) :=
      List.mem_map.mpr ⟨k, hk, hfate k hcovers⟩
    rcases h.fate_cases with rfl | rfl
    · exact Outcome.combine_eq_placed hmem
    · have hnot : Outcome.placed ∉ ks.map (destiny cs s x .present) := by
        intro hplaced
        obtain ⟨l, -, hl⟩ := List.mem_map.mp hplaced
        by_cases hcov : (s.relate cs l x).covers = true
        · exact absurd ((hfate l hcov).symm.trans hl) (by decide)
        · rcases hother l hcov with h' | h' <;> exact absurd (h'.symm.trans hl) (by decide)
      unfold Outcome.combine
      rw [if_neg (by simpa using hnot), if_pos (by simpa using hmem)]
  · intro hnone
    refine Outcome.combine_eq_unplaced fun o ho => ?_
    obtain ⟨l, hl, rfl⟩ := List.mem_map.mp ho
    exact hother l (hnone l hl)

/-- Above an equal member there is no lowest wider one. -/
theorem not_lowest (h : Incoming cs r trigger s V x fate) {e : NodeId} (he : e ∈ V)
    (hequal : s.relate cs e x = .equal) (hhere : here ∈ V) : ¬ Lowest cs s x here := by
  intro hlow
  have hbelow : s.relate cs e here = .specializes := by
    rw [h.orderly.eq_of_equal hequal, ← h.orderly.generalizes_iff]
    exact hlow.1
  obtain ⟨k, hk, hek⟩ := (h.diagram.covers here hhere).covering e he hbelow
  refine hlow.2 k hk ?_
  rw [h.orderly.covers_flip, ← h.orderly.eq_of_equal hequal]
  exact hek

/-- **Where the incoming node settles, it is placed**: there is no equal member. -/
theorem fate_eq_placed_of_lowest (h : Incoming cs r trigger s V x fate) (hhere : here ∈ V)
    (hlow : Lowest cs s x here) : fate = .placed :=
  h.fate_placed fun _ he hequal => h.not_lowest he hequal hhere hlow

end Incoming

/-! ## The invariant of the descent -/

/-- **The invariant of a descent**, relative to the store `s` it started from. -/
structure Sinking (cs : Comparers) (r : Register α) (trigger : TriggerId) (s : Store)
    (V : Set NodeId) (x : NodeId) (fate : Outcome) (d : Descent) : Prop where
  /-- There are as many slots. -/
  size : d.store.slots.size = s.slots.size
  /-- The same slots are free. -/
  free : d.store.free = s.free
  /-- Bare nodes are as they were, but for an equal one that was joined. -/
  bare : ∀ v, d.store.bare v =
    if d.outcomes.has v = true ∧ s.relate cs v x = .equal
    then (s.join cs r trigger v).2.bare v else s.bare v
  /-- Members without the lowest wider ones have the children they had. -/
  kept : ∀ v ∈ V, ¬ (d.outcomes.has v = true ∧ Lowest cs s x v) →
    d.store.children v = s.children v
  /-- The lowest wider members have `x` in place of the narrower children. -/
  settled : ∀ v ∈ V, d.outcomes.has v = true → Lowest cs s x v →
    d.store.children v = settled cs s x v
  /-- The children of `x` are members narrower than it. -/
  adopted_mem : ∀ k ∈ d.store.children x, k ∈ V ∧ s.relate cs k x = .specializes
  /-- The children of `x` are incomparable to each other. -/
  adopted_siblings : (d.store.children x).Pairwise fun a b => s.relate cs a b = .incomparable
  /-- Narrower members that were met are at or below a child of `x`. -/
  adopted_covering : ∀ v ∈ V, d.outcomes.has v = true → s.relate cs v x = .specializes →
    ∃ k ∈ d.store.children x, (s.relate cs v k).isCovered = true
  /-- Only members were met, and each has its outcome. -/
  outcome : ∀ v o, d.outcomes.get? v = some o → v ∈ V ∧ o = destiny cs s x fate v
  /-- The children of a wider or incomparable node that was met were met. -/
  closed : ∀ v, d.outcomes.has v = true → s.relate cs v x ≠ .specializes →
    s.relate cs v x ≠ .equal → ∀ k ∈ s.children v, d.outcomes.has k = true

namespace Sinking

theorem clause (hd : Sinking cs r trigger s V x fate d) (v : NodeId) :
    (d.store.get? v).map Node.clause = (s.get? v).map Node.clause := by
  rw [← clause_bare, ← clause_bare, hd.bare]
  split
  · rw [clause_bare, clause_bare, clause_join]
  · rfl

theorem relate (hd : Sinking cs r trigger s V x fate d) :
    d.store.relate cs = s.relate cs := relate_congr hd.clause cs

theorem isSome (hd : Sinking cs r trigger s V x fate d) (v : NodeId) :
    (d.store.get? v).isSome = (s.get? v).isSome := by
  rw [← Option.isSome_map (f := Node.clause), hd.clause, Option.isSome_map]

/-- A node that was not met has the children it had. -/
theorem children_of_not_has (hd : Sinking cs r trigger s V x fate d) (hhere : here ∈ V)
    (hnew : ¬ d.outcomes.has here = true) : d.store.children here = s.children here :=
  hd.kept here hhere fun h => hnew h.1

/-- **Meeting one more node.** The store may change at that node, if it is equal
or a lowest wider one, and at `x`, if it is narrower. -/
theorem mark (h : Incoming cs r trigger s V x fate) (hd : Sinking cs r trigger s V x fate d)
    (hhere : here ∈ V) (hnew : ¬ d.outcomes.has here = true) {store : Store}
    (hsize : store.slots.size = s.slots.size) (hfree : store.free = s.free)
    (hbare : ∀ v, store.bare v = if v = here ∧ s.relate cs v x = .equal
      then (s.join cs r trigger v).2.bare v else d.store.bare v)
    (hkept : ∀ v ∈ V, ¬ (v = here ∧ Lowest cs s x v) → store.children v = d.store.children v)
    (hsettled : Lowest cs s x here → store.children here = Store.settled cs s x here)
    (hadopted : store.children x = if s.relate cs here x = .specializes
      then Relationship.adopt (s.relate cs) here (d.store.children x) else d.store.children x)
    (hclosed : s.relate cs here x ≠ .specializes → s.relate cs here x ≠ .equal →
      ∀ k ∈ s.children here, d.outcomes.has k = true) :
    Sinking cs r trigger s V x fate
      { store, outcomes := d.outcomes.set here (destiny cs s x fate here) } where
  size := hsize
  free := hfree
  bare v := by
    rw [hbare, hd.bare]
    simp only [Marks.has_set]
    -- only an equal node is joined, and only at `here` is that new
    by_cases hrel : s.relate cs v x = .equal
    · by_cases hv : v = here
      · rw [if_pos ⟨hv, hrel⟩, if_pos ⟨.inl hv, hrel⟩]
      · simp only [hv, false_and, if_false, false_or]
    · simp only [hrel, and_false, if_false]
  kept v hv hnot := by
    rw [Marks.has_set] at hnot
    rw [hkept v hv fun hlow => hnot ⟨.inl hlow.1, hlow.2⟩]
    exact hd.kept v hv fun hlow => hnot ⟨.inr hlow.1, hlow.2⟩
  settled v hv hhas hlow := by
    by_cases hvhere : v = here
    · subst hvhere
      exact hsettled hlow
    · rw [hkept v hv fun heq => hvhere heq.1]
      exact hd.settled v hv (((Marks.has_set _ _ _ _).mp hhas).resolve_left hvhere) hlow
  adopted_mem k hk := by
    rw [hadopted] at hk
    split at hk
    · next hrel =>
      rcases Relationship.mem_or_eq_of_mem_adopt hk with hk | rfl
      · exact hd.adopted_mem k hk
      · exact ⟨hhere, hrel⟩
    · exact hd.adopted_mem k hk
  adopted_siblings := by
    rw [hadopted]
    split
    · exact Relationship.pairwise_adopt h.orderly hd.adopted_siblings
    · exact hd.adopted_siblings
  adopted_covering v hv hhas hrel := by
    rw [Marks.has_set] at hhas
    rw [hadopted]
    split
    · refine Relationship.exists_isCovered_adopt _ _ _ h.orderly ?_
      rcases hhas with rfl | hhas
      · exact .inr (isCovered_self h.lawful (h.diagram.stored v hv))
      · exact .inl (hd.adopted_covering v hv hhas hrel)
    · next hnot =>
      refine hd.adopted_covering v hv (hhas.resolve_left ?_) hrel
      rintro rfl
      exact hnot hrel
  outcome v o hget := by
    rw [Marks.get?_set] at hget
    split at hget
    · next heq =>
      subst heq
      exact ⟨hhere, (Option.some.inj hget).symm⟩
    · exact hd.outcome v o hget
  closed v hhas hspec hequal k hk := by
    rw [Marks.has_set] at hhas ⊢
    right
    rcases hhas with rfl | hhas
    · exact hclosed hspec hequal k hk
    · exact hd.closed v hhas hspec hequal k hk

end Sinking

/-! ## One step and the whole descent -/

/-- What a visit adds to the nodes met: all of them at or below `here`, and
`here` among them. -/
structure MetBelow (cs : Comparers) (s : Store) (here : NodeId) (d d' : Descent) : Prop where
  /-- Nodes that were met stay met. -/
  mono : ∀ v, d.outcomes.has v = true → d'.outcomes.has v = true
  /-- The node itself was met. -/
  self : d'.outcomes.has here = true
  /-- Nodes that were not met before are at most as wide. -/
  new : ∀ v, d'.outcomes.has v = true →
    d.outcomes.has v = true ∨ (s.relate cs v here).isCovered = true

/-- **The promise of a visit** to `k`: the node has its outcome, the invariant is kept,
and the node and some below it were met. -/
def SinksAt (cs : Comparers) (r : Register α) (trigger : TriggerId) (s : Store) (V : Set NodeId)
    (x : NodeId) (fate : Outcome) (visit : NodeId → Descent → Outcome × Descent) (k : NodeId) :
    Prop :=
  ∀ d, Sinking cs r trigger s V x fate d →
    (visit k d).1 = destiny cs s x fate k ∧ Sinking cs r trigger s V x fate (visit k d).2 ∧
      MetBelow cs s k d (visit k d).2

/-- **Visiting the children** of a node that was not met: their outcomes, and that
the node itself is still not met. -/
theorem visitAll_sink (h : Incoming cs r trigger s V x fate)
    (hd : Sinking cs r trigger s V x fate d) (hhere : here ∈ V)
    (hnew : ¬ d.outcomes.has here = true) {visit : NodeId → Descent → Outcome × Descent}
    (hvisit : ∀ k ∈ s.children here, SinksAt cs r trigger s V x fate visit k) :
    ∃ d', visitAll visit (s.children here) d =
        ((s.children here).map (destiny cs s x fate), d') ∧
      Sinking cs r trigger s V x fate d' ∧
      (∀ v, d.outcomes.has v = true → d'.outcomes.has v = true) ∧
      (∀ v, d'.outcomes.has v = true →
        d.outcomes.has v = true ∨ s.relate cs v here = .specializes) ∧
      (∀ k ∈ s.children here, d'.outcomes.has k = true) ∧
      ¬ d'.outcomes.has here = true := by
  obtain ⟨d', hloop, hinv, hdone, hmono, hback⟩ := visitAll_marks visit
    (Sinking cs r trigger s V x fate) (fun a v => a.outcomes.has v = true)
    (fun v => s.relate cs v here = .specializes) (destiny cs s x fate)
    (fun k hk a ha => by
      obtain ⟨hanswer, hinv, hmet⟩ := hvisit k hk a ha
      refine ⟨hanswer, hinv, hmet.self, hmet.mono, fun v hv => (hmet.new v hv).imp id fun hle => ?_⟩
      exact h.orderly.specializes_of_isCovered_of_specializes hle
        ((h.diagram.covers here hhere).narrower k hk))
    hd
  refine ⟨d', hloop, hinv, hmono, hback, hdone, fun hhas => ?_⟩
  -- whatever was met on the way is narrower than the node itself
  rcases hback here hhas with hold | hlt
  · exact hnew hold
  · exact h.orderly.specializes_irrefl here hlt

/-- Marking the node after its children were visited. -/
theorem metBelow_set (h : Incoming cs r trigger s V x fate) (hhere : here ∈ V) {d' : Descent}
    (hmono : ∀ v, d.outcomes.has v = true → d'.outcomes.has v = true)
    (hback : ∀ v, d'.outcomes.has v = true →
      d.outcomes.has v = true ∨ s.relate cs v here = .specializes)
    (store : Store) (o : Outcome) :
    MetBelow cs s here d { store, outcomes := d'.outcomes.set here o } where
  mono v hv := (Marks.has_set _ _ _ _).mpr (.inr (hmono v hv))
  self := (Marks.has_set _ _ _ _).mpr (.inl rfl)
  new v hv := by
    rcases (Marks.has_set _ _ _ _).mp hv with rfl | hv
    · exact .inr (isCovered_self h.lawful (h.diagram.stored v hhere))
    · exact (hback v hv).imp id Relationship.isCovered_of_specializes

/-- The narrower members have all of the narrower members below them. -/
theorem Incoming.coversAt_narrower (h : Incoming cs r trigger s V x fate) {u : NodeId}
    (hu : u ∈ V) (hrel : s.relate cs u x = .specializes) :
    s.CoversAt cs {v | v ∈ V ∧ s.relate cs v x = .specializes} u where
  mem k hk := ⟨(h.diagram.covers u hu).mem k hk, h.specializes_of_specializes hu hrel hk⟩
  narrower := (h.diagram.covers u hu).narrower
  siblings := (h.diagram.covers u hu).siblings
  covering v hv := (h.diagram.covers u hu).covering v hv.1

/-- **A narrower node is placed below the incoming one**, which changes the
children of the incoming one alone. -/
theorem Sinking.place_eq_rewire (h : Incoming cs r trigger s V x fate)
    (hd : Sinking cs r trigger s V x fate d) (hhere : here ∈ V)
    (hrel : s.relate cs here x = .specializes) :
    d.store.place cs d.store.depthBound x here =
      d.store.rewire x (Relationship.adopt (s.relate cs) here (d.store.children x)) := by
  rw [← hd.relate]
  refine Store.place_eq_rewire h.lawful (D := {v | v ∈ V ∧ s.relate cs v x = .specializes})
    (W := {v | v ∈ V ∧ s.relate cs v x = .specializes}) subset_rfl ?_ ?_ ?_ ?_ ⟨hhere, hrel⟩
    (fun k hk => hd.adopted_mem k hk) (fun k hk _ => hd.adopted_mem k hk)
  · -- a narrower member is not a lowest wider one, so it has the children it had
    rintro u ⟨hu, hurel⟩
    refine (h.coversAt_narrower hu hurel).congr hd.relate (hd.kept u hu fun hlow => ?_)
    exact absurd (hurel.symm.trans hlow.2.1) (by decide)
  · exact fun hx => h.fresh hx.1
  · show (d.store.get? x).isSome = true
    rw [hd.isSome, h.stored]
  · rintro u ⟨hu, -⟩
    show (d.store.get? u).isSome = true
    rw [hd.isSome, h.diagram.stored u hu]

/-- **Settling** gives a lowest wider node the incoming one in place of the narrower
children. -/
theorem Sinking.settle_eq_rewire (h : Incoming cs r trigger s V x fate)
    (hd : Sinking cs r trigger s V x fate d) (hhere : here ∈ V)
    (hnew : ¬ d.outcomes.has here = true) (hlow : Lowest cs s x here) :
    d.store.settle here x (selected (s.children here)
        (((s.children here).map (destiny cs s x fate)).map fun o => o = .adopted)) =
      d.store.rewire here (Store.settled cs s x here) := by
  have hstored : (d.store.get? here).isSome = true := by
    rw [hd.isSome, h.diagram.stored here hhere]
  have hplaced := h.fate_eq_placed_of_lowest hhere hlow
  have hadopted : ∀ k ∈ s.children here,
      (decide (destiny cs s x fate k = .adopted)) = decide (s.relate cs k x = .specializes) := by
    intro k hk
    unfold destiny
    cases hrel : s.relate cs k x <;> simp [hplaced]
  have hkept : (s.children here).filter (fun k => k ∉ (s.children here).filter
        fun k => decide (destiny cs s x fate k = .adopted))
      = (s.children here).filter fun k => s.relate cs k x ≠ .specializes := by
    refine List.filter_congr fun k hk => ?_
    simpa [hk] using hadopted k hk
  have hnotin : x ∉ s.children here := fun hx =>
    h.fresh ((h.diagram.covers here hhere).mem x hx)
  unfold settle
  rw [List.map_map]
  show (List.foldl (fun s child => s.unlink here child) d.store (selected (s.children here)
    ((s.children here).map fun k => decide (destiny cs s x fate k = .adopted)))).link here x = _
  rw [selected_map, foldl_unlink_eq_rewire, hd.children_of_not_has hhere hnew, hkept,
    link_eq_rewire, children_rewire_self hstored, rewire_rewire]
  · rfl
  · rw [children_rewire_self hstored]
    exact fun hx => hnotin (List.mem_filter.mp hx).1

/-- **What meeting a node comes to**: it has its outcome, the invariant is kept, and
the node and some below it were met. -/
def Meets (cs : Comparers) (r : Register α) (trigger : TriggerId) (s : Store) (V : Set NodeId)
    (x : NodeId) (fate : Outcome) (here : NodeId) (d : Descent) (result : Outcome × Descent) :
    Prop :=
  ∃ d', result = (destiny cs s x fate here, d') ∧
    Sinking cs r trigger s V x fate
      { d' with outcomes := d'.outcomes.set here (destiny cs s x fate here) } ∧
    MetBelow cs s here d
      { d' with outcomes := d'.outcomes.set here (destiny cs s x fate here) }

/-- Where no child is visited, only the node itself was met. -/
theorem metBelow_self (h : Incoming cs r trigger s V x fate) (hhere : here ∈ V) (store : Store) :
    MetBelow cs s here d
      { store, outcomes := d.outcomes.set here (destiny cs s x fate here) } :=
  metBelow_set h hhere (fun _ hv => hv) (fun _ hv => .inl hv) store _

/-- A node that relates in one way does not in another. -/
theorem not_and_relate {q q' : Relationship} (hrel : s.relate cs here x = q) (hne : q ≠ q')
    (v : NodeId) : ¬ (v = here ∧ s.relate cs v x = q') := by
  rintro ⟨rfl, hrel'⟩
  exact hne (hrel.symm.trans hrel')

/-- **At an equal node** the trigger joins it, or finds its action there. -/
theorem meets_equal (h : Incoming cs r trigger s V x fate)
    (hd : Sinking cs r trigger s V x fate d) (hhere : here ∈ V)
    (hnew : ¬ d.outcomes.has here = true) (visit : NodeId → Descent → Outcome × Descent)
    (hrel : s.relate cs here x = .equal) :
    Meets cs r trigger s V x fate here d (Store.meet cs r trigger x visit here d) := by
  have hnotlow : ∀ v, ¬ (v = here ∧ Lowest cs s x v) := fun v hlow =>
    not_and_relate hrel (by decide) v ⟨hlow.1, hlow.2.1⟩
  have hbare : d.store.bare here = s.bare here := by
    rw [hd.bare, if_neg fun hhas => hnew hhas.1]
  obtain ⟨houtcome, hjoined⟩ := join_congr cs r trigger hbare
  have hdestiny : destiny cs s x fate here = (s.join cs r trigger here).1 := by
    unfold destiny
    rw [hrel, h.fate_equal here hhere hrel]
  refine ⟨{ d with store := (d.store.join cs r trigger here).2 }, ?_, ?_, metBelow_self h hhere _⟩
  · show Store.meet cs r trigger x visit here d = (destiny cs s x fate here, _)
    rw [Store.meet, hd.relate, hrel, hdestiny, ← houtcome]
  · refine hd.mark h hhere hnew (slots_size_join.trans hd.size) (free_join.trans hd.free)
      (fun v => ?_) (fun v _ _ => children_join v) (fun hlow => (hnotlow here ⟨rfl, hlow⟩).elim)
      ?_ (fun _ hnot => absurd hrel hnot)
    · by_cases hv : v = here
      · subst hv
        rw [if_pos ⟨rfl, hrel⟩, hjoined]
      · rw [if_neg fun hv' => hv hv'.1, bare_join_of_ne hv]
    · show (d.store.join cs r trigger here).2.children x = _
      rw [children_join, hrel]
      rfl

/-- **At a narrower node** this one is placed below the incoming one. -/
theorem meets_specializes (h : Incoming cs r trigger s V x fate)
    (hd : Sinking cs r trigger s V x fate d) (hhere : here ∈ V)
    (hnew : ¬ d.outcomes.has here = true) (visit : NodeId → Descent → Outcome × Descent)
    (hrel : s.relate cs here x = .specializes) :
    Meets cs r trigger s V x fate here d (Store.meet cs r trigger x visit here d) := by
  have hrewired := rewired_rewire d.store x
    (Relationship.adopt (s.relate cs) here (d.store.children x))
  refine ⟨{ d with store := d.store.place cs d.store.depthBound x here }, ?_, ?_,
    metBelow_self h hhere _⟩
  · show Store.meet cs r trigger x visit here d = (destiny cs s x fate here, _)
    unfold destiny
    rw [Store.meet, hd.relate, hrel]
  · rw [hd.place_eq_rewire h hhere hrel]
    refine hd.mark h hhere hnew (hrewired.size.trans hd.size) (hrewired.free.trans hd.free)
      (fun v => ?_) (fun v hv _ => ?_)
      (fun hlow => (not_and_relate hrel (by decide) here ⟨rfl, hlow.1⟩).elim) ?_
      (fun hnot => absurd hrel hnot)
    · show (d.store.rewire x _).bare v = _
      rw [hrewired.bare, if_neg (not_and_relate hrel (by decide) v)]
    · exact children_rewire_of_ne (ne_of_mem_of_not_mem hv h.fresh) _ _
    · show (d.store.rewire x _).children x = _
      rw [if_pos hrel, children_rewire_self]
      rw [hd.isSome, h.stored]

/-- **At an incomparable node** the children decide, and none of them is equal or
wider. -/
theorem meets_incomparable (h : Incoming cs r trigger s V x fate)
    (hd : Sinking cs r trigger s V x fate d) (hhere : here ∈ V)
    (hnew : ¬ d.outcomes.has here = true) {visit : NodeId → Descent → Outcome × Descent}
    (hvisit : ∀ k ∈ s.children here, SinksAt cs r trigger s V x fate visit k)
    (hrel : s.relate cs here x = .incomparable) :
    Meets cs r trigger s V x fate here d (Store.meet cs r trigger x visit here d) := by
  obtain ⟨d', hloop, hd', hmono, hback, hdone, hstill⟩ := visitAll_sink h hd hhere hnew hvisit
  have hcombine := (h.combine_destiny (s.children here)).2 fun k hk =>
    h.not_covers_of_incomparable hhere hrel hk
  have hdestiny : destiny cs s x fate here = .unplaced := by
    unfold destiny
    rw [hrel]
  refine ⟨d', ?_, ?_, metBelow_set h hhere hmono hback _ _⟩
  · show Store.meet cs r trigger x visit here d = (destiny cs s x fate here, d')
    rw [Store.meet, hd.relate, hrel]
    simp only [hd.children_of_not_has hhere hnew, hloop, hcombine, hdestiny]
  · refine hd'.mark h hhere hstill hd'.size hd'.free
      (fun v => (if_neg (not_and_relate hrel (by decide) v)).symm) (fun _ _ _ => rfl)
      (fun hlow => (not_and_relate hrel (by decide) here ⟨rfl, hlow.1⟩).elim) ?_
      (fun _ _ => hdone)
    rw [hrel]
    rfl

/-- **At a wider node with an equal or wider child** the children decide: the incoming
node has its place there. -/
theorem meets_generalizes_of_covers (h : Incoming cs r trigger s V x fate)
    (hd : Sinking cs r trigger s V x fate d) (hhere : here ∈ V)
    (hnew : ¬ d.outcomes.has here = true) {visit : NodeId → Descent → Outcome × Descent}
    (hvisit : ∀ k ∈ s.children here, SinksAt cs r trigger s V x fate visit k)
    (hrel : s.relate cs here x = .generalizes)
    (hcovers : ∃ k ∈ s.children here, (s.relate cs k x).covers = true) :
    Meets cs r trigger s V x fate here d (Store.meet cs r trigger x visit here d) := by
  obtain ⟨d', hloop, hd', hmono, hback, hdone, hstill⟩ := visitAll_sink h hd hhere hnew hvisit
  have hdestiny : destiny cs s x fate here = fate := by
    unfold destiny
    rw [hrel]
  have hcombine := (h.combine_destiny (s.children here)).1 hcovers
  have hnotlow : ¬ Lowest cs s x here := fun hlow => by
    obtain ⟨k, hk, hck⟩ := hcovers
    exact hlow.2 k hk hck
  refine ⟨d', ?_, ?_, metBelow_set h hhere hmono hback _ _⟩
  · show Store.meet cs r trigger x visit here d = (destiny cs s x fate here, d')
    rw [Store.meet, hd.relate, hrel]
    simp only [hd.children_of_not_has hhere hnew, hloop, hcombine, hdestiny]
    rcases h.fate_cases with rfl | rfl <;> rfl
  · refine hd'.mark h hhere hstill hd'.size hd'.free
      (fun v => (if_neg (not_and_relate hrel (by decide) v)).symm) (fun _ _ _ => rfl)
      (fun hlow => absurd hlow hnotlow) ?_ (fun _ _ => hdone)
    rw [hrel]
    rfl

/-- **At a lowest wider node** the incoming node settles. -/
theorem meets_lowest (h : Incoming cs r trigger s V x fate)
    (hd : Sinking cs r trigger s V x fate d) (hhere : here ∈ V)
    (hnew : ¬ d.outcomes.has here = true) {visit : NodeId → Descent → Outcome × Descent}
    (hvisit : ∀ k ∈ s.children here, SinksAt cs r trigger s V x fate visit k)
    (hlow : Lowest cs s x here) :
    Meets cs r trigger s V x fate here d (Store.meet cs r trigger x visit here d) := by
  obtain ⟨d', hloop, hd', hmono, hback, hdone, hstill⟩ := visitAll_sink h hd hhere hnew hvisit
  have hrel := hlow.1
  have hdestiny : destiny cs s x fate here = fate := by
    unfold destiny
    rw [hrel]
  have hcombine := (h.combine_destiny (s.children here)).2 hlow.2
  have hplaced := h.fate_eq_placed_of_lowest hhere hlow
  have hrewired := rewired_rewire d'.store here (Store.settled cs s x here)
  refine ⟨{ d' with store := d'.store.rewire here (Store.settled cs s x here) }, ?_, ?_,
    metBelow_set h hhere hmono hback _ _⟩
  · show Store.meet cs r trigger x visit here d = (destiny cs s x fate here, _)
    rw [Store.meet, hd.relate, hrel]
    simp only [hd.children_of_not_has hhere hnew, hloop, hcombine, hdestiny,
      hd'.settle_eq_rewire h hhere hstill hlow]
    rw [hplaced]
  · refine hd'.mark h hhere hstill (hrewired.size.trans hd'.size)
      (hrewired.free.trans hd'.free) (fun v => ?_) (fun v _ hv => ?_) (fun _ => ?_) ?_
      (fun _ _ => hdone)
    · rw [hrewired.bare, if_neg (not_and_relate hrel (by decide) v)]
    · exact children_rewire_of_ne (fun heq => hv ⟨heq, heq ▸ hlow⟩) _ _
    · exact children_rewire_self (by rw [hd'.isSome, h.diagram.stored here hhere]) _
    · rw [children_rewire_of_ne (ne_of_mem_of_not_mem hhere h.fresh).symm, hrel]
      rfl

/-- **What happens where the incoming node meets another one**, whichever way they
relate. -/
theorem meet_spec (h : Incoming cs r trigger s V x fate)
    (hd : Sinking cs r trigger s V x fate d) (hhere : here ∈ V)
    (hnew : ¬ d.outcomes.has here = true) {visit : NodeId → Descent → Outcome × Descent}
    (hvisit : ∀ k ∈ s.children here, SinksAt cs r trigger s V x fate visit k) :
    Meets cs r trigger s V x fate here d (Store.meet cs r trigger x visit here d) := by
  cases hrel : s.relate cs here x with
  | equal => exact meets_equal h hd hhere hnew visit hrel
  | specializes => exact meets_specializes h hd hhere hnew visit hrel
  | incomparable => exact meets_incomparable h hd hhere hnew hvisit hrel
  | generalizes =>
    by_cases hcovers : ∃ k ∈ s.children here, (s.relate cs k x).covers = true
    · exact meets_generalizes_of_covers h hd hhere hnew hvisit hrel hcovers
    · exact meets_lowest h hd hhere hnew hvisit
        ⟨hrel, fun k hk hck => hcovers ⟨k, hk, hck⟩⟩

/-- **The descent**: at every member the outcome is the one its relationship to the
incoming node asks for. The induction is on the fuel, which exceeds the height. -/
theorem sink_spec (h : Incoming cs r trigger s V x fate) (fuel : Nat) :
    ∀ here ∈ V, s.height cs here < fuel →
      SinksAt cs r trigger s V x fate (Store.sink cs r trigger x fuel) here := by
  induction fuel with
  | zero => exact fun _ _ hfuel => absurd hfuel (Nat.not_lt_zero _)
  | succ fuel ih =>
    intro here hhere hfuel d hd
    rw [Store.sink]
    cases hget : d.outcomes.get? here with
    | some o =>
      have hhas : d.outcomes.has here = true := by
        rw [Marks.has, hget]
        rfl
      exact ⟨(hd.outcome here o hget).2, hd, ⟨fun _ hv => hv, hhas, fun _ hv => .inl hv⟩⟩
    | none =>
      have hnew : ¬ d.outcomes.has here = true := by
        rw [Marks.has, hget]
        decide
      obtain ⟨d', hmeet, hd', hmet⟩ := meet_spec h hd hhere hnew fun k hk =>
        ih k ((h.diagram.covers here hhere).mem k hk) (by
          have := height_lt h.lawful ((h.diagram.covers here hhere).narrower k hk)
          omega)
      simp only [hmeet]
      exact ⟨trivial, hd', hmet⟩

end Store

end Specificity
