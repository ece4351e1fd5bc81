import Specificity.Proofs.Store.Upkeep

/-!
# Which clauses are refused

Whatever the registry judges, a trigger whose action no other one has gets its place with its
first clause that fits below the root. That is so of the operations as they are, however far
their fuel takes them; whether they come to an end is a matter of its own. Up to then no node
that may be met carries the trigger (`Store.Unaware`), so no meeting can find it there already.
An insertion that has found no place only moves nodes about (`Store.Seeking`), and the root is
wider than what fits below it or equal to it, so the incoming node settles there at the latest.
What does not fit is wider than the root: the root is taken for something to be adopted, and
nothing else is met.
-/

namespace Specificity

namespace Store

variable {α : Type} {cs : Comparers} {r : Register α} {trigger : TriggerId} {u : Trigger α}
  {s t : Store} {K : Set NodeId} {known : TriggerId → Prop} {x here v : NodeId}
  {clause : Clause} {d : Descent} {n : Node}

/-! ## Triggers that no node carries yet -/

/-- The nodes that do not carry a trigger. -/
def lacking (trigger : TriggerId) (s : Store) : Set NodeId :=
  {v | ∃ n, s.get? v = some n ∧ trigger ∉ n.carried}

/-- **Nobody carries the trigger** that may be met on a way down. -/
structure Unaware (trigger : TriggerId) (s : Store) : Prop where
  /-- The root does not carry it. -/
  root : .root ∈ s.lacking trigger
  /-- No child carries it. -/
  fostered : ∀ v, ∀ k ∈ s.children v, k ∈ s.lacking trigger

theorem Rewired.lacking (h : s.Rewired t) (trigger : TriggerId) :
    t.lacking trigger = s.lacking trigger := by
  have hbare : ∀ u : Store,
      u.lacking trigger = {v | ∃ n, u.bare v = some n ∧ trigger ∉ n.carried} :=
    fun u => Set.ext fun v => by
      unfold Store.lacking Store.bare
      cases hget : u.get? v <;> simp [hget, Node.bare]
  rw [hbare, hbare]
  simp only [h.bare]

/-- **A trigger that is not known** is carried by nobody. -/
theorem Tidy.unaware (h : s.Tidy known) (htrigger : ¬ known trigger) : s.Unaware trigger := by
  have hlacking : ∀ v, (s.get? v).isSome = true → v ∈ s.lacking trigger := fun v hv => by
    obtain ⟨n, hn⟩ := Option.isSome_iff_exists.mp hv
    exact ⟨n, hn, fun hmem => htrigger (h.known v n hn trigger hmem)⟩
  exact ⟨hlacking .root (h.isSome_of_reachable Relation.ReflTransGen.refl),
    fun v k hk => hlacking k (h.stored v k hk)⟩

/-- **Nodes that are reached** do not carry the trigger. -/
theorem Unaware.notMem (h : s.Unaware trigger) (hv : s.Reachable v) (hn : s.get? v = some n) :
    trigger ∉ n.carried := by
  have hlacking : v ∈ s.lacking trigger := by
    cases hv with
    | refl => exact h.root
    | tail _ hchild => exact h.fostered _ v hchild
  obtain ⟨m, hm, hnot⟩ := hlacking
  rw [hm] at hn
  rwa [← Option.some.inj hn]

/-- Storing a node with the trigger changes nothing for those that are there. -/
theorem Unaware.put (hs : s.Tidy known) (h : s.Unaware trigger) (clause : Clause) :
    let p := (s.put (.ofTrigger clause trigger)).2
    s.lacking trigger ⊆ p.lacking trigger ∧ Moved (s.lacking trigger) p p := by
  have hget := fun v => get?_put s (.ofTrigger clause trigger) v hs.free.index_lt
  refine ⟨fun v hv => ?_, .refl _, fun v k hk => ?_, id⟩
  · obtain ⟨n, hn, hnot⟩ := hv
    refine ⟨n, ?_, hnot⟩
    rw [hget, if_neg]
    · exact hn
    · rintro rfl
      rw [get?_fst_put hs.free] at hn
      exact Option.some_ne_none n hn.symm
  · obtain ⟨n, hn, hk⟩ := mem_children_iff.mp hk
    rw [hget] at hn
    split at hn
    · rw [← Option.some.inj hn] at hk
      exact absurd hk List.not_mem_nil
    · exact h.fostered v k (mem_children_iff.mpr ⟨n, hn, hk⟩)

/-! ## A descent that has found no place -/

variable [DecidableEq α]

/-- **A descent that has found no place** only moved nodes about, and only nodes of `K`,
which are all that it may meet. -/
structure Seeking (K : Set NodeId) (s : Store) (d : Descent) : Prop extends
    Moved K s d.store where
  /-- No node that was met had a place. -/
  pending : ∀ v o, d.outcomes.get? v = some o → o.Pending

/-- What comes of a visit: the incoming node was placed, or it is still seeking. -/
def Sought (K : Set NodeId) (s : Store) (result : Outcome × Descent) : Prop :=
  result.1 = .placed ∨ result.1.Pending ∧ Seeking K s result.2

/-- **What a descent may count on** while it seeks: the trigger is the only one with its
action, and the nodes that may be met do not carry it. -/
structure Newcomer (r : Register α) (trigger : TriggerId) (u : Trigger α) (K : Set NodeId)
    (s : Store) : Prop where
  /-- The trigger is registered. -/
  registered : r.get? trigger = some u
  /-- No other trigger has its action. -/
  alone : ∀ w y, r.get? w = some y → y.action = u.action → w = trigger
  /-- The nodes that may be met do not carry it. -/
  lacking : K ⊆ s.lacking trigger

namespace Newcomer

/-- **Meeting an equal node**, the trigger joins it. -/
theorem meet_equal (h : Newcomer r trigger u K s) (hhere : here ∈ K) (hd : Seeking K s d)
    (visit : NodeId → Descent → Outcome × Descent)
    (hrel : d.store.relate cs here x = .equal) :
    (Store.meet cs r trigger x visit here d).1 = .placed := by
  obtain ⟨n, hn, hnot⟩ : here ∈ d.store.lacking trigger := by
    rw [hd.lacking]
    exact h.lacking hhere
  simp only [Store.meet, hrel]
  rcases join_eq cs h.registered hn with ⟨-, w, hw, y, hy, haction⟩ | ⟨hjoin, -⟩
  · rw [h.alone w y hy haction] at hw
    exact absurd hw hnot
  · rw [hjoin]

/-- **Visiting the children** of a node: one of them has a place for the trigger, or none
has a say. -/
theorem visitAll_children (hd : Seeking K s d) {visit : NodeId → Descent → Outcome × Descent}
    (hvisit : ∀ k ∈ K, ∀ d, Seeking K s d → Sought K s (visit k d)) (here : NodeId) :
    Outcome.placed ∈ (visitAll visit (d.store.children here) d).1 ∨
      (∀ o ∈ (visitAll visit (d.store.children here) d).1, o.Pending) ∧
        Seeking K s (visitAll visit (d.store.children here) d).2 := by
  refine (visitAll_until visit (d.store.children here) d (Seeking K s) (fun o => o = .placed)
    Outcome.Pending (fun k hk a ha => hvisit k (hd.fostered here k hk) a ha) hd).imp_left ?_
  rintro ⟨o, ho, rfl⟩
  exact ho

/-- **Where the incoming node is equal or narrower** it has a place. -/
theorem meet_of_covers (h : Newcomer r trigger u K s) (hhere : here ∈ K) (hd : Seeking K s d)
    {visit : NodeId → Descent → Outcome × Descent}
    (hvisit : ∀ k ∈ K, ∀ d, Seeking K s d → Sought K s (visit k d))
    (hrel : (d.store.relate cs here x).covers = true) :
    (Store.meet cs r trigger x visit here d).1 = .placed := by
  rcases (Relationship.covers_iff _).mp hrel with hrel | hrel
  · exact h.meet_equal hhere hd visit hrel
  · simp only [Store.meet, hrel]
    rcases visitAll_children hd hvisit here with hplaced | ⟨hpending, -⟩
    · rw [Outcome.combine_eq_placed hplaced]
    · rw [Outcome.combine_eq_unplaced hpending]

/-- **Where the incoming node is wider**, the other one is adopted and nothing else is
met. -/
theorem meet_specializes (hhere : here ∈ K) (hd : Seeking K s d)
    (visit : NodeId → Descent → Outcome × Descent)
    (hrel : d.store.relate cs here x = .specializes) :
    (Store.meet cs r trigger x visit here d).1 = .adopted ∧
      Seeking K s (Store.meet cs r trigger x visit here d).2 := by
  simp only [Store.meet, hrel]
  exact ⟨trivial, hd.toMoved.place cs _ x hhere, hd.pending⟩

/-- **Meeting a node**, the incoming one is placed or still seeking. -/
theorem meet (h : Newcomer r trigger u K s) (hhere : here ∈ K) (hd : Seeking K s d)
    {visit : NodeId → Descent → Outcome × Descent}
    (hvisit : ∀ k ∈ K, ∀ d, Seeking K s d → Sought K s (visit k d)) :
    Sought K s (Store.meet cs r trigger x visit here d) := by
  cases hrel : d.store.relate cs here x with
  | equal => exact .inl (h.meet_equal hhere hd visit hrel)
  | generalizes =>
    exact .inl (h.meet_of_covers hhere hd hvisit ((Relationship.covers_iff _).mpr (.inr hrel)))
  | specializes =>
    obtain ⟨hadopted, hseeking⟩ := meet_specializes (r := r) hhere hd visit hrel
    exact .inr ⟨.inr hadopted, hseeking⟩
  | incomparable =>
    simp only [Store.meet, hrel]
    rcases visitAll_children hd hvisit here with hplaced | ⟨hpending, hseeking⟩
    · exact .inl (Outcome.combine_eq_placed hplaced)
    · exact .inr ⟨.inl (Outcome.combine_eq_unplaced hpending), hseeking⟩

/-- **The descent** ends in a place, or is still seeking one. The induction is on the
fuel. -/
theorem sink (h : Newcomer r trigger u K s) (fuel : Nat) (hhere : here ∈ K)
    (hd : Seeking K s d) : Sought K s (Store.sink cs r trigger x fuel here d) := by
  induction fuel generalizing here d with
  | zero => exact .inr ⟨.inl rfl, hd⟩
  | succ fuel ih =>
    rw [Store.sink]
    split
    · next o ho => exact .inr ⟨hd.pending here o ho, hd⟩
    · have hmeet : Sought K s
          (Store.meet cs r trigger x (Store.sink cs r trigger x fuel) here d) :=
        h.meet hhere hd fun k hk d hd => ih hk hd
      rcases hmeet with hplaced | ⟨hpending, hseeking⟩
      · exact .inl hplaced
      · refine .inr ⟨hpending, hseeking.toMoved, fun v o ho => ?_⟩
        rw [Marks.get?_set] at ho
        split at ho
        · rw [← Option.some.inj ho]
          exact hpending
        · exact hseeking.pending v o ho

end Newcomer

/-! ## Insertions -/

/-- An insertion is the meeting of the new node with the root. -/
theorem insert_eq_meet (cs : Comparers) (r : Register α) (trigger : TriggerId) (clause : Clause)
    (s : Store) : ∃ fuel, ∀ x p, s.put (.ofTrigger clause trigger) = (x, p) →
      ∃ result, result =
          Store.meet cs r trigger x (Store.sink cs r trigger x fuel) .root ⟨p, .empty⟩ ∧
        s.insert cs r trigger clause = (decide (result.1 = .placed), result.2.store) := by
  obtain ⟨fuel, hfuel⟩ : ∃ fuel, (s.put (.ofTrigger clause trigger)).2.depthBound = fuel + 1 :=
    Nat.exists_eq_succ_of_ne_zero (Nat.mul_ne_zero (Nat.succ_ne_zero _) (Nat.succ_ne_zero _))
  refine ⟨fuel, fun x p hput => ⟨_, rfl, ?_⟩⟩
  rw [hput] at hfuel
  have hfuel : p.depthBound = fuel + 1 := hfuel
  rw [Store.insert, hput]
  dsimp only
  rw [hfuel, Store.sink, Marks.get?_empty]

/-- The root relates to a node that was stored as the empty clause does. -/
theorem Tidy.relate_root_put (hs : s.Tidy known) (cs : Comparers) (clause : Clause)
    (trigger : TriggerId) {p : Store} (hput : s.put (.ofTrigger clause trigger) = (x, p)) :
    p.relate cs .root x = Clause.empty.relate cs clause := by
  have hx := get?_put s (.ofTrigger clause trigger) x hs.free.index_lt
  have hall : s.Tidy fun _ => True := hs.mono fun _ _ => trivial
  have hroot := (hall.put (n := .ofTrigger clause trigger) rfl fun _ _ => trivial).root_clause
  rw [hput] at hx hroot
  rw [if_pos rfl] at hx
  obtain ⟨root, hroot, hempty⟩ := Option.map_eq_some_iff.mp hroot
  rw [relate_eq hroot hx, hempty]
  rfl

/-- **A clause finds a place exactly if it fits below the root**, as long as nobody carries
the trigger. If it is refused nobody does afterwards. -/
theorem Unaware.insert (hs : s.Tidy known) (h : s.Unaware trigger)
    (hregistered : r.get? trigger = some u)
    (halone : ∀ w y, r.get? w = some y → y.action = u.action → w = trigger) (cs : Comparers)
    (clause : Clause) :
    ((s.insert cs r trigger clause).1 = true ↔ clause.Fits) ∧
      (¬ clause.Fits → (s.insert cs r trigger clause).2.Unaware trigger) := by
  obtain ⟨hlacking, hmoved⟩ := h.put hs clause
  obtain ⟨fuel, hinsert⟩ := insert_eq_meet cs r trigger clause s
  obtain ⟨x, p, hput⟩ : ∃ x p, s.put (.ofTrigger clause trigger) = (x, p) := ⟨_, _, rfl⟩
  obtain ⟨result, hresult, hinsert⟩ := hinsert x p hput
  have hrelate := hs.relate_root_put cs clause trigger hput
  rw [hput] at hlacking hmoved
  have hnew : Newcomer r trigger u (s.lacking trigger) p := ⟨hregistered, halone, hlacking⟩
  have hseeking : Seeking (s.lacking trigger) p ⟨p, .empty⟩ := ⟨hmoved, fun v o ho => by
    rw [Marks.get?_empty] at ho
    exact (Option.some_ne_none o ho.symm).elim⟩
  have hvisit : ∀ k ∈ s.lacking trigger, ∀ d, Seeking (s.lacking trigger) p d →
      Sought (s.lacking trigger) p (Store.sink cs r trigger x fuel k d) :=
    fun k hk d hd => hnew.sink fuel hk hd
  rw [hinsert, decide_eq_true_iff]
  by_cases hfits : clause.Fits
  · -- the root is equal or wider
    have hplaced : result.1 = .placed := by
      rw [hresult]
      refine hnew.meet_of_covers h.root hseeking hvisit ?_
      show (p.relate cs .root x).covers = true
      rw [hrelate, Clause.relate_swap, Relationship.covers_swap]
      exact (Clause.fits_iff cs clause).mp hfits
    exact ⟨⟨fun _ => hfits, fun _ => hplaced⟩, fun hnot => absurd hfits hnot⟩
  · -- the root is narrower
    obtain ⟨hadopted, hmoved'⟩ : result.1 = .adopted ∧ Seeking (s.lacking trigger) p result.2 := by
      rw [hresult]
      refine Newcomer.meet_specializes h.root hseeking _ ?_
      show p.relate cs .root x = .specializes
      rw [hrelate, Clause.relate_swap, Clause.relate_empty_of_not_fits cs hfits]
      rfl
    refine ⟨⟨fun hplaced => ?_, fun hfits' => absurd hfits' hfits⟩, fun _ => ⟨?_, ?_⟩⟩
    · rw [hadopted] at hplaced
      exact Outcome.noConfusion hplaced
    · rw [hmoved'.lacking]
      exact hlacking h.root
    · rw [hmoved'.lacking]
      exact fun v k hk => hlacking (hmoved'.fostered v k hk)

/-- **Sweeping** leaves nobody with the trigger. -/
theorem Unaware.sweep (h : s.Unaware trigger) : s.sweep.Unaware trigger := by
  have hlacking : ∀ v, s.Reachable v → v ∈ s.lacking trigger → v ∈ s.sweep.lacking trigger := by
    rintro v hv ⟨n, hn, hnot⟩
    exact ⟨n, by rw [get?_sweep_of_reachable hv, hn], hnot⟩
  refine ⟨hlacking .root Relation.ReflTransGen.refl h.root, fun v k hk => ?_⟩
  obtain ⟨hv, hk⟩ := mem_children_sweep hk
  exact hlacking k (Relation.ReflTransGen.tail hv hk) (h.fostered v k hk)

end Store

end Specificity
