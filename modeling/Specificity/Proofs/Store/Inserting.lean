import Specificity.Proofs.Store.Sinking

/-!
# Inserting a clause

Inserting a clause into a covering diagram has one of three results
(`Store.Inserted`). If a member has an equal clause the trigger joins it. If
the clause is narrower than the empty one and no member is equal, there is one
member more, and the members form a covering diagram again. A clause without
predicates but with bindings is wider than the root and finds no place.
-/

namespace Specificity

namespace Store

variable {α : Type} [DecidableEq α] {cs : Comparers} {r : Register α} {trigger : TriggerId}
  {s t : Store} {V : Set NodeId} {x : NodeId} {fate : Outcome} {d : Descent} {clause : Clause}

/-! ## Free slots -/

/-- **The free slots** are the empty ones, and none is listed twice. -/
structure FreeSound (s : Store) : Prop where
  /-- Free slots exist. -/
  index_lt : ∀ id ∈ s.free, id.index < s.slots.size
  /-- Free slots are empty. -/
  empty : ∀ id ∈ s.free, s.get? id = none
  /-- Empty slots are free. -/
  listed : ∀ id, id.index < s.slots.size → s.get? id = none → id ∈ s.free
  /-- No slot is listed twice. -/
  nodup : s.free.Nodup

/-- Without triggers the one slot is in use. -/
theorem freeSound_initial : initial.FreeSound where
  index_lt id hid := absurd hid List.not_mem_nil
  empty id hid := absurd hid List.not_mem_nil
  listed id hlt hnone := by
    obtain ⟨i⟩ := id
    obtain rfl : i = 0 := Nat.lt_one_iff.mp hlt
    exact (Option.some_ne_none _ hnone).elim
  nodup := .nil

theorem FreeSound.congr (h : s.FreeSound) (hsize : t.slots.size = s.slots.size)
    (hfree : t.free = s.free) (hsome : ∀ id, (t.get? id).isSome = (s.get? id).isSome) :
    t.FreeSound where
  index_lt := by
    rw [hfree, hsize]
    exact h.index_lt
  empty id hid := by
    rw [hfree] at hid
    rw [← Option.not_isSome_iff_eq_none, hsome, h.empty id hid]
    decide
  listed id hlt hnone := by
    rw [hsize] at hlt
    rw [hfree]
    refine h.listed id hlt ?_
    rw [← Option.not_isSome_iff_eq_none, ← hsome, hnone]
    decide
  nodup := by
    rw [hfree]
    exact h.nodup

/-- The slot that a node is given was empty. -/
theorem get?_fst_put (h : s.FreeSound) (n : Node) : s.get? (s.put n).1 = none := by
  unfold put
  split
  · next id free hfree => exact h.empty id (hfree ▸ List.mem_cons_self)
  · unfold get?
    rw [Array.getElem?_eq_none (Nat.le_refl _)]
    rfl

theorem FreeSound.put (h : s.FreeSound) (n : Node) : (s.put n).2.FreeSound := by
  have hget := fun id => get?_put s n id h.index_lt
  have hempty : ∀ id ∈ (s.put n).2.free, id ≠ (s.put n).1 ∧ id ∈ s.free := by
    unfold Store.put
    split
    · next i free hfree =>
      have hnodup := hfree ▸ h.nodup
      intro id hid
      refine ⟨?_, hfree ▸ List.mem_cons_of_mem _ hid⟩
      rintro rfl
      exact (List.nodup_cons.mp hnodup).1 hid
    · next hfree =>
      intro id hid
      rw [hfree] at hid
      exact absurd hid List.not_mem_nil
  exact {
    index_lt := fun id hid => by
      have hlt := h.index_lt id (hempty id hid).2
      have hle : s.slots.size ≤ (s.put n).2.slots.size := by
        unfold Store.put
        split
        · rw [Array.size_setIfInBounds]
        · rw [Array.size_push]
          exact Nat.le_succ _
      exact Nat.lt_of_lt_of_le hlt hle
    empty := fun id hid => by
      rw [hget, if_neg (hempty id hid).1]
      exact h.empty id (hempty id hid).2
    listed := fun id hlt hnone => by
      rw [hget] at hnone
      split at hnone
      · exact (Option.some_ne_none n hnone).elim
      · next hne =>
        -- the slot was empty before, and it is not the one that was taken
        revert hlt hne
        unfold Store.put
        split
        · next i free hfree =>
          intro hlt hne
          rw [Array.size_setIfInBounds] at hlt
          have hmem := h.listed id hlt hnone
          rw [hfree] at hmem
          exact (List.mem_cons.mp hmem).resolve_left hne
        · intro hlt hne
          rw [Array.size_push] at hlt
          refine h.listed id (Nat.lt_of_le_of_ne (Nat.le_of_lt_succ hlt) fun heq => hne ?_) hnone
          obtain ⟨i⟩ := id
          exact congrArg NodeId.mk heq
    nodup := by
      unfold Store.put
      split
      · next i free hfree => exact (List.nodup_cons.mp (hfree ▸ h.nodup)).2
      · exact h.nodup }

/-! ## What was met when the descent is over -/

/-- **Nothing is overlooked**: when the root was met, every member was met or is at
or below a narrower or equal one that was. The induction is on the height of a
node that was met above it. -/
theorem Sinking.met_or_below_met (h : Incoming cs r trigger s V x fate)
    (hd : Sinking cs r trigger s V x fate d) (hroot : d.outcomes.has .root = true)
    {w : NodeId} (hw : w ∈ V) :
    d.outcomes.has w = true ∨ ∃ u ∈ V, d.outcomes.has u = true ∧
      (s.relate cs u x).isCovered = true ∧ (s.relate cs w u).isCovered = true := by
  suffices hdown : ∀ (n : Nat) (v : NodeId), v ∈ V → d.outcomes.has v = true →
      (s.relate cs w v).isCovered = true → s.height cs v = n →
      d.outcomes.has w = true ∨ ∃ u ∈ V, d.outcomes.has u = true ∧
        (s.relate cs u x).isCovered = true ∧ (s.relate cs w u).isCovered = true from
    hdown _ .root h.diagram.root_mem hroot (h.diagram.isCovered_root h.lawful hw) rfl
  intro n
  induction n using Nat.strong_induction_on with
  | _ n ih =>
    intro v hv hhas hwv hheight
    -- the children of a node that is not at or below `x` were met, one of them above `w`
    by_cases hcovered : (s.relate cs v x).isCovered = true
    · exact .inr ⟨v, hv, hhas, hcovered, hwv⟩
    · rcases (Relationship.isCovered_iff _).mp hwv with hequal | hbelow
      · left
        rw [h.diagram.distinct w hw v hv hequal]
        exact hhas
      · obtain ⟨k, hk, hwk⟩ := (h.diagram.covers v hv).covering w hw hbelow
        have hmet := hd.closed v hhas
          (fun hrel => hcovered (Relationship.isCovered_of_specializes hrel))
          (fun hrel => hcovered (Relationship.isCovered_of_equal hrel)) k hk
        have hlt := height_lt h.lawful ((h.diagram.covers v hv).narrower k hk)
        exact ih _ (hheight ▸ hlt) k ((h.diagram.covers v hv).mem k hk) hmet hwk rfl

/-- An equal member was met. -/
theorem Sinking.has_of_equal (h : Incoming cs r trigger s V x fate)
    (hd : Sinking cs r trigger s V x fate d) (hroot : d.outcomes.has .root = true)
    {e : NodeId} (he : e ∈ V) (hequal : s.relate cs e x = .equal) :
    d.outcomes.has e = true := by
  rcases hd.met_or_below_met h hroot he with hhas | ⟨u, hu, hhas, hux, heu⟩
  · exact hhas
  · have hue : (s.relate cs u e).isCovered = true := by
      rw [h.orderly.eq_of_equal_right hequal]
      exact hux
    rw [h.diagram.distinct e he u hu (h.orderly.equal_iff.mpr ⟨heu, hue⟩)]
    exact hhas

/-- A wider member was met. -/
theorem Sinking.has_of_generalizes (h : Incoming cs r trigger s V x fate)
    (hd : Sinking cs r trigger s V x fate d) (hroot : d.outcomes.has .root = true)
    {w : NodeId} (hw : w ∈ V) (hwide : s.relate cs w x = .generalizes) :
    d.outcomes.has w = true := by
  rcases hd.met_or_below_met h hroot hw with hhas | ⟨u, -, -, hux, hwu⟩
  · exact hhas
  · have hwx := h.orderly.isCovered_trans hwu hux
    rw [hwide] at hwx
    exact absurd hwx (by decide)

/-- Below the incoming node are the widest of the narrower members. -/
theorem Sinking.coversAt_incoming (h : Incoming cs r trigger s V x fate)
    (hd : Sinking cs r trigger s V x fate d) (hroot : d.outcomes.has .root = true)
    (hnone : ∀ e ∈ V, s.relate cs e x ≠ .equal) : d.store.CoversAt cs (V ∪ {x}) x := by
  have hrel := hd.relate
  exact {
    mem := fun k hk => .inl (hd.adopted_mem k hk).1
    narrower := by
      rw [hrel]
      exact fun k hk => (hd.adopted_mem k hk).2
    siblings := by
      rw [hrel]
      exact hd.adopted_siblings
    covering := by
      rw [hrel]
      rintro v (hv | rfl) hbelow
      · -- `v` itself was met, or stands at or below a narrower member that was
        have hmet : ∃ u ∈ V, d.outcomes.has u = true ∧ s.relate cs u x = .specializes ∧
            (s.relate cs v u).isCovered = true := by
          rcases hd.met_or_below_met h hroot hv with hhas | ⟨u, hu, hhas, hux, hvu⟩
          · exact ⟨v, hv, hhas, hbelow, isCovered_self h.lawful (h.diagram.stored v hv)⟩
          · exact ⟨u, hu, hhas,
              ((Relationship.isCovered_iff _).mp hux).resolve_left (hnone u hu), hvu⟩
        obtain ⟨u, hu, hhas, hux, hvu⟩ := hmet
        obtain ⟨k, hk, huk⟩ := hd.adopted_covering u hu hhas hux
        exact ⟨k, hk, h.orderly.isCovered_trans hvu huk⟩
      · exact absurd hbelow (h.orderly.specializes_irrefl _) }

/-- Below a lowest wider member is the incoming node, in place of the narrower
children. -/
theorem Sinking.coversAt_lowest (h : Incoming cs r trigger s V x fate)
    (hd : Sinking cs r trigger s V x fate d) (hroot : d.outcomes.has .root = true)
    {u : NodeId} (hu : u ∈ V) (hlow : Lowest cs s x u) :
    d.store.CoversAt cs (V ∪ {x}) u := by
  have hrel := hd.relate
  have hcovers := h.diagram.covers u hu
  have hks : d.store.children u = Store.settled cs s x u :=
    hd.settled u hu (hd.has_of_generalizes h hroot hu hlow.1) hlow
  have hmem : ∀ k, k ∈ Store.settled cs s x u ↔
      (k ∈ s.children u ∧ s.relate cs k x ≠ .specializes) ∨ k = x := by
    intro k
    unfold Store.settled
    rw [List.mem_append, List.mem_filter, List.mem_singleton, decide_eq_true_eq]
  exact {
    mem := by
      rw [hks]
      intro k hk
      rcases (hmem k).mp hk with ⟨hk, -⟩ | rfl
      · exact .inl (hcovers.mem k hk)
      · exact .inr rfl
    narrower := by
      rw [hks, hrel]
      intro k hk
      rcases (hmem k).mp hk with ⟨hk, -⟩ | rfl
      · exact hcovers.narrower k hk
      · exact h.orderly.generalizes_iff.mp hlow.1
    siblings := by
      rw [hks, hrel]
      refine List.pairwise_append.mpr ⟨hcovers.siblings.filter _, List.pairwise_singleton _ _, ?_⟩
      intro k hk y hy
      rw [List.mem_singleton.mp hy]
      obtain ⟨hk, hnarrow⟩ := List.mem_filter.mp hk
      rw [decide_eq_true_eq] at hnarrow
      have hnot := hlow.2 k hk
      cases hkx : s.relate cs k x <;> simp_all
    covering := by
      rw [hks, hrel]
      rintro v (hv | rfl) hbelow
      · obtain ⟨k, hk, hvk⟩ := hcovers.covering v hv hbelow
        by_cases hkx : s.relate cs k x = .specializes
        · exact ⟨x, (hmem x).mpr (.inr rfl), h.orderly.isCovered_trans hvk
            (Relationship.isCovered_of_specializes hkx)⟩
        · exact ⟨k, (hmem k).mpr (.inl ⟨hk, hkx⟩), hvk⟩
      · exact ⟨v, (hmem v).mpr (.inr rfl), isCovered_self h.lawful h.stored⟩ }

/-- Below any other member is what was there before. -/
theorem Sinking.coversAt_kept (h : Incoming cs r trigger s V x fate)
    (hd : Sinking cs r trigger s V x fate d) {u : NodeId} (hu : u ∈ V)
    (hlow : ¬ Lowest cs s x u) : d.store.CoversAt cs (V ∪ {x}) u := by
  have hrel := hd.relate
  have hcovers := h.diagram.covers u hu
  have hks := hd.kept u hu fun hmet => hlow hmet.2
  exact {
    mem := by
      rw [hks]
      exact fun k hk => .inl (hcovers.mem k hk)
    narrower := by
      rw [hks, hrel]
      exact hcovers.narrower
    siblings := by
      rw [hks, hrel]
      exact hcovers.siblings
    covering := by
      rw [hks, hrel]
      rintro v (hv | rfl) hbelow
      · exact hcovers.covering v hv hbelow
      · -- otherwise `u` would be a lowest wider member
        by_contra hnone
        refine hlow ⟨h.orderly.generalizes_iff.mpr hbelow, fun k hk hcov => hnone ⟨k, hk, ?_⟩⟩
        rw [← h.orderly.covers_flip]
        exact hcov }

/-- **The members and the incoming node form a covering diagram**, if no member is
equal to it and the root is wider. -/
theorem Sinking.diagram (h : Incoming cs r trigger s V x fate)
    (hd : Sinking cs r trigger s V x fate d) (hroot : d.outcomes.has .root = true)
    (hnone : ∀ e ∈ V, s.relate cs e x ≠ .equal)
    (hwide : s.relate cs .root x = .generalizes) : d.store.Diagram cs (V ∪ {x}) := by
  have hrel := hd.relate
  exact {
    root_mem := .inl h.diagram.root_mem
    root_clause := by
      rw [hd.clause, h.diagram.root_clause]
    below_root := by
      rw [hrel]
      rintro v (hv | rfl) hne
      · exact h.diagram.below_root v hv hne
      · exact h.orderly.generalizes_iff.mp hwide
    stored := by
      rintro v (hv | rfl)
      · rw [hd.isSome, h.diagram.stored v hv]
      · rw [hd.isSome, h.stored]
    distinct := by
      rw [hrel]
      rintro u (hu | rfl) v (hv | rfl) hequal
      · exact h.diagram.distinct u hu v hv hequal
      · exact absurd hequal (hnone u hu)
      · exact absurd (h.orderly.equal_symm hequal) (hnone v hv)
      · rfl
    covers := by
      rintro u (hu | rfl)
      · by_cases hlow : Lowest cs s x u
        · exact hd.coversAt_lowest h hroot hu hlow
        · exact hd.coversAt_kept h hu hlow
      · exact hd.coversAt_incoming h hroot hnone }

/-- Without a lowest wider member the members form the covering diagram they were. -/
theorem Sinking.diagram_of_not_lowest (h : Incoming cs r trigger s V x fate)
    (hd : Sinking cs r trigger s V x fate d) (hlow : ∀ v ∈ V, ¬ Lowest cs s x v) :
    d.store.Diagram cs V :=
  h.diagram.congr (fun u _ v _ => by rw [hd.relate]) (hd.clause _)
    (fun v hv => by rw [hd.isSome, h.diagram.stored v hv])
    (fun v hv => hd.kept v hv fun hmet => hlow v hv hmet.2)

/-! ## The three results of an insertion -/

/-- **What inserting a clause comes to**: whether the trigger has its place now, and
the store. -/
inductive Inserted (cs : Comparers) (r : Register α) (trigger : TriggerId) (clause : Clause)
    (s : Store) (V : Set NodeId) : Bool → Store → Prop where
  /-- A member has an equal clause, and the trigger joins it if it may. -/
  | joined {e : NodeId} {n : Node} {t : Store} (mem : e ∈ V) (found : s.get? e = some n)
      (equal : n.clause.relate cs clause = .equal) (diagram : t.Diagram cs V)
      (members : ∀ v ∈ V, t.get? v = (s.join cs r trigger e).2.get? v) :
      Inserted cs r trigger clause s V ((s.join cs r trigger e).1 = .placed) t
  /-- No member has an equal clause, and there is one member more. -/
  | filed {x : NodeId} {t : Store} (fresh : x ∉ V)
      (unequal : ∀ v ∈ V, ∀ n, s.get? v = some n → n.clause.relate cs clause ≠ .equal)
      (diagram : t.Diagram cs (V ∪ {x})) (new : t.bare x = some (.ofTrigger clause trigger))
      (old : ∀ v ∈ V, t.bare v = s.bare v) :
      Inserted cs r trigger clause s V true t
  /-- The clause is wider than the empty one, and nothing changes. -/
  | refused {t : Store} (wide : clause.relate cs .empty = .generalizes)
      (diagram : t.Diagram cs V) (members : ∀ v ∈ V, t.get? v = s.get? v) :
      Inserted cs r trigger clause s V false t

/-- Looking up members in a store with one node more. -/
theorem relate_of_get?_eq {a b : NodeId} (ha : t.get? a = s.get? a) (hb : t.get? b = s.get? b) :
    t.relate cs a b = s.relate cs a b := by
  unfold relate
  rw [ha, hb]

theorem children_of_get?_eq {a : NodeId} (ha : t.get? a = s.get? a) :
    t.children a = s.children a := by
  unfold children
  rw [ha]

/-- A diagram is one in every store that has the same members. -/
theorem Diagram.of_get?_eq (h : s.Diagram cs V) (hget : ∀ v ∈ V, t.get? v = s.get? v) :
    t.Diagram cs V :=
  h.congr (fun u hu v hv => relate_of_get?_eq (hget u hu) (hget v hv))
    (by rw [hget _ h.root_mem]) (fun v hv => by rw [hget v hv, h.stored v hv])
    (fun v hv => children_of_get?_eq (hget v hv))

/-- Joining a stored node has the trigger placed, or finds its action there. -/
theorem join_fst_cases (ht : (r.get? trigger).isSome = true) {e : NodeId}
    (he : (s.get? e).isSome = true) :
    (s.join cs r trigger e).1 = .placed ∨ (s.join cs r trigger e).1 = .present := by
  obtain ⟨u, hu⟩ := Option.isSome_iff_exists.mp ht
  obtain ⟨n, hn⟩ := Option.isSome_iff_exists.mp he
  rcases join_eq cs hu hn with ⟨hjoin, -⟩ | ⟨hjoin, -⟩
  · exact .inr (congrArg Prod.fst hjoin)
  · exact .inl (congrArg Prod.fst hjoin)

/-- **A node that was just stored comes in.** -/
theorem exists_incoming (hcs : cs.Lawful) (h : s.Diagram cs V) (hfree : s.FreeSound)
    (ht : (r.get? trigger).isSome = true) (clause : Clause) :
    ∃ fate, Incoming cs r trigger (s.put (.ofTrigger clause trigger)).2 V
      (s.put (.ofTrigger clause trigger)).1 fate := by
  set n := Node.ofTrigger clause trigger with hn
  have hget := fun id => get?_put s n id hfree.index_lt
  have hself : (s.put n).2.get? (s.put n).1 = some n := by rw [hget, if_pos rfl]
  have hfresh : (s.put n).1 ∉ V := by
    intro hmem
    have hstored := h.stored _ hmem
    rw [get?_fst_put hfree] at hstored
    exact Bool.false_ne_true hstored
  have hmember : ∀ v ∈ V, (s.put n).2.get? v = s.get? v := fun v hv => by
    rw [hget, if_neg (ne_of_mem_of_not_mem hv hfresh)]
  have hdiagram := h.of_get?_eq hmember
  have hleaf : (s.put n).2.children (s.put n).1 = [] := by
    rw [children, hself, hn]
    rfl
  by_cases hequal : ∃ e ∈ V, (s.put n).2.relate cs e (s.put n).1 = .equal
  · obtain ⟨e, he, hee⟩ := hequal
    refine ⟨((s.put n).2.join cs r trigger e).1, hcs, hdiagram, hfresh, by rw [hself]; rfl,
      hleaf, fun e' he' hee' => ?_, fun hnone => absurd hee (hnone e he),
      join_fst_cases ht (hdiagram.stored e he)⟩
    have hsame : (s.put n).2.relate cs e' e = .equal := by
      rw [(orderly_relate hcs _).eq_of_equal hee']
      exact (orderly_relate hcs _).equal_symm hee
    rw [hdiagram.distinct e' he' e he hsame]
  · exact ⟨.placed, hcs, hdiagram, hfresh, by rw [hself]; rfl, hleaf,
      fun e he hee => absurd ⟨e, he, hee⟩ hequal, fun _ => rfl, .inl rfl⟩

/-- At the start of a descent nothing was met. -/
theorem Incoming.sinking_start (h : Incoming cs r trigger s V x fate) :
    Sinking cs r trigger s V x fate ⟨s, .empty⟩ := by
  have hnone : ∀ v, ¬ (Marks.empty : Marks Outcome).has v = true := Marks.not_has_empty
  exact {
    size := by
      rfl
    free := by
      rfl
    bare := fun v => by
      rw [if_neg fun hmet => hnone v hmet.1]
    kept := fun _ _ _ => rfl
    settled := fun v _ hhas => absurd hhas (hnone v)
    adopted_mem := by
      rw [h.leaf]
      exact fun k hk => absurd hk List.not_mem_nil
    adopted_siblings := by
      rw [h.leaf]
      exact .nil
    adopted_covering := fun v _ hhas => absurd hhas (hnone v)
    outcome := fun v o hget => by
      rw [Marks.get?_empty] at hget
      exact (Option.some_ne_none o hget.symm).elim
    closed := fun v hhas => absurd hhas (hnone v) }

/-- A node is found again if its bare node and its children are. -/
theorem get?_eq_of_bare {u : Store} {v : NodeId} (hbare : t.bare v = u.bare v)
    (hchildren : t.children v = u.children v) : t.get? v = u.get? v := by
  rw [get?_eq_bare, get?_eq_bare, hbare, hchildren]

/-- Members are stored as they were. -/
theorem get?_put_of_mem (h : s.Diagram cs V) (hfree : s.FreeSound) (n : Node) {v : NodeId}
    (hv : v ∈ V) : (s.put n).2.get? v = s.get? v := by
  rw [get?_put s n v hfree.index_lt, if_neg]
  rintro rfl
  have hstored := h.stored _ hv
  rw [get?_fst_put hfree] at hstored
  exact Bool.false_ne_true hstored

theorem bare_of_get?_eq {v : NodeId} (h : t.get? v = s.get? v) : t.bare v = s.bare v := by
  rw [bare, bare, h]

section Results

variable {p : Store}

/-- **The trigger joins an equal member.** -/
theorem Sinking.joined (h : Incoming cs r trigger p V x fate)
    (hd : Sinking cs r trigger p V x fate d) (hroot : d.outcomes.has .root = true)
    (hput : ∀ v ∈ V, p.get? v = s.get? v) {e : NodeId} (he : e ∈ V)
    (hequal : p.relate cs e x = .equal) :
    destiny cs p x fate .root = (s.join cs r trigger e).1 ∧ d.store.Diagram cs V ∧
      ∀ v ∈ V, d.store.get? v = (s.join cs r trigger e).2.get? v := by
  have hjoin := join_congr cs r trigger (bare_of_get?_eq (hput e he))
  have hnotlow : ∀ v ∈ V, ¬ Lowest cs p x v := fun v hv => h.not_lowest he hequal hv
  refine ⟨?_, hd.diagram_of_not_lowest h hnotlow, fun v hv => get?_eq_of_bare ?_ ?_⟩
  · have hcovers : (p.relate cs .root x).covers = true := by
      rw [h.orderly.covers_flip, ← h.orderly.eq_of_equal hequal]
      exact h.diagram.isCovered_root h.lawful he
    rw [← hjoin.1, h.fate_equal e he hequal, destiny]
    rcases (Relationship.covers_iff _).mp hcovers with hrel | hrel <;> rw [hrel]
  · show d.store.bare v = (s.join cs r trigger e).2.bare v
    rw [hd.bare]
    by_cases hve : v = e
    · subst hve
      rw [if_pos ⟨hd.has_of_equal h hroot hv hequal, hequal⟩, hjoin.2]
    · rw [if_neg, bare_join_of_ne hve, bare_of_get?_eq (hput v hv)]
      rintro ⟨-, hvx⟩
      refine hve (h.diagram.distinct v hv e he ?_)
      rw [h.orderly.eq_of_equal hvx]
      exact h.orderly.equal_symm hequal
  · show d.store.children v = (s.join cs r trigger e).2.children v
    rw [hd.kept v hv fun hmet => hnotlow v hv hmet.2, children_of_get?_eq (hput v hv),
      children_join]

/-- **The node is filed**: it keeps its clause and its trigger, and the members
keep theirs. -/
theorem Sinking.filed (h : Incoming cs r trigger p V x fate)
    (hd : Sinking cs r trigger p V x fate d) (hput : ∀ v ∈ V, p.get? v = s.get? v)
    (hnone : ∀ e ∈ V, p.relate cs e x ≠ .equal) :
    d.store.bare x = p.bare x ∧ ∀ v ∈ V, d.store.bare v = s.bare v := by
  constructor
  · rw [hd.bare, if_neg]
    rintro ⟨hhas, -⟩
    obtain ⟨o, ho⟩ := Option.isSome_iff_exists.mp hhas
    exact h.fresh (hd.outcome x o ho).1
  · intro v hv
    rw [hd.bare, if_neg fun hmet => hnone v hv hmet.2, bare_of_get?_eq (hput v hv)]

/-- **The node is refused**: nothing becomes of the members. -/
theorem Sinking.refused (h : Incoming cs r trigger p V x fate)
    (hd : Sinking cs r trigger p V x fate d) (hput : ∀ v ∈ V, p.get? v = s.get? v)
    (hnarrow : p.relate cs .root x = .specializes) :
    d.store.Diagram cs V ∧ ∀ v ∈ V, d.store.get? v = s.get? v := by
  have hbelow : ∀ v ∈ V, p.relate cs v x = .specializes := fun v hv =>
    h.orderly.specializes_of_isCovered_of_specializes (h.diagram.isCovered_root h.lawful hv)
      hnarrow
  have hnotlow : ∀ v ∈ V, ¬ Lowest cs p x v := fun v hv hlow =>
    absurd ((hbelow v hv).symm.trans hlow.1) (by decide)
  refine ⟨hd.diagram_of_not_lowest h hnotlow, fun v hv => get?_eq_of_bare ?_ ?_⟩
  · show d.store.bare v = s.bare v
    rw [hd.bare, if_neg, bare_of_get?_eq (hput v hv)]
    rintro ⟨-, hequal⟩
    exact absurd ((hbelow v hv).symm.trans hequal) (by decide)
  · show d.store.children v = s.children v
    rw [hd.kept v hv fun hmet => hnotlow v hv hmet.2, children_of_get?_eq (hput v hv)]

end Results

/-- The empty clause is comparable to every clause. -/
theorem relate_empty_ne_incomparable (cs : Comparers) (c : Clause) :
    Clause.relate cs .empty c ≠ .incomparable := by
  rw [Clause.relate_swap cs c .empty]
  rcases Nat.eq_zero_or_pos c.size with hzero | hpos
  · have hcovers := Clause.covers_relate_empty cs hzero
    rcases (Relationship.covers_iff _).mp hcovers with hrel | hrel <;> rw [hrel] <;> decide
  · rw [Clause.relate_empty_of_pos cs hpos]
    decide

/-- The relationship of a member to the node that was just stored. -/
theorem relate_put (h : s.Diagram cs V) (hfree : s.FreeSound) (n : Node) {v : NodeId} {m : Node}
    (hv : v ∈ V) (hm : s.get? v = some m) :
    (s.put n).2.relate cs v (s.put n).1 = m.clause.relate cs n.clause := by
  refine relate_eq ((get?_put_of_mem h hfree n hv).trans hm) ?_
  rw [get?_put s n _ hfree.index_lt, if_pos rfl]

/-- **The end of a descent** is one of the three results, depending on how the incoming
node relates to the members. -/
theorem Sinking.inserted {p : Store} {clause : Clause} (h : Incoming cs r trigger p V x fate)
    (hd : Sinking cs r trigger p V x fate d) (hroot : d.outcomes.has .root = true)
    (hs : s.Diagram cs V) (hput : ∀ v ∈ V, p.get? v = s.get? v)
    (hself : p.get? x = some (.ofTrigger clause trigger))
    (hrelate : ∀ v ∈ V, ∀ m, s.get? v = some m → p.relate cs v x = m.clause.relate cs clause) :
    Inserted cs r trigger clause s V (destiny cs p x fate .root = .placed) d.store := by
  obtain ⟨root, hstored, hempty⟩ := Option.map_eq_some_iff.mp hs.root_clause
  have hrootx : p.relate cs .root x = Clause.relate cs .empty clause := by
    rw [hrelate .root hs.root_mem root hstored, hempty]
  by_cases hequal : ∃ e ∈ V, p.relate cs e x = .equal
  · obtain ⟨e, he, hex⟩ := hequal
    obtain ⟨m, hm⟩ := Option.isSome_iff_exists.mp (hs.stored e he)
    obtain ⟨hdestiny, hdiagram, hmembers⟩ := hd.joined h hroot hput he hex
    rw [hdestiny]
    exact .joined he hm ((hrelate e he m hm).symm.trans hex) hdiagram hmembers
  · have hnone : ∀ e ∈ V, p.relate cs e x ≠ .equal := fun e he hex => hequal ⟨e, he, hex⟩
    -- without an equal member the root decides
    cases hrel : p.relate cs .root x with
    | equal => exact absurd hrel (hnone _ hs.root_mem)
    | incomparable => exact absurd (hrootx.symm.trans hrel) (relate_empty_ne_incomparable cs _)
    | generalizes =>
      have hplaced : destiny cs p x fate .root = .placed := by
        rw [destiny, hrel, h.fate_placed hnone]
      obtain ⟨hnew, hold⟩ := hd.filed h hput hnone
      have hbare : p.bare x = some (.ofTrigger clause trigger) := by
        rw [Store.bare, hself]
        rfl
      rw [hplaced]
      refine .filed h.fresh (fun v hv m hm => ?_) (hd.diagram h hroot hnone hrel)
        (hnew.trans hbare) hold
      rw [← hrelate v hv m hm]
      exact hnone v hv
    | specializes =>
      have hadopted : destiny cs p x fate .root = .adopted := by
        rw [destiny, hrel]
      obtain ⟨hdiagram, hmembers⟩ := hd.refused h hput hrel
      rw [hadopted]
      refine .refused ?_ hdiagram hmembers
      rw [Clause.relate_swap cs .empty clause, ← hrootx, hrel]
      rfl

/-- **Inserting a clause into a covering diagram** has one of the three results. -/
theorem insert_spec (hcs : cs.Lawful) (h : s.Diagram cs V) (hfree : s.FreeSound)
    (ht : (r.get? trigger).isSome = true) (clause : Clause) :
    (s.insert cs r trigger clause).2.FreeSound ∧
      Inserted cs r trigger clause s V (s.insert cs r trigger clause).1
        (s.insert cs r trigger clause).2 := by
  set n := Node.ofTrigger clause trigger with hn
  obtain ⟨fate, hin⟩ := exists_incoming hcs h hfree ht clause
  rw [← hn] at hin
  set p := (s.put n).2 with hp
  set x := (s.put n).1 with hx
  have hself : p.get? x = some n := by
    rw [hp, get?_put s n x hfree.index_lt, if_pos hx]
  obtain ⟨houtcome, hd, hmet⟩ := sink_spec hin p.depthBound .root hin.diagram.root_mem
    (Nat.lt_of_succ_lt (height_succ_lt_depthBound hcs (hin.diagram.stored _ h.root_mem)))
    _ hin.sinking_start
  have heq : s.insert cs r trigger clause =
      (decide ((Store.sink cs r trigger x p.depthBound .root ⟨p, .empty⟩).1 = .placed),
        (Store.sink cs r trigger x p.depthBound .root ⟨p, .empty⟩).2.store) := rfl
  rw [heq, houtcome]
  exact ⟨(hfree.put n).congr hd.size hd.free hd.isSome,
    hd.inserted hin hmet.self h (fun v hv => get?_put_of_mem h hfree n hv) hself
      fun v hv m hm => relate_put h hfree n hv hm⟩

end Store

end Specificity
