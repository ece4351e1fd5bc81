import Specificity.Proofs.History
import Specificity.Proofs.Reading

/-!
# What the drawings of a tree show

Nodes are shared, so a tree is a graph, and under a registry that breaks the laws it may
even have cycles. Each drawing shows that graph once, and does so in writing: what is said
here of a drawing is said of what is read in its text (`Reads`). The graph description shows
each node once by its form: it goes through the walk from the root, and the walk lists no
node twice.

The outline has its own way through the graph, guided by what it has spelled out so far. It
spells nodes out in the order of the walk (`Draws.walk`). Its edges are only drawn by the
indentation: a line hangs below the last one before it that is one level less deep. They
are read back from there (`placed`), which finds each edge of the graph once (`Draws.places`):
the lines below a node leave the way down to it as it was (`Draws.path`), so the next
child hangs below the same node.
-/

namespace Specificity

/-! ## Reading an outline -/

namespace OutlineLine

/-- The way down to a line, the deepest node first, if `above` is the way down to the
line before, including that one. -/
def way (above : List NodeId) (l : OutlineLine) : List NodeId :=
  above.drop (above.length - l.depth)

/-- The nodes that are spelled out. -/
def spelled (lines : List OutlineLine) : List NodeId :=
  (lines.filter fun l => !l.repeated).map node

/-- **Each line with the node it hangs below**, read off the indentation. -/
def placed : List NodeId → List OutlineLine → List (Option NodeId × OutlineLine)
  | _, [] => []
  | above, l :: ls => ((l.way above).head?, l) :: placed (l.node :: l.way above) ls

/-- The way down to the last line, including that one. -/
def wayAfter (above : List NodeId) (lines : List OutlineLine) : List NodeId :=
  lines.foldl (fun above l => l.node :: l.way above) above

/-- The place of a line: the node it hangs below, and its own. -/
def place (x : Option NodeId × OutlineLine) : Option NodeId × NodeId := (x.1, x.2.node)

theorem placed_append (above : List NodeId) (xs ys : List OutlineLine) :
    placed above (xs ++ ys) = placed above xs ++ placed (wayAfter above xs) ys := by
  induction xs generalizing above with
  | nil => rfl
  | cons x xs ih =>
    rw [List.cons_append, placed, placed, ih]
    rfl

theorem map_snd_placed (above : List NodeId) (lines : List OutlineLine) :
    (placed above lines).map Prod.snd = lines := by
  induction lines generalizing above with
  | nil => rfl
  | cons l ls ih => rw [placed, List.map_cons, ih]

/-- **The way down to a line** is the part of what is above that is as long as it is deep. -/
theorem way_eq {above anc : List NodeId} {l : OutlineLine} (hdepth : l.depth = anc.length)
    (hanc : anc <:+ above) : l.way above = anc := by
  obtain ⟨rest, rfl⟩ := hanc
  rw [way, hdepth, List.length_append, Nat.add_sub_cancel, List.drop_left]

end OutlineLine

open OutlineLine

/-! ## What an outline draws -/

/-- The edges out of a node, each with the node as the place that it leads from. -/
def Store.places (s : Store) (v : NodeId) : List (Option NodeId × NodeId) :=
  (s.children v).map fun k => (some v, k)

/-- **Entries that draw the nodes** `ks`, which are `depth` levels deep, and what is below
them, where `shown` is spelled out before and `after` afterwards. -/
structure Draws (s : Store) (depth : Nat) (ks : List NodeId) (shown : Marks Unit)
    (lines : List OutlineLine) (after : Marks Unit) : Prop where
  /-- The nodes spelled out are those that a walk lists, in its order. -/
  walk : ∀ stack, s.fullWalk (ks ++ stack) shown = spelled lines ++ s.fullWalk stack after
  /-- What has a line is shown afterwards. -/
  marks : ∀ v, after.has v = true ↔ shown.has v = true ∨ v ∈ lines.map node
  /-- A line is a reference if its node was shown or has a line before. -/
  refers : ∀ before l later, lines = before ++ l :: later →
    (l.repeated = true ↔ shown.has l.node = true ∨ l.node ∈ before.map node)
  /-- The way down to where the lines hang is left as it was. -/
  path : ∀ anc above, anc.length = depth → anc <:+ above → anc <:+ wayAfter above lines
  /-- The lines stand for the edges to `ks` and those out of the nodes spelled out. -/
  places : ∀ p rest above, rest.length + 1 = depth → (p :: rest) <:+ above →
    ((placed above lines).map place).Perm
      (ks.map (fun k => (some p, k)) ++ (spelled lines).flatMap s.places)

namespace Draws

variable {s : Store} {depth : Nat} {ks ls : List NodeId} {shown between after : Marks Unit}
  {xs ys : List OutlineLine} {k : NodeId} {l : OutlineLine}

/-- Without nodes there are no lines. -/
theorem nil (s : Store) (depth : Nat) (shown : Marks Unit) : Draws s depth [] shown [] shown where
  walk _ := rfl
  marks v := by simp
  refers before l later h := by simp at h
  path _ _ _ h := h
  places _ _ _ _ _ := .refl _

/-- **A node that was shown** gets a reference. -/
theorem reference (hseen : shown.has l.node = true) (hrepeated : l.repeated = true)
    (hdepth : l.depth = depth) : Draws s depth [l.node] shown [l] shown := by
  have hspelled : spelled [l] = [] := by simp [spelled, hrepeated]
  exact {
    walk := fun stack => by
      rw [hspelled, List.singleton_append, Store.fullWalk_of_has hseen, List.nil_append]
    marks := fun v => by simp +contextual [hseen]
    refers := fun before l' later h => by
      rcases List.cons_eq_append_iff.mp h with ⟨rfl, h⟩ | ⟨before', rfl, h⟩
      · obtain ⟨rfl, rfl⟩ := List.cons.inj h
        simp [hseen, hrepeated]
      · simp at h
    path := fun anc above hanc h => by
      rw [wayAfter, List.foldl_cons, way_eq (hdepth.trans hanc.symm) h]
      exact List.suffix_cons _ _
    places := fun p rest above hrest h => by
      have hway : l.way above = p :: rest := way_eq (hdepth.trans hrest.symm) h
      rw [placed, hway, hspelled]
      exact .refl _ }

/-- **A node that was not shown** is spelled out, and what is below it is drawn one level
deeper. -/
theorem spellOut (hnew : ¬ shown.has l.node = true) (hrepeated : l.repeated = false)
    (hdepth : l.depth = depth)
    (hbelow : Draws s (depth + 1) (s.children l.node) (shown.set l.node ()) xs after) :
    Draws s depth [l.node] shown (l :: xs) after := by
  have hspelled : spelled (l :: xs) = l.node :: spelled xs := by simp [spelled, hrepeated]
  exact {
    walk := fun stack => by
      rw [hspelled, List.singleton_append, Store.fullWalk_of_not_has hnew, hbelow.walk,
        List.cons_append]
    marks := fun v => by
      rw [hbelow.marks, Marks.has_set, List.map_cons, List.mem_cons, or_assoc, or_left_comm]
    refers := fun before l' later h => by
      rcases List.cons_eq_append_iff.mp h with ⟨rfl, h⟩ | ⟨before', rfl, hxs⟩
      · obtain ⟨rfl, rfl⟩ := List.cons.inj h
        simp [hnew, hrepeated]
      · rw [hbelow.refers before' l' later hxs, Marks.has_set, List.map_cons, List.mem_cons,
          or_assoc, or_left_comm]
    path := fun anc above hanc h => by
      have hway : l.way above = anc := way_eq (hdepth.trans hanc.symm) h
      have hdeeper := hbelow.path (l.node :: anc) (l.node :: anc)
        (by rw [List.length_cons, hanc]) (List.suffix_refl _)
      rw [wayAfter, List.foldl_cons, hway]
      exact (List.suffix_cons _ _).trans hdeeper
    places := fun p rest above hrest h => by
      have hway : l.way above = p :: rest := way_eq (hdepth.trans hrest.symm) h
      have hdeeper := hbelow.places l.node (p :: rest) (l.node :: p :: rest)
        (by rw [List.length_cons, hrest]) (List.suffix_refl _)
      rw [placed, hway, hspelled, List.flatMap_cons]
      exact hdeeper.cons _ }

/-- **One list of nodes after the other.** -/
theorem append (h : Draws s depth ks shown xs between) (h' : Draws s depth ls between ys after) :
    Draws s depth (ks ++ ls) shown (xs ++ ys) after := by
  have hspelled : spelled (xs ++ ys) = spelled xs ++ spelled ys := by
    simp only [spelled, List.filter_append, List.map_append]
  exact {
    walk := fun stack => by
      rw [List.append_assoc, h.walk, h'.walk, hspelled, List.append_assoc]
    marks := fun v => by
      rw [h'.marks, h.marks, List.map_append, List.mem_append, or_assoc]
    refers := fun before l later hsplit => by
      rcases List.append_eq_append_iff.mp hsplit with ⟨earlier, rfl, hys⟩ | ⟨rest, hxs, hlater⟩
      · rw [h'.refers earlier l later hys, h.marks, List.map_append, List.mem_append, or_assoc]
      · cases rest with
        | nil =>
          -- the line is the first of the second list
          rw [List.append_nil] at hxs
          rw [h'.refers [] l later hlater.symm, h.marks, hxs]
          simp
        | cons l' rest =>
          obtain ⟨rfl, rfl⟩ := List.cons.inj hlater
          exact h.refers before l rest hxs
    path := fun anc above hanc habove => by
      rw [wayAfter, List.foldl_append]
      exact h'.path anc _ hanc (h.path anc above hanc habove)
    places := fun p rest above hrest habove => by
      have hleft := h.places p rest above hrest habove
      have hright := h'.places p rest _ hrest (h.path (p :: rest) above hrest habove)
      rw [placed_append, List.map_append, hspelled, List.map_append, List.flatMap_append]
      refine (hleft.append hright).trans (List.perm_iff_count.mpr fun x => ?_)
      simp only [List.count_append]
      omega }

end Draws

/-! ## The fuel of an outline -/

section

variable {s : Store} {depth fuel : Nat} {ks : List NodeId} {shown after : Marks Unit} {v : NodeId}

/-- The number of slots that are not spelled out. -/
def Store.unshown (s : Store) (shown : Marks Unit) : Nat :=
  ((Finset.range s.slots.size).filter fun i => ¬ shown.has ⟨i⟩ = true).card

theorem Store.unshown_le_size (s : Store) (shown : Marks Unit) :
    s.unshown shown ≤ s.slots.size :=
  (Finset.card_filter_le _ _).trans_eq (Finset.card_range _)

theorem Store.unshown_le (h : ∀ v, shown.has v = true → after.has v = true) :
    s.unshown after ≤ s.unshown shown :=
  Finset.card_le_card (Finset.monotone_filter_right _ fun i _ hi hhas => hi (h ⟨i⟩ hhas))

/-- **Spelling a node out** leaves fewer, unless there is nothing below it. -/
theorem Store.children_eq_nil_or_unshown_lt (hnew : ¬ shown.has v = true)
    (hfuel : s.unshown shown < fuel + 1) :
    s.children v = [] ∨ s.unshown (shown.set v ()) < fuel := by
  cases hget : s.get? v with
  | none => exact .inl (children_eq_nil_of_get?_eq_none hget)
  | some n =>
    have hlt : v.index < s.slots.size := index_lt_of_isSome (by rw [hget]; rfl)
    have hfewer : s.unshown (shown.set v ()) < s.unshown shown := by
      refine Finset.card_lt_card (Finset.ssubset_iff_of_subset ?_ |>.mpr ⟨v.index, ?_, ?_⟩)
      · exact Finset.monotone_filter_right _ fun i _ hi hhas =>
          hi ((Marks.has_set _ _ _ _).mpr (.inr hhas))
      · exact Finset.mem_filter.mpr ⟨Finset.mem_range.mpr hlt, hnew⟩
      · exact fun hmem => (Finset.mem_filter.mp hmem).2 ((Marks.has_set _ _ _ _).mpr (.inl rfl))
    exact .inr (by omega)

/-- **Drawing nodes one after the other**, as long as each visit has the fuel it needs. -/
theorem draws_visitAll {visit : NodeId × Bool → Marks Unit → List OutlineEntry × Marks Unit}
    {tells : OutlineEntry → OutlineLine}
    (hvisit : ∀ k last shown, s.unshown shown < fuel →
      Draws s depth [k] shown ((visit (k, last) shown).1.map tells) (visit (k, last) shown).2)
    (hfuel : ks = [] ∨ s.unshown shown < fuel) :
    Draws s depth ks shown ((visitAll visit (withLast ks) shown).1.flatten.map tells)
      (visitAll visit (withLast ks) shown).2 := by
  induction ks generalizing shown with
  | nil => exact .nil s depth shown
  | cons k ks ih =>
    have hfuel := hfuel.resolve_left (List.cons_ne_nil k ks)
    have hk := hvisit k ks.isEmpty shown hfuel
    rw [withLast, visitAll_cons, List.flatten_cons, List.map_append]
    refine hk.append (ih (.inr (Nat.lt_of_le_of_lt (Store.unshown_le fun v hv => ?_) hfuel)))
    exact (hk.marks v).mpr (.inl hv)

end

namespace Tree

variable {α : Type} {tree : Tree α}

/-- **The lines at and below a node draw it.** The induction is on the fuel. -/
theorem draws_outlineBelow (tree : Tree α) {fuel : Nat} (above : List Bool) (k : NodeId)
    (last : Bool) {shown : Marks Unit} (hfuel : tree.store.unshown shown < fuel) :
    Draws tree.store above.length [k] shown
      ((tree.outlineBelow fuel (leadOf above) (k, last) shown).1.map tree.said)
      (tree.outlineBelow fuel (leadOf above) (k, last) shown).2 := by
  induction fuel generalizing above k last shown with
  | zero => exact absurd hfuel (Nat.not_lt_zero _)
  | succ fuel ih =>
    by_cases hseen : shown.has k = true
    · rw [outlineBelow, if_pos hseen]
      exact Draws.reference (l := tree.said ⟨leadOf above, last, k, true⟩) hseen rfl
        (tree.depth_said rfl)
    · rw [outlineBelow, if_neg hseen]
      refine Draws.spellOut (l := tree.said ⟨leadOf above, last, k, false⟩) hseen rfl
        (tree.depth_said rfl) ?_
      refine draws_visitAll (fun k last' shown hfuel => ?_)
        (Store.children_eq_nil_or_unshown_lt hseen hfuel)
      have hbelow := ih (above ++ [last]) k last' hfuel
      rwa [leadOf_append, List.length_append] at hbelow

/-- The lines of the outline. -/
def outlineLines (tree : Tree α) : List OutlineLine := tree.outline.map tree.said

/-- **The outline draws the root.** -/
theorem draws_outlineLines (tree : Tree α) :
    ∃ after, Draws tree.store 0 [.root] .empty tree.outlineLines after :=
  ⟨_, tree.draws_outlineBelow [] .root true (Nat.lt_succ_of_le (Store.unshown_le_size _ _))⟩

/-- The line of the root is followed by those that draw what is below it. -/
theorem exists_outlineLines (tree : Tree α) :
    ∃ below after, tree.outlineLines = ⟨0, .root, false, tree.caption .root⟩ :: below ∧
      Draws tree.store 1 (tree.store.children .root) (Marks.empty.set .root ()) below after := by
  have hnew : ¬ (Marks.empty : Marks Unit).has .root = true := Marks.not_has_empty _
  refine ⟨_, _, ?_, draws_visitAll (fun k last shown hfuel =>
    tree.draws_outlineBelow [true] k last hfuel)
    (Store.children_eq_nil_or_unshown_lt hnew
      (Nat.lt_succ_of_le (tree.store.unshown_le_size _)))⟩
  rw [outlineLines, outline, outlineBelow, if_neg hnew]
  rfl

/-! ## The edges of a tree -/

/-- **The edges between nodes that are reached**, in the order of the walk. -/
def edges (tree : Tree α) : List (NodeId × NodeId) :=
  tree.preorder.flatMap fun p => (tree.store.children p).map fun c => (p, c)

theorem mem_edges_iff (tree : Tree α) (p c : NodeId) :
    (p, c) ∈ tree.edges ↔ tree.store.Reachable p ∧ c ∈ tree.store.children p := by
  rw [← Store.mem_preorder_iff]
  simp [edges, preorder]

/-- Edges are listed once if children are. -/
theorem nodup_edges (h : tree.store.ListsOnce) : tree.edges.Nodup := by
  refine List.nodup_flatMap.mpr ⟨fun p _ => (h.children p).map fun _ _ => congrArg Prod.snd, ?_⟩
  refine tree.store.nodup_preorder.imp fun hne e hp hq => hne ?_
  obtain ⟨c, -, rfl⟩ := List.mem_map.mp hp
  obtain ⟨d, -, hd⟩ := List.mem_map.mp hq
  exact (congrArg Prod.fst hd).symm

/-! ## Both drawings -/

end Tree

namespace OutlineLine

/-- The places of the lines that spell a node out. -/
def spelledPlaces (lines : List OutlineLine) : List (Option NodeId × NodeId) :=
  ((placed [] lines).filter fun x => !x.2.repeated).map place

/-- The places of the lines that refer to a node spelled out before. -/
def referencePlaces (lines : List OutlineLine) : List (Option NodeId × NodeId) :=
  ((placed [] lines).filter fun x => x.2.repeated).map place

end OutlineLine

namespace Tree

variable {α : Type} {tree : Tree α}

/-- **Lines that outline a tree**: each node that is reached is spelled out once, and each
edge between such nodes is drawn once. -/
structure OutlinedBy (tree : Tree α) (lines : List OutlineLine) : Prop where
  /-- A line gives the caption of its node, or, after a caret, only its handle. -/
  labelled : ∀ l ∈ lines, l.text = if l.repeated then toString l.node else tree.caption l.node
  /-- The lines spell each node out once, in the order of the walk. -/
  spelled : (spelledPlaces lines).map Prod.snd = tree.preorder
  /-- A line is a reference if its node has a line before. -/
  refers : ∀ before l later, lines = before ++ l :: later →
    (l.repeated = true ↔ l.node ∈ before.map OutlineLine.node)
  /-- Besides the root's, the lines stand for the edges, one for each. -/
  drawn : (spelledPlaces lines ++ referencePlaces lines).Perm
    ((none, .root) :: tree.edges.map fun e => (some e.1, e.2))
  /-- An edge has one reference, unless its child is spelled out there. -/
  referred : ∀ p c, (p, c) ∈ tree.edges →
    (referencePlaces lines).count (some p, c) = if (some p, c) ∈ spelledPlaces lines then 0 else 1
  /-- There is one line more than there are edges. -/
  counted : lines.length = tree.edges.length + 1

/-- **The walk and both drawings show a tree once**: each node that is reached and each edge
between such nodes. -/
structure ShownOnce (tree : Tree α) : Prop where
  /-- The walk lists each node once. -/
  walked : tree.preorder.Nodup ∧ ∀ v, v ∈ tree.preorder ↔ tree.store.Reachable v
  /-- Each edge is listed once. -/
  linked : tree.edges.Nodup ∧
    ∀ p c, (p, c) ∈ tree.edges ↔ tree.store.Reachable p ∧ c ∈ tree.store.children p
  /-- A caption gives the handle of a node, its clause and the triggers visible at it. -/
  captioned : ∀ v, tree.store.Reachable v → ∃ n, tree.store.get? v = some n ∧
    tree.caption v = toString v ++ " " ++ toString n.clause ++
      if n.visible = [] then "" else " [" ++ ", ".intercalate (n.visible.map toString) ++ "]"
  /-- What is read in the written outline shows the tree once. -/
  outlined : ∃ lines, Reads OutlineLine.read? tree.print.toList lines ∧ tree.OutlinedBy lines
  /-- In the written graph description one statement is read for each node and one for each
  edge. -/
  described : ∃ body lines,
    tree.printDot = "digraph TriggerTree \x7b\n    node [shape=box];\n" ++ body ++ "\x7d\n" ∧
    Reads DotLine.read? body.toList lines ∧
    lines.Perm (tree.preorder.map (fun v => .node v (tree.caption v)) ++
      tree.edges.map fun e => .edge e.1 e.2)

/-- The nodes spelled out are those of the walk. -/
theorem spelled_outlineLines (tree : Tree α) : spelled tree.outlineLines = tree.preorder := by
  obtain ⟨after, hdraws⟩ := tree.draws_outlineLines
  have hwalk := hdraws.walk []
  rw [Store.fullWalk_nil, List.append_nil, List.append_nil] at hwalk
  exact hwalk.symm.trans tree.store.preorder_eq_fullWalk.symm

/-- **The places of the lines** are that of the root and the ends of the edges. -/
theorem perm_places (tree : Tree α) :
    ((placed [] tree.outlineLines).map place).Perm
      ((none, .root) :: tree.edges.map fun e => (some e.1, e.2)) := by
  obtain ⟨below, after, houtline, hbelow⟩ := tree.exists_outlineLines
  have hplaces := hbelow.places .root [] [.root] rfl (List.suffix_refl _)
  have hwalk := tree.spelled_outlineLines
  have hedges : tree.edges.map (fun e => (some e.1, e.2)) =
      (spelled tree.outlineLines).flatMap tree.store.places := by
    rw [hwalk, edges, List.map_flatMap]
    simp only [List.map_map]
    rfl
  rw [hedges, houtline]
  exact hplaces.cons _

/-- The lines that spell a node out and the references are all lines. -/
theorem perm_spelledPlaces_append (tree : Tree α) :
    (spelledPlaces tree.outlineLines ++ referencePlaces tree.outlineLines).Perm
      ((none, .root) :: tree.edges.map fun e => (some e.1, e.2)) := by
  refine List.Perm.trans ?_ tree.perm_places
  rw [spelledPlaces, referencePlaces, ← List.map_append]
  exact (List.perm_append_comm.trans (List.filter_append_perm _ _)).map place

/-- **The references of an edge**: there is one line for it, and a reference is what does
not spell its node out. -/
theorem count_referencePlaces (h : tree.store.ListsOnce) {p c : NodeId}
    (hedge : (p, c) ∈ tree.edges) :
    (referencePlaces tree.outlineLines).count (some p, c) =
      if (some p, c) ∈ spelledPlaces tree.outlineLines then 0 else 1 := by
  have hnodup : (tree.edges.map fun e => (some e.1, e.2)).Nodup :=
    (nodup_edges h).map fun _ _ heq => by simpa [Prod.ext_iff] using heq
  have hone : (tree.edges.map fun e => (some e.1, e.2)).count (some p, c) = 1 :=
    List.count_eq_one_of_mem hnodup (List.mem_map.mpr ⟨(p, c), hedge, rfl⟩)
  have hcount := tree.perm_spelledPlaces_append.count_eq (some p, c)
  rw [List.count_append, List.count_cons_of_ne (by simp), hone] at hcount
  split
  · next hmem =>
    have hpos := List.count_pos_iff.mpr hmem
    omega
  · next hnot =>
    rw [List.count_eq_zero.mpr hnot] at hcount
    omega

/-- **The outline of a tree whose children are listed once.** -/
theorem outlinedBy_outlineLines (h : tree.store.ListsOnce) :
    tree.OutlinedBy tree.outlineLines where
  labelled l hl := by
    obtain ⟨e, -, rfl⟩ := List.mem_map.mp hl
    rfl
  spelled := by
    have hfilter := List.filter_map (f := Prod.snd) (p := fun l : OutlineLine => !l.repeated)
      (l := placed [] tree.outlineLines)
    rw [map_snd_placed] at hfilter
    rw [← spelled_outlineLines, OutlineLine.spelled, hfilter, spelledPlaces, List.map_map,
      List.map_map]
    rfl
  refers before l later hsplit := by
    obtain ⟨after, hdraws⟩ := tree.draws_outlineLines
    rw [hdraws.refers before l later hsplit]
    exact or_iff_right (Marks.not_has_empty _)
  drawn := tree.perm_spelledPlaces_append
  referred _ _ := count_referencePlaces h
  counted := by
    have hlength := tree.perm_places.length_eq
    rwa [List.length_map, List.length_cons, List.length_map, ← List.length_map Prod.snd,
      map_snd_placed] at hlength

/-- **The lines of the graph description** are those of the nodes and of the edges. -/
theorem perm_stated (tree : Tree α) :
    (tree.dotStatements.map tree.stated).Perm
      (tree.preorder.map (fun v => .node v (tree.caption v)) ++
        tree.edges.map fun e => .edge e.1 e.2) := by
  have hlines : tree.dotStatements.map tree.stated = tree.preorder.flatMap fun v =>
      .node v (tree.caption v) :: (tree.store.children v).map (DotLine.edge v) := by
    rw [dotStatements, List.map_flatMap]
    simp only [List.map_cons, List.map_map]
    rfl
  have hedges : tree.edges.map (fun e => DotLine.edge e.1 e.2) =
      tree.preorder.flatMap fun p => (tree.store.children p).map (DotLine.edge p) := by
    rw [edges, List.map_flatMap]
    simp only [List.map_map]
    rfl
  rw [hlines, hedges]
  exact (List.map_append_flatMap_perm _ _ _).symm

/-- **Any tidy tree is shown once.** -/
theorem shownOnce_of_tidy {known : TriggerId → Prop} (h : tree.store.Tidy known) :
    tree.ShownOnce where
  walked := ⟨tree.store.nodup_preorder, tree.store.mem_preorder_iff⟩
  linked := ⟨nodup_edges h.once, tree.mem_edges_iff⟩
  captioned v hv := by
    obtain ⟨n, hn⟩ := Option.isSome_iff_exists.mp (h.isSome_of_reachable hv)
    exact ⟨n, hn, caption_of_get? hn⟩
  outlined := ⟨tree.outlineLines, tree.reads_print, outlinedBy_outlineLines h.once⟩
  described := ⟨_, _, rfl, tree.reads_statements, tree.perm_stated⟩

/-- **Every reached tree is shown once** by the walk and by both drawings, under any
registry. -/
theorem shownOnce_of_run [DecidableEq α] (cs : Comparers) (opts : List Optimizer)
    (changes : List (Change α)) : (run cs opts changes).ShownOnce :=
  shownOnce_of_tidy (reached_run cs opts changes).tidy

/-- A node below two others is spelled out below the first of them. -/
example :
    let tree : Tree Nat := run .empty [] [.add (.accessor "a") 1 [], .add (.accessor "b") 2 [],
      .add (.and [.accessor "a", .accessor "b"]) 3 []]
    tree.print =
      "└── n0 ()\n" ++
      "    ├── n1 (a) [t0]\n" ++
      "    │   └── n3 (a && b) [t2]\n" ++
      "    └── n2 (b) [t1]\n" ++
      "        └── ^n3\n" := by
  decide +kernel

end Tree

end Specificity
