import Specificity.Proofs.Store.Splicing
import Specificity.Proofs.Store.Sweeping
import Specificity.Proofs.Visibility

/-!
# The upkeep of a store under any registry

A registry may break the laws of a judge. Its store need not be a covering diagram then,
and a way down may lead back. Some things hold of it nevertheless, because the operations
do not ask the judges about them: no slot that is in use is handed out, no child is left
without its node or listed twice, and the root stays what it is (`Store.Tidy`).

What is common to placing, settling and splicing is that they only move nodes about
(`Store.Moved`): they rewrite lists of children, and make a child only of a node that is
one already or that they are given.
-/

namespace Specificity

namespace Store

variable {α : Type} {cs : Comparers} {r : Register α} {trigger : TriggerId} {s t : Store}
  {K : Set NodeId} {known known' : TriggerId → Prop} {id child candidate : NodeId}
  {f : Node → Node}

/-! ## Lists of children -/

/-- **No node lists a child twice.** -/
def ListsOnce (s : Store) : Prop := ∀ v n, s.get? v = some n → n.children.Nodup

namespace ListsOnce

theorem children (h : s.ListsOnce) (v : NodeId) : (s.children v).Nodup := by
  unfold Store.children
  split
  · next n hn => exact h v n hn
  · exact .nil

theorem update (h : s.ListsOnce) (id : NodeId)
    (hf : ∀ n, n.children.Nodup → (f n).children.Nodup) : (s.update id f).ListsOnce := by
  intro v n hn
  rw [get?_update] at hn
  split at hn
  · obtain ⟨m, hm, rfl⟩ := Option.map_eq_some_iff.mp hn
    exact hf m (h v m hm)
  · exact h v n hn

theorem unlink (h : s.ListsOnce) (id child : NodeId) : (s.unlink id child).ListsOnce :=
  h.update id fun _ hn => hn.filter _

/-- A child that is listed already is not listed again. -/
theorem link (h : s.ListsOnce) (id child : NodeId) : (s.link id child).ListsOnce := by
  refine h.update id fun n hn => ?_
  unfold Node.link
  split
  · exact hn
  · next hnew =>
    have hnew : child ∉ n.children := by simpa using hnew
    refine List.nodup_append.mpr ⟨hn, List.nodup_singleton child, ?_⟩
    rintro k hk l hl rfl
    exact hnew (List.mem_singleton.mp hl ▸ hk)

end ListsOnce

/-! ## Moving nodes about -/

/-- **Nodes were moved about**: the slots and their bare nodes are those of `s`, and every
child is one of `K`. -/
structure Moved (K : Set NodeId) (s t : Store) : Prop extends s.Rewired t where
  /-- Every child is one of `K`. -/
  fostered : ∀ v, ∀ k ∈ t.children v, k ∈ K
  /-- Children are listed once, if they were. -/
  once : s.ListsOnce → t.ListsOnce

namespace Moved

theorem unlink (h : Moved K s t) (id child : NodeId) : Moved K s (t.unlink id child) := by
  refine ⟨h.toRewired.trans (rewired_update (f := Node.unlink child) (fun _ => rfl) t id),
    fun v k hk => ?_, fun honce => (h.once honce).unlink id child⟩
  rw [children_unlink] at hk
  split at hk
  · exact h.fostered v k (List.mem_filter.mp hk).1
  · exact h.fostered v k hk

theorem link (h : Moved K s t) (id : NodeId) (hchild : child ∈ K) :
    Moved K s (t.link id child) := by
  have hbare : ∀ n : Node, (n.link child).bare = n.bare := fun n => by
    unfold Node.link
    split <;> rfl
  refine ⟨h.toRewired.trans (rewired_update hbare t id), fun v k hk => ?_,
    fun honce => (h.once honce).link id child⟩
  rcases (mem_children_link t id v child k).mp hk with hk | ⟨-, -, rfl⟩
  · exact h.fostered v k hk
  · exact hchild

/-- Moving one after the other. -/
theorem foldl {ι : Type} {step : Store → ι → Store} {is : List ι}
    (hstep : ∀ i ∈ is, ∀ t, Moved K s t → Moved K s (step t i)) (h : Moved K s t) :
    Moved K s (is.foldl step t) := by
  induction is generalizing t with
  | nil => exact h
  | cons i is ih =>
    exact ih (fun j hj => hstep j (List.mem_cons_of_mem i hj)) (hstep i List.mem_cons_self t h)

/-- **Placing moves nodes about.** The induction is on the fuel; what is placed next is
the candidate or a child. -/
theorem place (cs : Comparers) (fuel : Nat) (target : NodeId) (h : Moved K s t)
    (hcandidate : candidate ∈ K) : Moved K s (t.place cs fuel target candidate) := by
  induction fuel generalizing t target candidate with
  | zero => exact h
  | succ fuel ih =>
    rw [Store.place]
    split
    · exact h
    · split
      · exact h
      · exact ih _ h hcandidate
      · next narrower hpos =>
        refine link ?_ target hcandidate
        refine foldl (fun k hk u hu => ih candidate (hu.unlink target k) ?_) h
        exact h.fostered target k (position_beside hpos k hk).1

/-- Settling moves nodes about. -/
theorem settle (h : Moved K s t) (here : NodeId) (adopted : List NodeId) (hchild : child ∈ K) :
    Moved K s (t.settle here child adopted) :=
  link (foldl (fun k _ _ hu => hu.unlink here k) h) here hchild

/-- Splicing moves nodes about. -/
theorem splice (cs : Comparers) (parent child : NodeId) (h : Moved K s t) :
    Moved K s (t.splice cs parent child) := by
  have hunlinked := h.unlink parent child
  exact foldl (fun k hk u hu => hu.place cs u.depthBound parent (hunlinked.fostered child k hk))
    hunlinked

end Moved

/-! ## Tidy stores -/

/-- A child is one of a stored node. -/
theorem mem_children_iff {v k : NodeId} :
    k ∈ s.children v ↔ ∃ n, s.get? v = some n ∧ k ∈ n.children := by
  unfold children
  cases s.get? v with
  | none => simp
  | some n => simp

/-- What is a child after a sweep was one before, of a node that is reached. -/
theorem mem_children_sweep {v k : NodeId} (h : k ∈ s.sweep.children v) :
    s.Reachable v ∧ k ∈ s.children v := by
  obtain ⟨n, hn, hk⟩ := mem_children_iff.mp h
  obtain ⟨hv, hn⟩ := get?_sweep_eq_some hn
  exact ⟨hv, mem_children_iff.mpr ⟨n, hn, hk⟩⟩

/-- **A tidy store**: its free slots are in order, its root stands for the empty clause,
every child has its node and is listed once, and the triggers that nodes carry are known. -/
structure Tidy (known : TriggerId → Prop) (s : Store) : Prop where
  /-- Free slots are empty. -/
  free : s.FreeSound
  /-- The root stands for the empty clause. -/
  root_clause : (s.get? .root).map Node.clause = some .empty
  /-- Every child has its node. -/
  stored : ∀ v, ∀ k ∈ s.children v, (s.get? k).isSome = true
  /-- Children are listed once. -/
  once : s.ListsOnce
  /-- The triggers that nodes carry are known. -/
  known : ∀ v n, s.get? v = some n → ∀ u ∈ n.carried, known u

namespace Tidy

theorem mono (h : s.Tidy known) (hknown : ∀ u, known u → known' u) : s.Tidy known' :=
  ⟨h.free, h.root_clause, h.stored, h.once, fun v n hn u hu => hknown u (h.known v n hn u hu)⟩

/-- The store without triggers is tidy. -/
theorem initial (known : TriggerId → Prop) : Store.initial.Tidy known where
  free := freeSound_initial
  root_clause := rfl
  stored v k hk := by
    obtain ⟨n, hn, hk⟩ := mem_children_iff.mp hk
    rw [(get?_initial hn).2] at hk
    exact absurd hk List.not_mem_nil
  once v n hn := by
    rw [(get?_initial hn).2]
    exact .nil
  known v n hn u hu := by
    rw [(get?_initial hn).2] at hu
    exact absurd hu List.not_mem_nil

/-- **Moving stored nodes about** keeps a store tidy. -/
theorem moved (h : s.Tidy known) (hmoved : Moved {v | (s.get? v).isSome = true} s t) :
    t.Tidy known where
  free := h.free.congr hmoved.size hmoved.free hmoved.isSome
  root_clause := by
    rw [← clause_bare, hmoved.bare, clause_bare]
    exact h.root_clause
  stored v k hk := by
    rw [hmoved.isSome]
    exact hmoved.fostered v k hk
  once := hmoved.once h.once
  known v n hn u hu := by
    have hbare := hmoved.bare v
    rw [bare, hn] at hbare
    obtain ⟨m, hm, hmn⟩ := Option.map_eq_some_iff.mp hbare.symm
    refine h.known v m hm u ?_
    show u ∈ m.bare.carried
    rw [hmn]
    exact hu

/-- Nodes that are reached are stored. -/
theorem isSome_of_reachable (h : s.Tidy known) (hv : s.Reachable id) :
    (s.get? id).isSome = true := by
  cases hv with
  | refl =>
    rw [← Option.isSome_map (f := Node.clause), h.root_clause]
    rfl
  | tail _ hchild => exact h.stored _ id hchild

/-- A store is where its moves start. -/
theorem start (h : s.Tidy known) : Moved {v | (s.get? v).isSome = true} s s :=
  ⟨.refl s, h.stored, id⟩

/-- **Changing the triggers of a node** keeps a store tidy, if it brings in none that is
unknown. -/
theorem update (h : s.Tidy known) (id : NodeId) (hclause : ∀ n, (f n).clause = n.clause)
    (hchildren : ∀ n, (f n).children = n.children)
    (hcarried : ∀ n, ∀ u ∈ (f n).carried, u ∈ n.carried ∨ known u) :
    (s.update id f).Tidy known := by
  have hisSome : ∀ v, ((s.update id f).get? v).isSome = (s.get? v).isSome := fun v => by
    rw [get?_update]
    split
    · rw [Option.isSome_map]
    · rfl
  refine ⟨h.free.congr (slots_size_update s id f) rfl hisSome, ?_, fun v k hk => ?_,
    h.once.update id fun n hn => (hchildren n).symm ▸ hn, fun v n hn u hu => ?_⟩
  · rw [clause_update hclause]
    exact h.root_clause
  · rw [hisSome]
    rw [children_update hchildren] at hk
    exact h.stored v k hk
  · rw [get?_update] at hn
    split at hn
    · obtain ⟨m, hm, rfl⟩ := Option.map_eq_some_iff.mp hn
      exact (hcarried m u hu).elim (h.known v m hm u) fun hu => hu
    · exact h.known v n hn u hu

/-- **Storing a node** without children keeps a store tidy. -/
theorem put (h : s.Tidy known) {n : Node} (hleaf : n.children = [])
    (hknown : ∀ u ∈ n.carried, known u) : (s.put n).2.Tidy known := by
  have hget := fun v => get?_put s n v h.free.index_lt
  have hroot : (NodeId.root) ≠ (s.put n).1 := fun heq => by
    have hclause := h.root_clause
    rw [heq, get?_fst_put h.free] at hclause
    exact Option.some_ne_none _ hclause.symm
  refine ⟨h.free.put n, ?_, fun v k hk => ?_, fun v m hm => ?_, fun v m hm u hu => ?_⟩
  · rw [hget, if_neg hroot]
    exact h.root_clause
  · rw [hget]
    split
    · rfl
    · obtain ⟨m, hm, hk⟩ := mem_children_iff.mp hk
      rw [hget] at hm
      split at hm
      · rw [← Option.some.inj hm, hleaf] at hk
        exact absurd hk List.not_mem_nil
      · exact h.stored v k (mem_children_iff.mpr ⟨m, hm, hk⟩)
  · rw [hget] at hm
    split at hm
    · rw [← Option.some.inj hm, hleaf]
      exact .nil
    · exact h.once v m hm
  · rw [hget] at hm
    split at hm
    · obtain rfl := Option.some.inj hm
      exact hknown u hu
    · exact h.known v m hm u hu

/-- **Sweeping** keeps a store tidy. -/
theorem sweep (h : s.Tidy known) : s.sweep.Tidy known := by
  refine ⟨h.free.sweep, ?_, fun v k hk => ?_,
    fun v n hn => h.once v n (get?_sweep_eq_some hn).2, fun v n hn u hu => ?_⟩
  · rw [get?_sweep_of_reachable Relation.ReflTransGen.refl]
    exact h.root_clause
  · obtain ⟨hv, hk⟩ := mem_children_sweep hk
    rw [get?_sweep_of_reachable (Relation.ReflTransGen.tail hv hk)]
    exact h.stored v k hk
  · exact h.known v n (get?_sweep_eq_some hn).2 u hu

/-- **After a sweep** the nodes that are stored are those that are reached. -/
theorem isSome_sweep_iff (h : s.Tidy known) (v : NodeId) :
    (s.sweep.get? v).isSome = true ↔ s.sweep.Reachable v := by
  rw [Store.isSome_sweep_iff, reachable_sweep_iff]
  exact ⟨And.left, fun hv => ⟨hv, h.isSome_of_reachable hv⟩⟩

/-! ## Insertions -/

section

variable [DecidableEq α] {x here : NodeId} {d : Descent}

theorem join (h : s.Tidy known) (htrigger : known trigger) (here : NodeId) :
    (s.join cs r trigger here).2.Tidy known := by
  rcases join_cases cs r trigger here s with heq | heq
  · rw [heq]
    exact h
  · rw [heq]
    refine h.update here (fun _ => rfl) (fun _ => rfl) fun n u hu => ?_
    rw [Node.carried_join, List.mem_append, List.mem_singleton] at hu
    rcases hu with hu | rfl
    · exact .inl hu
    · exact .inr htrigger

/-- **A tidy store with the incoming node** `x` in it. -/
def With (known : TriggerId → Prop) (x : NodeId) (s : Store) : Prop :=
  s.Tidy known ∧ (s.get? x).isSome = true

theorem With.moved (h : With known x s) (hmoved : Moved {v | (s.get? v).isSome = true} s t) :
    With known x t := by
  refine ⟨h.1.moved hmoved, ?_⟩
  rw [hmoved.isSome]
  exact h.2

/-- **Where the incoming node meets another one** the store stays tidy. -/
theorem With.meet {visit : NodeId → Descent → Outcome × Descent} (htrigger : known trigger)
    (hvisit : ∀ k d, With known x d.store → With known x (visit k d).2.store)
    (here : NodeId) (h : With known x d.store) :
    With known x (Store.meet cs r trigger x visit here d).2.store := by
  have hall : With known x (visitAll visit (d.store.children here) d).2.store :=
    visitAll_invariant visit _ d (fun d => With known x d.store)
      (fun k _ a ha => hvisit k a ha) h
  unfold Store.meet
  split
  · refine ⟨h.1.join htrigger here, ?_⟩
    rw [← Option.isSome_map (f := Node.clause), clause_join, Option.isSome_map]
    exact h.2
  · next hrel =>
    refine h.moved (h.1.start.place cs _ x ?_)
    exact (isSome_of_relate (by rw [hrel]; decide)).1
  · exact hall
  · dsimp only
    split
    · exact hall.moved (hall.1.start.settle here _ hall.2)
    · exact hall

/-- **The descent** keeps the store tidy. The induction is on the fuel. -/
theorem With.sink (htrigger : known trigger) (fuel : Nat) (here : NodeId)
    (h : With known x d.store) :
    With known x (Store.sink cs r trigger x fuel here d).2.store := by
  induction fuel generalizing here d with
  | zero => exact h
  | succ fuel ih =>
    rw [Store.sink]
    split
    · exact h
    · exact h.meet htrigger (fun k d hd => ih k hd) here

/-- **Inserting a clause** keeps a store tidy. -/
theorem insert (h : s.Tidy known) (htrigger : known trigger) (cs : Comparers) (r : Register α)
    (clause : Clause) : (s.insert cs r trigger clause).2.Tidy known := by
  have htidy := h.put (n := .ofTrigger clause trigger) rfl fun u hu =>
    List.mem_singleton.mp hu ▸ htrigger
  have hstored : ((s.put (.ofTrigger clause trigger)).2.get?
      (s.put (.ofTrigger clause trigger)).1).isSome = true := by
    rw [get?_put s _ _ h.free.index_lt, if_pos rfl]
    rfl
  rw [Store.insert]
  generalize s.put (.ofTrigger clause trigger) = stored at htidy hstored ⊢
  obtain ⟨x, p⟩ := stored
  have hsink : With known x (Store.sink cs r trigger x p.depthBound .root ⟨p, .empty⟩).2.store :=
    With.sink htrigger _ _ ⟨htidy, hstored⟩
  exact hsink.1

end

/-! ## Withdrawals -/

/-- **The withdrawal at and below a node** keeps the store tidy. The induction is on the
fuel. -/
theorem withdrawBelow (fuel : Nat) (here : NodeId) {w : Withdrawal} (h : w.store.Tidy known) :
    (Store.withdrawBelow cs r trigger fuel here w).store.Tidy known := by
  induction fuel generalizing here w with
  | zero => exact h
  | succ fuel ih =>
    by_cases hmet : w.met.has here = true
    · rw [Store.withdrawBelow, if_pos hmet]
      exact h
    · rw [withdrawBelow_succ hmet]
      have hhere : (withdrawHere cs r trigger here w).store.Tidy known := by
        rw [(Splicing.withdrawHere_eq cs r trigger here w).2.1]
        exact h.update here (Node.clause_without _ _) (Node.children_without _ _)
          fun n u hu => .inl ((Node.carried_without_sublist _ _ n).subset hu)
      have hall : (withdrawChildren cs r trigger fuel here w).2.store.Tidy known :=
        visitAll_invariant _ _ _ (fun w : Withdrawal => w.store.Tidy known)
          (fun k _ a ha => ih k ha) hhere
      exact hall.moved (.foldl (fun k _ u hu => hu.splice cs here k) hall.start)

/-- **Withdrawing a trigger** keeps a store tidy. -/
theorem withdraw (h : s.Tidy known) (cs : Comparers) (r : Register α) (trigger : TriggerId) :
    (s.withdraw cs r trigger).2.Tidy known := h.withdrawBelow s.depthBound .root

end Tidy

end Store

end Specificity
