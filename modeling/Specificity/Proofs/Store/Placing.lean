import Specificity.Proofs.Store.Diagram
import Specificity.Tree.Insertion

/-!
# Placing a node below another one

Where the nodes further down are in order, placing a node comes to one change
of one list of children: `Relationship.adopt` leaves the list as it is if a
member is at least as wide as the newcomer, and otherwise puts the newcomer in
the place of those that are narrower (`Store.place_eq_rewire`). All the deeper
work finds the node where it already is and changes nothing
(`Store.place_eq_self`).
-/

namespace Specificity

/-! ## Adopting into a list -/

namespace Relationship

variable {β : Type} {judge : β → β → Relationship} {c v : β} {ks : List β}

/-- **Adopting**: the list with `c` in place of its narrower members, unless a
member is at least as wide as `c`. -/
def adopt (judge : β → β → Relationship) (c : β) (ks : List β) : List β :=
  if ks.any fun k => (judge c k).isCovered then ks
  else (ks.filter fun k => judge c k ≠ .generalizes) ++ [c]

theorem adopt_eq_self (h : ∃ k ∈ ks, (judge c k).isCovered = true) : adopt judge c ks = ks := by
  rw [adopt, if_pos (List.any_eq_true.mpr h)]

theorem adopt_eq_append (h : ∀ k ∈ ks, ¬ (judge c k).isCovered = true) :
    adopt judge c ks = (ks.filter fun k => judge c k ≠ .generalizes) ++ [c] := by
  rw [adopt, if_neg]
  intro hany
  obtain ⟨k, hk, hck⟩ := List.any_eq_true.mp hany
  exact h k hk hck

theorem mem_or_eq_of_mem_adopt (h : v ∈ adopt judge c ks) : v ∈ ks ∨ v = c := by
  unfold adopt at h
  split at h
  · exact .inl h
  · rw [List.mem_append, List.mem_singleton, List.mem_filter] at h
    exact h.imp And.left id

/-- Adopting keeps the members of a list incomparable. -/
theorem pairwise_adopt (hjudge : Orderly judge)
    (h : ks.Pairwise fun a b => judge a b = .incomparable) :
    (adopt judge c ks).Pairwise fun a b => judge a b = .incomparable := by
  unfold adopt
  split
  · exact h
  · next hnone =>
    simp only [List.any_eq_true, not_exists, not_and] at hnone
    refine List.pairwise_append.mpr ⟨h.filter _, List.pairwise_singleton _ _, ?_⟩
    intro k hk d hd
    rw [List.mem_singleton.mp hd]
    obtain ⟨hmem, hwide⟩ := List.mem_filter.mp hk
    refine hjudge.incomparable_symm (Relationship.eq_incomparable_iff _ |>.mpr
      ⟨hnone k hmem, fun hcovers => ?_⟩)
    rcases (covers_iff _).mp hcovers with hequal | hgeneral
    · exact hnone k hmem (isCovered_of_equal hequal)
    · simp [hgeneral] at hwide

/-- **Adopting loses nothing**: what was at or below a member or the newcomer
is at or below a member afterwards. -/
theorem exists_isCovered_adopt (ks : List β) (v c : β) (hjudge : Orderly judge)
    (h : (∃ k ∈ ks, (judge v k).isCovered = true) ∨ (judge v c).isCovered = true) :
    ∃ k ∈ adopt judge c ks, (judge v k).isCovered = true := by
  unfold adopt
  split
  · next hsome =>
    obtain ⟨w, hw, hcw⟩ := List.any_eq_true.mp hsome
    rcases h with h | hvc
    · exact h
    · exact ⟨w, hw, hjudge.isCovered_trans hvc hcw⟩
  · have hnew : c ∈ (ks.filter fun k => judge c k ≠ .generalizes) ++ [c] := by simp
    rcases h with ⟨k, hk, hvk⟩ | hvc
    · by_cases hgeneral : judge c k = .generalizes
      · have hkc := hjudge.generalizes_iff.mp hgeneral
        exact ⟨c, hnew, hjudge.isCovered_trans hvk (isCovered_of_specializes hkc)⟩
      · exact ⟨k, List.mem_append_left _ (List.mem_filter.mpr ⟨hk, by simpa using hgeneral⟩), hvk⟩
    · exact ⟨c, hnew, hvc⟩

end Relationship

namespace Store

variable {cs : Comparers} {s t : Store} {D W : Set NodeId} {c target : NodeId}
  {ks : List NodeId}

/-! ## Positions -/

/-- Among children none of which is at least as wide, a node belongs beside. -/
theorem position_eq_beside (h : ∀ k ∈ ks, k ≠ c ∧ ¬ (s.relate cs c k).isCovered = true) :
    s.position cs c ks = .beside (ks.filter fun k => s.relate cs c k = .generalizes) := by
  induction ks with
  | nil => rfl
  | cons k ks ih =>
    obtain ⟨hne, hnot⟩ := h k List.mem_cons_self
    have ih := ih fun l hl => h l (List.mem_cons_of_mem _ hl)
    rw [position, if_neg hne, ih, List.filter_cons]
    cases hrel : s.relate cs c k with
    | equal => exact absurd (Relationship.isCovered_of_equal hrel) hnot
    | specializes => exact absurd (Relationship.isCovered_of_specializes hrel) hnot
    | generalizes => simp
    | incomparable => simp

/-- **A child at least as wide decides**: the node is there, or belongs below a
wider child. -/
theorem position_of_isCovered
    (h : ∃ k ∈ ks, k = c ∨ (s.relate cs c k).isCovered = true) :
    s.position cs c ks = .taken ∨
      ∃ k ∈ ks, s.relate cs c k = .specializes ∧ s.position cs c ks = .below k := by
  induction ks with
  | nil =>
    obtain ⟨k, hk, -⟩ := h
    exact absurd hk List.not_mem_nil
  | cons k ks ih =>
    rw [position]
    split
    · exact .inl rfl
    · next hne =>
      have hrest (hnot : ¬ (s.relate cs c k).isCovered = true) :
          ∃ k ∈ ks, k = c ∨ (s.relate cs c k).isCovered = true := by
        obtain ⟨l, hl, hwide⟩ := h
        rcases List.mem_cons.mp hl with rfl | hl
        · exact absurd hwide (not_or.mpr ⟨hne, hnot⟩)
        · exact ⟨l, hl, hwide⟩
      split
      · exact .inl rfl
      · next hrel => exact .inr ⟨k, List.mem_cons_self, hrel, rfl⟩
      · next hrel =>
        refine (ih (hrest (by rw [hrel]; decide))).imp id ?_
        rintro ⟨l, hl, hlrel, hpos⟩
        exact ⟨l, List.mem_cons_of_mem _ hl, hlrel, hpos⟩
      · next hrel =>
        rcases ih (hrest (by rw [hrel]; decide)) with htaken | ⟨l, hl, hlrel, hpos⟩
        · exact .inl (by rw [htaken])
        · exact .inr ⟨l, List.mem_cons_of_mem _ hl, hlrel, by rw [hpos]⟩

/-- A node that belongs below a child is narrower than this child. -/
theorem position_below {k : NodeId} (h : s.position cs c ks = .below k) :
    k ∈ ks ∧ s.relate cs c k = .specializes := by
  induction ks with
  | nil => exact Position.noConfusion h
  | cons l ks ih =>
    rw [position] at h
    split at h
    · exact Position.noConfusion h
    · split at h
      · exact Position.noConfusion h
      · next hrel =>
        obtain rfl := Position.below.inj h
        exact ⟨List.mem_cons_self, hrel⟩
      · exact (ih h).imp_left (List.mem_cons_of_mem l)
      · split at h
        · exact Position.noConfusion h
        · exact (ih h).imp_left (List.mem_cons_of_mem l)

/-- A node that belongs beside the children is wider than those that belong below it. -/
theorem position_beside {narrower : List NodeId} (h : s.position cs c ks = .beside narrower) :
    ∀ k ∈ narrower, k ∈ ks ∧ s.relate cs c k = .generalizes := by
  induction ks generalizing narrower with
  | nil =>
    obtain rfl := Position.beside.inj h
    exact fun k hk => absurd hk List.not_mem_nil
  | cons l ks ih =>
    rw [position] at h
    split at h
    · exact Position.noConfusion h
    · split at h
      · exact Position.noConfusion h
      · exact Position.noConfusion h
      · exact fun k hk => (ih h k hk).imp_left (List.mem_cons_of_mem l)
      · next hrel =>
        split at h
        · next rest hrest =>
          obtain rfl := Position.beside.inj h
          intro k hk
          rcases List.mem_cons.mp hk with rfl | hk
          · exact ⟨List.mem_cons_self, hrel⟩
          · exact (ih hrest k hk).imp_left (List.mem_cons_of_mem l)
        · next hnot => exact absurd h (hnot narrower)

/-! ## Placing -/

/-- **Handing over a child** of the target to the candidate that is being placed there. -/
def handOver (cs : Comparers) (fuel : Nat) (target candidate : NodeId) (s : Store)
    (child : NodeId) : Store := (s.unlink target child).place cs fuel candidate child

/-- **Placing a node that is below already changes nothing.** Every node of `D`
has the widest members of `W` as children, so the search for a place goes down
to the node itself. The induction is on the fuel. -/
theorem place_eq_self (hcs : cs.Lawful) (hWD : W ⊆ D) (hD : ∀ u ∈ D, s.CoversAt cs W u)
    (hc : c ∈ W) (fuel : Nat) {target : NodeId} (htarget : target ∈ D)
    (hbelow : s.relate cs c target = .specializes) (hfuel : s.height cs target < fuel) :
    s.place cs fuel target c = s := by
  induction fuel generalizing target with
  | zero => exact absurd hfuel (Nat.not_lt_zero _)
  | succ fuel ih =>
    have hne : target ≠ c := by
      rintro rfl
      exact (orderly_relate hcs s).specializes_irrefl _ hbelow
    obtain ⟨k, hk, hck⟩ := (hD target htarget).covering c hc hbelow
    rw [place, if_neg hne]
    rcases position_of_isCovered ⟨k, hk, .inr hck⟩ with htaken | ⟨l, hl, hlrel, hpos⟩
    · rw [htaken]
    · rw [hpos]
      have hlt := height_lt hcs ((hD target htarget).narrower l hl)
      exact ih (hWD ((hD target htarget).mem l hl)) hlrel (by omega)

/-- Handing over narrower nodes of `W` comes to unlinking them. -/
theorem foldl_handOver_eq_foldl_unlink (hcs : cs.Lawful) (hWD : W ⊆ D)
    (hD : ∀ u ∈ D, s.CoversAt cs W u) (htarget : target ∉ D) (hc : c ∈ W) {fuel : Nat}
    (hfuel : s.height cs c < fuel)
    (hks : ∀ k ∈ ks, k ∈ W ∧ s.relate cs c k = .generalizes) (ht : s.Rewired t)
    (hchildren : ∀ u ∈ D, t.children u = s.children u) :
    ks.foldl (handOver cs fuel target c) t =
      ks.foldl (fun s k => s.unlink target k) t := by
  induction ks generalizing t with
  | nil => rfl
  | cons k ks ih =>
    obtain ⟨hk, hgeneral⟩ := hks k List.mem_cons_self
    have hunlink : s.Rewired (t.unlink target k) := by
      rw [unlink_eq_rewire]
      exact ht.trans (rewired_rewire _ _ _)
    have hchildren' : ∀ u ∈ D, (t.unlink target k).children u = s.children u := by
      intro u hu
      rw [unlink_eq_rewire, children_rewire_of_ne (ne_of_mem_of_not_mem hu htarget), hchildren u hu]
    have hself : t.handOver cs fuel target c k = t.unlink target k := by
      refine place_eq_self hcs hWD (fun u hu => ?_) hk fuel (hWD hc) ?_ ?_
      · exact (hD u hu).congr (hunlink.relate cs) (hchildren' u hu)
      · rw [hunlink.relate]
        exact (orderly_relate hcs s).generalizes_iff.mp hgeneral
      · rw [hunlink.height]
        exact hfuel
    rw [List.foldl_cons, List.foldl_cons, hself]
    exact ih (fun l hl => hks l (List.mem_cons_of_mem _ hl)) hunlink hchildren'

/-- **A newcomer with no wider child** is linked in place of the narrower children. -/
theorem place_eq_rewire_of_not_isCovered (hcs : cs.Lawful) (hWD : W ⊆ D)
    (hD : ∀ u ∈ D, s.CoversAt cs W u) (htarget : target ∉ D)
    (hstored : (s.get? target).isSome = true) (hc : c ∈ W) {fuel : Nat}
    (hfuel : s.height cs c < fuel)
    (hnew : ∀ k ∈ s.children target, k ≠ c ∧ ¬ (s.relate cs c k).isCovered = true)
    (hnarrow : ∀ k ∈ s.children target, s.relate cs c k = .generalizes → k ∈ W) :
    s.place cs (fuel + 1) target c =
      s.rewire target (Relationship.adopt (s.relate cs) c (s.children target)) := by
  have hne : target ≠ c := (ne_of_mem_of_not_mem (hWD hc) htarget).symm
  have hnarrower : ∀ k ∈ (s.children target).filter (fun k => s.relate cs c k = .generalizes),
      k ∈ W ∧ s.relate cs c k = .generalizes := by
    intro k hk
    obtain ⟨hmem, hgeneral⟩ := List.mem_filter.mp hk
    exact ⟨hnarrow k hmem (by simpa using hgeneral), by simpa using hgeneral⟩
  have hkeep : (s.children target).filter (fun k => k ∉ (s.children target).filter
        (fun k => s.relate cs c k = .generalizes))
      = (s.children target).filter (fun k => s.relate cs c k ≠ .generalizes) := by
    refine List.filter_congr fun k hk => ?_
    simp [hk]
  rw [place, if_neg hne, position_eq_beside hnew,
    Relationship.adopt_eq_append fun k hk => (hnew k hk).2]
  show (List.foldl (handOver cs fuel target c) s _).link target c = _
  rw [foldl_handOver_eq_foldl_unlink hcs hWD hD htarget hc hfuel hnarrower (Rewired.refl s)
      (fun _ _ => rfl),
    foldl_unlink_eq_rewire, hkeep, link_eq_rewire, children_rewire_self hstored, rewire_rewire]
  -- the newcomer is not among the children that are kept
  rw [children_rewire_self hstored]
  intro hmem
  exact (hnew c (List.mem_filter.mp hmem).1).1 rfl

/-- **Placing a node below another one**, whose children and all that is below
them are in order, is adopting it into the list of children. -/
theorem place_eq_rewire (hcs : cs.Lawful) (hWD : W ⊆ D) (hD : ∀ u ∈ D, s.CoversAt cs W u)
    (htarget : target ∉ D) (hstored : (s.get? target).isSome = true)
    (hstoredD : ∀ u ∈ D, (s.get? u).isSome = true) (hc : c ∈ W)
    (hks : ∀ k ∈ s.children target, k ∈ D)
    (hnarrow : ∀ k ∈ s.children target, s.relate cs c k = .generalizes → k ∈ W) :
    s.place cs s.depthBound target c =
      s.rewire target (Relationship.adopt (s.relate cs) c (s.children target)) := by
  have hfuel : ∀ u ∈ D, s.height cs u + 1 < s.depthBound := fun u hu =>
    height_succ_lt_depthBound hcs (hstoredD u hu)
  obtain ⟨fuel, hbound⟩ : ∃ fuel, s.depthBound = fuel + 1 :=
    Nat.exists_eq_succ_of_ne_zero (by have := hfuel c (hWD hc); omega)
  rw [hbound] at hfuel ⊢
  by_cases hwide : ∃ k ∈ s.children target, (s.relate cs c k).isCovered = true
  · -- a child is at least as wide, and `c` is found at or below it
    rw [Relationship.adopt_eq_self hwide, rewire_children, place,
      if_neg (ne_of_mem_of_not_mem (hWD hc) htarget).symm]
    obtain ⟨k, hk, hck⟩ := hwide
    rcases position_of_isCovered ⟨k, hk, .inr hck⟩ with htaken | ⟨l, hl, hlrel, hpos⟩
    · rw [htaken]
    · rw [hpos]
      exact place_eq_self hcs hWD hD hc fuel (hks l hl) hlrel
        (Nat.lt_of_succ_lt_succ (hfuel l (hks l hl)))
  · refine place_eq_rewire_of_not_isCovered hcs hWD hD htarget hstored hc
      (Nat.lt_of_succ_lt_succ (hfuel c (hWD hc))) (fun k hk => ⟨?_, fun hck => ?_⟩) hnarrow
    · rintro rfl
      exact hwide ⟨k, hk, isCovered_self hcs (hstoredD k (hWD hc))⟩
    · exact hwide ⟨k, hk, hck⟩

end Store

end Specificity
