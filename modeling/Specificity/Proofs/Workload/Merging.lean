import Specificity.Proofs.Workload.Sampling

/-!
# Samples in harmony

A compound condition is made from samples that were drawn with assignments of their own,
and comes with all of these merged. Where two of them set one name, the later one wins, and
the earlier sample may then no longer hold. That does not happen to what is drawn from
numbered predicates: all assignments to a name go back to the one predicate about it, so
whatever is merged sets a name to that one value (`Sample.Harmonious`).

A sample of such a pool holds wherever its own assignment does, whatever else is set
there (`Sample.Robust`). This is what passes to conjunctions and disjunctions: the merged
assignment extends that of each operand, so every operand is true there and none can fail.
That an operand merely holds in its own memory would not be enough.
-/

namespace Specificity

/-! ## Merging assignments -/

namespace NameMap

variable {α : Type}

/-- **Setting entries in ascending order**: a name that has an entry is set to it. -/
theorem get?_setAll {es : List (String × α)} (h : es.Pairwise fun a b => a.1 < b.1)
    (m : NameMap α) (name : String) :
    (m.setAll es).get? name = (es.lookup name).or (m.get? name) := by
  induction es generalizing m with
  | nil => rfl
  | cons e es ih =>
    obtain ⟨hhead, htail⟩ := List.pairwise_cons.mp h
    have hset : (m.setAll (e :: es)).get? name =
        (es.lookup name).or ((m.set e.1 e.2).get? name) := ih htail (m.set e.1 e.2)
    rw [hset, get?_set, lookup_cons_eq_ite]
    split
    · next hname =>
      -- no later entry is about the name
      have hnone : es.lookup name = none := by
        rw [Option.eq_none_iff_forall_ne_some]
        intro value hvalue
        have hlt := hhead _ ((mem_iff_lookup htail name value).mpr hvalue)
        exact String.lt_irrefl _ (hname ▸ hlt)
      rw [hnone, Option.none_or, Option.some_or]
    · rfl

/-- **Reading a union**: where the second map knows the name, it answers. -/
theorem get?_union (m n : NameMap α) (name : String) :
    (m.union n).get? name = (n.get? name).or (m.get? name) := get?_setAll n.sorted m name

end NameMap

/-- **A memory extends another one** if it sets all names that are set there, to the same
values. -/
def Memory.Extends (m n : Memory) : Prop :=
  ∀ name value, n.values.get? name = some value → m.values.get? name = some value

/-- The value of a name that is set to it. -/
theorem Memory.get_of_get? {m : Memory} {name : String} {value : Value}
    (h : m.values.get? name = some value) : m.get name = value := by
  rw [get, h, Option.getD_some]

namespace Sample

open Draw

variable {s t : Sample} {name : String} {value : Value} {pool parts base made : List Sample}

theorem get?_merge_concat (parts : List Sample) (s : Sample) (name : String) :
    (merge (parts ++ [s])).values.get? name =
      (s.memory.values.get? name).or ((merge parts).values.get? name) := by
  rw [merge_concat]
  exact NameMap.get?_union _ _ _

/-- **What merged samples set** one of them does. -/
theorem exists_of_get?_merge (h : (merge parts).values.get? name = some value) :
    ∃ s ∈ parts, s.memory.values.get? name = some value := by
  induction parts using List.reverseRecOn with
  | nil => exact (Option.some_ne_none value h.symm).elim
  | append_singleton parts t ih =>
    rw [get?_merge_concat, Option.or_eq_some_iff] at h
    rcases h with h | ⟨-, h⟩
    · exact ⟨t, List.mem_append_right _ (List.mem_singleton_self t), h⟩
    · obtain ⟨s, hs, h⟩ := ih h
      exact ⟨s, List.mem_append_left _ hs, h⟩

/-- What one of several samples sets is set when they are merged, if not to its value. -/
theorem exists_get?_merge (hs : s ∈ parts) (h : s.memory.values.get? name = some value) :
    ∃ value', (merge parts).values.get? name = some value' := by
  induction parts using List.reverseRecOn with
  | nil => exact absurd hs List.not_mem_nil
  | append_singleton parts t ih =>
    rw [get?_merge_concat]
    cases ht : t.memory.values.get? name with
    | some value' => exact ⟨value', rfl⟩
    | none =>
      refine ih ((List.mem_append.mp hs).resolve_right fun hst => ?_)
      rw [List.mem_singleton.mp hst, ht] at h
      exact Option.some_ne_none value h.symm

/-! ## Harmony -/

/-- **A robust sample** holds wherever its assignment does, whatever else is set. -/
def Robust (s : Sample) : Prop := ∀ m : Memory, m.Extends s.memory → s.expression.holds m = .ok true

theorem Robust.holds (h : s.Robust) : s.expression.holds s.memory = .ok true :=
  h s.memory fun _ _ hset => hset

/-- **Samples in harmony**: each is robust, and no two set a name to different values. -/
structure Harmonious (pool : List Sample) : Prop where
  /-- Each sample is robust. -/
  robust : ∀ s ∈ pool, s.Robust
  /-- Samples that set a name set it to one value. -/
  agree : ∀ s ∈ pool, ∀ t ∈ pool, ∀ name v w, s.memory.values.get? name = some v →
    t.memory.values.get? name = some w → v = w

/-- **Merging samples in harmony overwrites nothing**: the result extends the assignment of
each of them. -/
theorem Harmonious.extends_merge (h : Harmonious pool) (hsub : parts ⊆ pool) (hs : s ∈ parts) :
    (merge parts).Extends s.memory := by
  intro name value hvalue
  obtain ⟨value', hmerged⟩ := exists_get?_merge hs hvalue
  obtain ⟨t, ht, hvalue'⟩ := exists_of_get?_merge hmerged
  rw [h.agree s (hsub hs) t (hsub ht) name value value' hvalue hvalue']
  exact hmerged

/-- **A conjunction of samples in harmony is robust**, and so is a disjunction of one or
more: the first operand settles it. -/
theorem Harmonious.robust_combine (h : Harmonious pool) (hsub : parts ⊆ pool) :
    (combine .and parts).Robust ∧ (parts ≠ [] → (combine .or parts).Robust) := by
  have hparts : ∀ m : Memory, m.Extends (merge parts) →
      ∀ s ∈ parts, s.expression.holds m = .ok true := fun m hm s hs =>
    h.robust s (hsub hs) m fun name value hvalue =>
      hm name value (h.extends_merge hsub hs name value hvalue)
  constructor
  · intro m hm
    show (Expression.and (parts.map expression)).holds m = .ok true
    rw [Expression.holds_and, Expression.evalAll_eq_true_iff, List.forall_mem_map]
    exact hparts m hm
  · intro hne m hm
    obtain ⟨s, rest, rfl⟩ := List.exists_cons_of_ne_nil hne
    show (Expression.or (s.expression :: rest.map expression)).holds m = .ok true
    rw [Expression.holds_or, Expression.evalAny_cons, hparts m hm s List.mem_cons_self]
    rfl

/-- **A sample combined from a pool**: it is robust, and its assignment is merged from those
of members. -/
def CombinedFrom (pool : List Sample) (s : Sample) : Prop :=
  s.Robust ∧ ∃ parts ⊆ pool, s.memory = merge parts

/-- **What is combined from a pool in harmony** may join it. -/
theorem Harmonious.append (h : Harmonious pool) (hmade : ∀ s ∈ made, s.CombinedFrom pool) :
    Harmonious (pool ++ made) := by
  -- whatever sets a name, a sample of the pool sets it so
  have hfrom : ∀ s ∈ pool ++ made, ∀ name v, s.memory.values.get? name = some v →
      ∃ t ∈ pool, t.memory.values.get? name = some v := fun s hs name v hv => by
    rcases List.mem_append.mp hs with hs | hs
    · exact ⟨s, hs, hv⟩
    · obtain ⟨-, parts, hsub, hmemory⟩ := hmade s hs
      rw [hmemory] at hv
      obtain ⟨t, ht, hv⟩ := exists_of_get?_merge hv
      exact ⟨t, hsub ht, hv⟩
  refine ⟨List.forall_mem_append.mpr ⟨h.robust, fun s hs => (hmade s hs).1⟩, ?_⟩
  intro s hs t ht name v w hv hw
  obtain ⟨s', hs', hv⟩ := hfrom s hs name v hv
  obtain ⟨t', ht', hw⟩ := hfrom t ht name w hw
  exact h.agree s' hs' t' ht' name v w hv hw

/-! ## What is drawn -/

/-- A predicate about a name sets that name alone. -/
theorem About.get?_eq_some_iff {other : String} {v : Value} (h : s.About name value) :
    s.memory.values.get? other = some v ↔ other = name ∧ v = value := by
  rw [h.memory]
  show (NameMap.empty.set name value).get? other = some v ↔ _
  rw [NameMap.get?_set, NameMap.get?_empty]
  split
  · next heq => exact ⟨fun hv => ⟨heq, (Option.some.inj hv).symm⟩, fun hv => by rw [hv.2]⟩
  · next hne =>
    exact ⟨fun hv => (Option.some_ne_none v hv.symm).elim, fun hv => absurd hv.1 hne⟩

/-- **Base predicates are in harmony.** -/
theorem Base.harmonious (h : Base base) : Harmonious base where
  robust s hs m hm := by
    obtain ⟨name, value, habout⟩ := h.about s hs
    exact habout.holds m (Memory.get_of_get?
      (hm name value (habout.get?_eq_some_iff.mpr ⟨rfl, rfl⟩)))
  agree s hs t ht other v w hv hw := by
    obtain ⟨name, value, hsabout⟩ := h.about s hs
    obtain ⟨name', value', htabout⟩ := h.about t ht
    obtain ⟨rfl, rfl⟩ := hsabout.get?_eq_some_iff.mp hv
    obtain ⟨rfl, rfl⟩ := htabout.get?_eq_some_iff.mp hw
    exact h.agree s hs t ht other v w hsabout htabout

variable {count count' least least' limit limit' : Nat}

theorem Harmonious.yields_conjunctions (h : Harmonious pool) (hne : pool ≠ [])
    (hleast : 0 < least) (count limit : Nat) :
    Yields (conjunctions pool count least limit) fun made =>
      made.length = count ∧ ∀ s ∈ made, s.CombinedFrom pool :=
  (yields_length _ count).and <| yields_replicate (fun _ =>
    (yields_parts hleast hne).bind fun parts hparts =>
      yields_pure ⟨(h.robust_combine hparts.2).1, parts, hparts.2, rfl⟩) count

theorem Harmonious.yields_disjunctions (h : Harmonious pool) (hne : pool ≠ [])
    (hleast : 0 < least) (count limit : Nat) :
    Yields (disjunctions pool count least limit) fun made =>
      made.length = count ∧ ∀ s ∈ made, s.CombinedFrom pool :=
  (yields_length _ count).and <| yields_replicate (fun _ =>
    (yields_parts hleast hne).bind fun parts hparts =>
      yields_pure ⟨(h.robust_combine hparts.2).2 hparts.1, parts, hparts.2, rfl⟩) count

/-- **Whatever words come up, what is drawn holds in its own memory**: the predicates, the
conjunctions of them, and the disjunctions of both, however many are asked for. No variable
is overwritten with another value when assignments are merged for this. -/
theorem yields_holding {n : Nat} (hn : 1 ≤ n) (hleast : 1 ≤ least) (hleast' : 1 ≤ least')
    (stem : String) (limit limit' count count' : Nat) :
    Yields (predicates n stem) fun base =>
      base.length = n ∧ (∀ s ∈ base, s.expression.holds s.memory = .ok true) ∧
      Yields (conjunctions base count least limit) fun conjoined =>
        conjoined.length = count ∧
        (∀ s ∈ conjoined, s.expression.holds s.memory = .ok true) ∧
        (∀ parts ⊆ base ++ conjoined, ∀ s ∈ parts, (merge parts).Extends s.memory) ∧
        Yields (disjunctions (base ++ conjoined) count' least' limit') fun disjoined =>
          disjoined.length = count' ∧
          ∀ s ∈ disjoined, s.expression.holds s.memory = .ok true := by
  refine (yields_predicates n stem).mono fun base ⟨hlength, hbase⟩ => ?_
  have hne : base ≠ [] := List.length_pos_iff.mp (hlength ▸ hn)
  refine ⟨hlength, fun s hs => (hbase.harmonious.robust s hs).holds, ?_⟩
  refine (hbase.harmonious.yields_conjunctions hne hleast count limit).mono
    fun conjoined ⟨hcount, hmade⟩ => ?_
  have hall := hbase.harmonious.append hmade
  refine ⟨hcount, fun s hs => (hmade s hs).1.holds,
    fun parts hsub s hs => hall.extends_merge hsub hs, ?_⟩
  exact (hall.yields_disjunctions (List.append_ne_nil_of_left_ne_nil hne conjoined) hleast'
    count' limit').mono fun disjoined ⟨hcount', hmade'⟩ =>
      ⟨hcount', fun s hs => (hmade' s hs).1.holds⟩

/-- Two predicates from one seed, two conjunctions of them, one of which has both, and three
disjunctions of up to three members. -/
theorem yields_holding_seeded :
    let start := Source.ofSeed 11
    let base := predicates 2 "mem" start
    let conjoined := conjunctions base.1 2 1 3 base.2
    let disjoined := disjunctions (base.1 ++ conjoined.1) 3 2 4 conjoined.2
    (1 ≤ 2 ∧ 1 ≤ 1) ∧ (∃ s ∈ conjoined.1, s.memory.values.names = ["mem0", "mem1"]) ∧
      disjoined.1.length = 3 ∧
      ∀ s ∈ base.1 ++ conjoined.1 ++ disjoined.1, s.expression.holds s.memory = .ok true := by
  intro start base conjoined disjoined
  have hone : 1 ≤ 1 := Nat.le_refl 1
  have htwo : 1 ≤ 2 := by decide
  obtain ⟨-, hbase, hyields⟩ := yields_holding htwo hone htwo "mem" 3 4 2 3 start
  obtain ⟨-, hconjoined, -, hyields⟩ := hyields base.2
  obtain ⟨hlength, hdisjoined⟩ := hyields conjoined.2
  refine ⟨⟨htwo, hone⟩, by decide +kernel, hlength, ?_⟩
  rw [List.forall_mem_append, List.forall_mem_append]
  exact ⟨⟨hbase, hconjoined⟩, hdisjoined⟩

end Sample

end Specificity
