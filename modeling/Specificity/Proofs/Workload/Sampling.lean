import Std.Data.String.ToNat
import Specificity.Proofs.Fitting
import Specificity.Proofs.Specificities
import Specificity.Proofs.Workload.Drawing

/-!
# What is drawn for a workload

Whatever words come up, every condition of a workload can be filed: it is undecided and
ignores nothing, its tests are simple, and none of its quantifiers is without bindings
(`Sample.Sturdy`). Negating such a condition, making it optional and joining it with others
keeps this, so it passes from each family to those that draw on it.

A conjunction moreover holds in its own memory. Each base predicate is about a name of its
own and holds wherever the name has the value that came with the predicate; so the
assignments of several base predicates do not disturb each other, and all of them hold in
the memory that results.
-/

namespace Specificity

/-! ## Sturdy conditions -/

namespace Expression

variable {e : Expression} {es : List Expression}

/-- **A sturdy condition**: its clauses fit below the root, with nothing set aside, and
consist of simple predicates. -/
structure Sturdy (e : Expression) : Prop where
  /-- No truth value settles it, and no conjunction or disjunction in it is empty. -/
  undecided : e.undecided = true
  /-- It ignores nothing. -/
  heedsAll : e.heedsAll = true
  /-- Its tests and comparisons are of simple operands. -/
  simpleTests : e.simpleTests = true

theorem Sturdy.not (h : e.Sturdy) : (Expression.not e).Sturdy :=
  ⟨h.undecided, h.heedsAll, h.simpleTests⟩

theorem Sturdy.optional (h : e.Sturdy) : (Expression.optional e).Sturdy :=
  ⟨rfl, h.heedsAll, h.simpleTests⟩

/-- Sturdy conditions are sturdy together, as long as there is one. -/
theorem sturdy_operands (hne : es ≠ []) (h : ∀ e ∈ es, e.Sturdy) :
    (and es).Sturdy ∧ (or es).Sturdy := by
  have hundecided : (!es.isEmpty && undecidedAll es) = true := by
    rw [Bool.and_eq_true, Bool.not_eq_true', List.isEmpty_eq_false_iff, undecidedAll_iff]
    exact ⟨hne, fun e he => (h e he).undecided⟩
  have hheeds : heedsAllOf es = true := (heedsAllOf_iff es).mpr fun e he => (h e he).heedsAll
  have htests : simpleTestsAll es = true :=
    (simpleTestsAll_iff es).mpr fun e he => (h e he).simpleTests
  exact ⟨⟨hundecided, hheeds, htests⟩, ⟨hundecided, hheeds, htests⟩⟩

theorem uprightAll_iff (negated : Bool) (es : List Expression) :
    uprightAll negated es = true ↔ ∀ e ∈ es, e.upright negated = true :=
  forall_of_asked rfl (fun _ _ => rfl) es

end Expression

namespace Sample

open Draw

variable {s t : Sample} {name other : String} {value : Value} {pool parts base : List Sample}

/-- **A sturdy sample**: its condition is, and its quantifiers have bindings. -/
structure Sturdy (s : Sample) : Prop where
  /-- The condition is sturdy. -/
  expression : s.expression.Sturdy
  /-- A variable may be bound to something. -/
  bound : ∀ q ∈ s.quantifiers, q.bindings ≠ []

theorem sturdy_plain {e : Expression} (h : e.Sturdy) (m : Memory) : (plain e m).Sturdy :=
  ⟨h, fun _ hq => absurd hq List.not_mem_nil⟩

/-- **A sample that holds in its own memory**, for certain. -/
structure SelfSatisfied (s : Sample) : Prop where
  /-- There are no quantifiers over the condition. -/
  plain : s.quantifiers = []
  /-- No optional part is negated. -/
  upright : s.expression.upright false = true
  /-- The condition is true in the memory. -/
  holds : s.expression.holds s.memory = .ok true

/-! ## Base predicates -/

/-- **A predicate about a name** holds wherever the name has the value that came with it. -/
structure About (s : Sample) (name : String) (value : Value) : Prop where
  /-- The predicate can be filed. -/
  sturdy : s.Sturdy
  /-- No optional part is negated. -/
  upright : s.expression.upright false = true
  /-- The memory sets the name, and nothing else. -/
  memory : s.memory = Memory.empty.set name value
  /-- The predicate is true as soon as the name has the value. -/
  holds : ∀ m : Memory, m.get name = value → s.expression.holds m = .ok true

/-- A sample is about one name and one value. -/
theorem About.unique {value' : Value} (h : s.About name value) (h' : s.About other value') :
    name = other ∧ value = value' := by
  have hentries := congrArg (fun m => m.values.entries) (h.memory.symm.trans h'.memory)
  simpa [Memory.set, Memory.empty, NameMap.set, NameMap.empty, NameMap.setEntry] using hentries

/-- **The limit that is chosen** for a value stands to it as the operator asks. -/
theorem apply_limitFor {op : Comparison} (hop : op ∈ comparisons) {n : Int64}
    (hlow : -1000 ≤ n.toInt) (hhigh : n.toInt < 1000) :
    op.apply (.integer n) (.integer (limitFor op n)) = .ok true := by
  have hone : (1 : Int64).toInt = 1 := rfl
  have hless : compare n (n + 1) = .lt := by
    rw [Std.compare_eq_lt, Int64.lt_iff_toInt_lt, Int64.toInt_add, hone,
      Int.bmod_eq_of_le (by omega) (by omega)]
    omega
  have hgreater : compare n (n - 1) = .gt := by
    rw [Std.compare_eq_gt, Int64.lt_iff_toInt_lt, Int64.toInt_sub, hone,
      Int.bmod_eq_of_le (by omega) (by omega)]
    omega
  cases op with
  | notEqual => exact absurd hop (by decide)
  | _ => simp [Comparison.apply, limitFor, Value.order?, Comparison.admits, hless, hgreater]

theorem sturdy_compare (op : Comparison) (name : String) (v : Value) (m : Memory) :
    (plain (.compare op (.accessor name) (.constant v)) m).Sturdy :=
  sturdy_plain ⟨rfl, rfl, rfl⟩ m

theorem yields_comparison (name : String) :
    Yields (comparison name) fun s => ∃ v, s.About name v := by
  refine (yields_oneOf comparisons).bind fun o ho => (yields_below 2000).bind fun k hk =>
    yields_pure ⟨_, sturdy_compare _ name _ _, rfl, rfl, fun m hm => ?_⟩
  have hop : o.getD .equal ∈ comparisons := by
    cases o with
    | none => decide
    | some op => exact ho op rfl
  have hrange : (Int64.ofInt (Int.ofNat k - 1000)).toInt = k - 1000 :=
    Int64.toInt_ofInt_of_le (n := k - 1000) (by omega) (by omega)
  refine (Expression.holds_compare_eq_ok_iff _ _ _ _ _).mpr ⟨_, rfl, _, rfl, ?_⟩
  rw [hm]
  exact apply_limitFor hop (by rw [hrange]; omega) (by rw [hrange]; omega)

theorem yields_presence (name : String) :
    Yields (presence name) fun s => ∃ v, s.About name v := by
  refine (yields_true (onceIn 2)).bind fun b _ => ?_
  cases b with
  | true =>
    refine (yields_true word).bind fun w _ =>
      yields_pure ⟨_, sturdy_plain ⟨rfl, rfl, rfl⟩ _, rfl, rfl, fun m hm => ?_⟩
    show Except.ok (!(m.get name).isNull) = .ok true
    rw [hm]
    rfl
  | false =>
    refine (yields_true (letters 5)).bind fun t _ =>
      yields_pure ⟨_, sturdy_compare _ name _ _, rfl, rfl, fun m hm => ?_⟩
    refine (Expression.holds_compare_eq_ok_iff _ _ _ _ _).mpr ⟨_, rfl, _, rfl, ?_⟩
    rw [hm]
    rfl

/-- **A base** of samples, each about a name, that agree on the values of names. -/
structure Base (base : List Sample) : Prop where
  /-- Each sample is about a name. -/
  about : ∀ s ∈ base, ∃ name value, s.About name value
  /-- Samples about one name come with one value. -/
  agree : ∀ s ∈ base, ∀ t ∈ base, ∀ name v w, s.About name v → t.About name w → v = w

/-- **Predicates over numbered names** are a base, since no two names are the same. -/
theorem yields_predicates (n : Nat) (stem : String) :
    Yields (predicates n stem) fun base => base.length = n ∧ Base base := by
  have hdraw : Yields (predicates n stem)
      (List.Forall₂ (fun i s => ∃ v, s.About (stem ++ toString i) v) (List.range n)) :=
    yields_mapM fun i _ => (yields_true (onceIn 2)).bind fun b _ => by
      cases b with
      | true => exact yields_comparison _
      | false => exact yields_presence _
  refine hdraw.mono fun base hbase => ?_
  obtain ⟨hlength, hnames⟩ := List.forall₂_iff_get.mp hbase
  rw [List.length_range] at hlength
  have habout : ∀ i (hi : i < base.length), ∃ v, base[i].About (stem ++ toString i) v :=
    fun i hi => by simpa using hnames i (by simpa [hlength] using hi) hi
  refine ⟨hlength.symm, fun s hs => ?_, fun s hs t ht name v w hsv htw => ?_⟩
  · obtain ⟨i, hi, rfl⟩ := List.getElem_of_mem hs
    exact ⟨_, habout i hi⟩
  · obtain ⟨i, hi, rfl⟩ := List.getElem_of_mem hs
    obtain ⟨j, hj, rfl⟩ := List.getElem_of_mem ht
    obtain ⟨v', hv'⟩ := habout i hi
    obtain ⟨w', hw'⟩ := habout j hj
    -- samples about one name stand at one position
    have hname : stem ++ toString i = stem ++ toString j :=
      (hv'.unique hsv).1.trans (htw.unique hw').1
    obtain rfl : i = j := Nat.repr_inj.mp ((String.append_right_inj stem).mp hname)
    exact (hsv.unique htw).2

/-! ## Several samples together -/

theorem merge_concat (parts : List Sample) (s : Sample) :
    merge (parts ++ [s]) = (merge parts).overlay s.memory := List.foldl_concat ..

/-- **The assignments of several samples do not disturb each other**: a name has the value
that came with a sample about it. The induction is on what was overlaid last. -/
theorem Base.get_merge (h : Base base) (hsub : parts ⊆ base) (hs : s ∈ parts)
    (habout : s.About name value) : (merge parts).get name = value := by
  induction parts using List.reverseRecOn with
  | nil => exact absurd hs List.not_mem_nil
  | append_singleton parts t ih =>
    have ht : t ∈ base := hsub (List.mem_append_right _ (List.mem_singleton_self t))
    have hs' : s ∈ base := hsub hs
    obtain ⟨other, w, hother⟩ := h.about t ht
    have hset : (merge (parts ++ [t])).get name =
        if name = other then w else (merge parts).get name := by
      rw [merge_concat, hother.memory]
      exact Memory.get_set _ _ _ _
    rw [hset]
    split
    · next heq => exact h.agree t ht s hs' name w value (heq ▸ hother) habout
    · next hne =>
      refine ih (fun u hu => hsub (List.mem_append_left _ hu)) ?_
      rcases List.mem_append.mp hs with hs | hs
      · exact hs
      · rw [List.mem_singleton.mp hs] at habout
        exact absurd (habout.unique hother).1 hne

/-- **A conjunction of base predicates holds in its own memory.** -/
theorem Base.selfSatisfied (h : Base base) (hsub : parts ⊆ base) :
    (combine .and parts).SelfSatisfied where
  plain := rfl
  upright := by
    show Expression.uprightAll false (parts.map expression) = true
    rw [Expression.uprightAll_iff, List.forall_mem_map]
    intro s hs
    obtain ⟨name, value, habout⟩ := h.about s (hsub hs)
    exact habout.upright
  holds := by
    show (Expression.and (parts.map expression)).holds (merge parts) = .ok true
    rw [Expression.holds_and, Expression.evalAll_eq_true_iff, List.forall_mem_map]
    intro s hs
    obtain ⟨name, value, habout⟩ := h.about s (hsub hs)
    exact habout.holds _ (h.get_merge hsub hs habout)

theorem Base.sturdy (h : Base base) : ∀ s ∈ base, s.Sturdy := fun s hs => by
  obtain ⟨name, value, habout⟩ := h.about s hs
  exact habout.sturdy

/-! ## Families -/

/-- **The parts of a compound condition**: at least one member of the pool. -/
theorem yields_parts {least limit : Nat} (hleast : 0 < least) (hne : pool ≠ []) :
    Yields (Sample.parts pool least limit) fun parts => parts ≠ [] ∧ parts ⊆ pool :=
  (yields_between least limit).bind fun count hcount =>
    (yields_several count pool).mono fun _ h => ⟨h.2 (Nat.lt_of_lt_of_le hleast hcount) hne, h.1⟩

/-- Sturdy parts make sturdy conjunctions and disjunctions. -/
theorem sturdy_combine (hne : parts ≠ []) (hsub : parts ⊆ pool)
    (hpool : ∀ s ∈ pool, s.Sturdy) :
    (combine .and parts).Sturdy ∧ (combine .or parts).Sturdy := by
  have hsturdy : ∀ e ∈ parts.map expression, e.Sturdy :=
    List.forall_mem_map.mpr fun s hs => (hpool s (hsub hs)).expression
  have hmade := Expression.sturdy_operands (List.map_eq_nil_iff.not.mpr hne) hsturdy
  exact ⟨sturdy_plain hmade.1 _, sturdy_plain hmade.2 _⟩

variable {n least limit : Nat}

theorem yields_conjunctions (h : Base base) (hleast : 0 < least) (hne : base ≠ []) :
    Yields (conjunctions base n least limit) fun made =>
      ∀ s ∈ made, s.Sturdy ∧ s.SelfSatisfied :=
  yields_replicate (fun _ => (yields_parts hleast hne).bind fun _ hparts =>
    yields_pure ⟨(sturdy_combine hparts.1 hparts.2 h.sturdy).1, h.selfSatisfied hparts.2⟩) n

theorem yields_disjunctions (hpool : ∀ s ∈ pool, s.Sturdy) (hleast : 0 < least)
    (hne : pool ≠ []) :
    Yields (disjunctions pool n least limit) fun made => ∀ s ∈ made, s.Sturdy :=
  yields_replicate (fun _ => (yields_parts hleast hne).bind fun _ hparts =>
    yields_pure (sturdy_combine hparts.1 hparts.2 hpool).2) n

theorem yields_optionals (hpool : ∀ s ∈ pool, s.Sturdy) (hleast : 0 < least)
    (hne : pool ≠ []) :
    Yields (optionals pool n least limit) fun made => ∀ s ∈ made, s.Sturdy := by
  refine yields_replicate (fun _ => (yields_parts hleast hne).bind fun parts hparts => ?_) n
  obtain ⟨s, parts, rfl⟩ := List.exists_cons_of_ne_nil hparts.1
  rw [List.cons_subset] at hparts
  have hfirst := (hpool s hparts.2.1).expression
  refine (yields_true (onceIn 4)).bind fun negated _ => yields_pure ?_
  refine sturdy_plain (Expression.sturdy_operands (List.cons_ne_nil _ _) ?_).1 _
  refine List.forall_mem_cons.mpr ⟨?_, List.forall_mem_map.mpr fun t ht =>
    (hpool t (hparts.2.2 ht)).expression⟩
  cases negated with
  | true => exact hfirst.optional.not
  | false => exact hfirst.optional

/-- The bindings of a variable are never fewer than there were. -/
theorem yields_extend (candidates : List String) (count : Nat) {bindings : List String}
    (hne : bindings ≠ []) : Yields (extend candidates count bindings) fun bs => bs ≠ [] := by
  induction count generalizing bindings with
  | zero => exact yields_pure hne
  | succ count ih =>
    refine (yields_true (oneOf candidates)).bind fun o _ => ?_
    cases o with
    | none => exact ih hne
    | some name =>
      refine ih ?_
      split
      · exact hne
      · exact List.append_ne_nil_of_right_ne_nil _ (List.cons_ne_nil _ _)

/-- One more quantifier has bindings, the variable itself among them. -/
theorem yields_quantify (all : Memory) (mostBindings : Nat) (hs : s.Sturdy) (name : String)
    (value : Value) : Yields (quantify all mostBindings s name value) Sturdy := by
  refine (yields_true (below _)).bind fun further _ =>
    (yields_extend _ further (List.cons_ne_nil name [])).bind fun bindings hne =>
      (yields_true (onceIn 2)).bind fun existential _ => ?_
  have hbound : ∀ universal, ∀ q ∈ s.quantifiers ++ [⟨name, universal, bindings⟩],
      q.bindings ≠ [] := fun universal q hq => by
    rcases List.mem_append.mp hq with hq | hq
    · exact hs.bound q hq
    · rw [List.mem_singleton.mp hq]
      exact hne
  cases existential with
  | true =>
    exact (yields_true (oneOf bindings)).bind fun _ _ => yields_pure ⟨hs.expression, hbound false⟩
  | false => exact yields_pure ⟨hs.expression, hbound true⟩

/-- What is kept of a list of values that may be missing. -/
theorem forall_mem_filterMap_id {β : Type} {P : β → Prop} {made : List (Option β)}
    (h : ∀ o ∈ made, ∀ b ∈ o, P b) : ∀ b ∈ made.filterMap id, P b := fun b hb => by
  obtain ⟨o, ho, hob⟩ := List.mem_filterMap.mp hb
  exact h o ho b hob

theorem yields_quantified (hpool : ∀ s ∈ pool, s.Sturdy)
    (mostBindings mostQuantifiers : Nat) :
    Yields (quantified pool n mostBindings mostQuantifiers) fun made =>
      ∀ s ∈ made, s.Sturdy := by
  unfold quantified
  split
  · exact yields_pure fun s hs => absurd hs List.not_mem_nil
  · refine Yields.bind (P := fun made => ∀ o ∈ made, ∀ s ∈ o, s.Sturdy)
      (yields_replicate (fun _ => (yields_oneOf pool).bind fun o ho => ?_) n)
      fun made hmade => yields_pure (forall_mem_filterMap_id hmade)
    cases o with
    | none => exact yields_pure fun s hs => absurd hs.symm (Option.some_ne_none s)
    | some base =>
      refine (yields_true (below _)).bind fun _ _ => (yields_true (several _ _)).bind fun _ _ => ?_
      have hbase : (plain base.expression .empty).Sturdy :=
        sturdy_plain (hpool base (ho base rfl)).expression _
      exact (yields_foldlM hbase fun s name hs => yields_quantify _ _ hs name _).bind
        fun made hmade => yields_pure fun s hs => Option.some.inj hs ▸ hmade

theorem yields_negations (hpool : ∀ s ∈ pool, s.Sturdy) :
    Yields (negations pool n) fun made => ∀ s ∈ made, s.Sturdy := by
  unfold negations
  split
  · exact yields_pure fun s hs => absurd hs List.not_mem_nil
  · refine (yields_replicate (fun _ => yields_oneOf pool) n).bind fun chosen hchosen =>
      yields_pure (List.forall_mem_map.mpr fun s hs => ?_)
    have hsturdy := hpool s (forall_mem_filterMap_id hchosen s hs)
    exact ⟨hsturdy.expression.not, hsturdy.bound⟩

end Sample

/-! ## Workloads -/

namespace Workload

/-- **A sturdy workload**: all its samples are, and conjunctions hold in their own memories. -/
structure Sturdy (w : Workload) : Prop where
  /-- All samples are sturdy. -/
  samples : ∀ f ∈ w.families, ∀ s ∈ f.2, s.Sturdy
  /-- Conjunctions hold in their own memories. -/
  conjunctions : ∀ f ∈ w.families, f.1 = .conjunctions → ∀ s ∈ f.2, s.SelfSatisfied

/-- The least number of operands is positive. -/
theorem operandRange_pos (settings : Settings) : 0 < settings.operandRange.1.toNat := by
  show 0 < (if settings.leastOperands ≤ 1 then 1 else settings.leastOperands).toNat
  split
  · decide
  · next h =>
    have hlt := UInt64.lt_iff_toNat_lt.mp (UInt64.not_le.mp h)
    exact Nat.lt_of_le_of_lt (Nat.zero_le _) hlt

/-- **Whatever words come up, the workload is sturdy**, if there is a base predicate. -/
theorem yields_draw {settings : Settings} (hpredicates : 0 < settings.predicates) :
    Draw.Yields (draw settings) Sturdy := by
  have hleast := operandRange_pos settings
  refine (Sample.yields_predicates _ _).bind fun base ⟨hlength, hbase⟩ => ?_
  have hne : base ≠ [] := List.length_pos_iff.mp (hlength ▸ UInt64.lt_iff_toNat_lt.mp hpredicates)
  refine (Sample.yields_conjunctions hbase hleast hne).bind fun conjunctions hconjunctions => ?_
  have hsatisfied : ∀ s ∈ base ++ conjunctions, s.Sturdy :=
    List.forall_mem_append.mpr ⟨hbase.sturdy, fun s hs => (hconjunctions s hs).1⟩
  have hne := List.append_ne_nil_of_left_ne_nil hne conjunctions
  refine (Sample.yields_disjunctions hsatisfied hleast hne).bind
    fun disjunctions hdisjunctions => ?_
  have hpool := List.forall_mem_append.mpr ⟨hsatisfied, hdisjunctions⟩
  have hne := List.append_ne_nil_of_left_ne_nil hne disjunctions
  refine (Sample.yields_optionals hpool hleast hne).bind fun optionals hoptionals => ?_
  have hpool := List.forall_mem_append.mpr ⟨hpool, hoptionals⟩
  refine (Sample.yields_quantified hpool _ _).bind fun quantified hquantified => ?_
  have hpool := List.forall_mem_append.mpr ⟨hpool, hquantified⟩
  refine (Sample.yields_negations hpool).bind fun nots hnots => Draw.yields_pure ⟨?_, ?_⟩
  · simp only [List.forall_mem_cons]
    exact ⟨fun s hs => hbase.sturdy s (List.mem_of_mem_take hs), fun s hs => (hconjunctions s hs).1,
      hdisjunctions, hoptionals, hquantified, hnots, fun f hf => absurd hf List.not_mem_nil⟩
  · simp only [List.forall_mem_cons, reduceCtorEq, false_implies, true_implies, true_and]
    exact ⟨fun s hs => (hconjunctions s hs).2, fun f hf => absurd hf List.not_mem_nil⟩

end Workload

end Specificity
