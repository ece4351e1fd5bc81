import Specificity.Proofs.Answering
import Specificity.Proofs.Bookkeeping
import Specificity.Proofs.Rearranging
import Specificity.Proofs.Retention
import Specificity.Proofs.Workload.Sampling

/-!
# Running a workload

A run keeps one invariant from its start until the triggers are removed (`Run.Intact`):
the tree has grown by the samples added so far, each has its trigger, all triggers are
counted, and no check has failed. That a sturdy sample keeps it rests on its clauses
fitting below the root, and on the numbers that are handed out as actions being new.

All that the run checks on the way follows from the invariant, whichever samples were
drawn: the counts of each family, the answers to conjunctions in their own memories, the
audit, and that answers are most specific. After the removals there is no trigger left for
which the tree could have a node. So the report of a run can be told beforehand: what it
records are `Workload.checks`, each of them as one that passed, but for the graph if it cannot be
written.
-/

namespace Specificity

/-! ## Reports of several checks -/

namespace Report

/-- The report with several checks recorded, in order. -/
def recordAll (r : Report) (checks : List (String × Except String String)) : Report :=
  checks.foldl (fun r check => r.record check.1 check.2) r

theorem recordAll_append (r : Report) (xs ys : List (String × Except String String)) :
    r.recordAll (xs ++ ys) = (r.recordAll xs).recordAll ys := List.foldl_append

theorem failed_start (tool : String) (seed : UInt64) : (start tool seed).failed = 0 := rfl

theorem failed_write (r : Report) (severity : Severity) (text : String) :
    (r.write severity text).failed = r.failed := rfl

theorem fst_finish (r : Report) : r.finish.1 = decide (r.failed = 0) := rfl

theorem failed_record (r : Report) (check : String) (result : Except String String) :
    (r.record check result).failed = r.failed + if result.isOk then 0 else 1 := by
  cases result <;> rfl

/-- **No check has failed** exactly if none had before and all that were recorded passed. -/
theorem failed_recordAll_eq_zero_iff (r : Report) (checks : List (String × Except String String)) :
    (r.recordAll checks).failed = 0 ↔ r.failed = 0 ∧ ∀ check ∈ checks, check.2.isOk = true := by
  induction checks generalizing r with
  | nil => simp [recordAll]
  | cons check checks ih =>
    have hstep : (r.record check.1 check.2).failed = 0 ↔
        r.failed = 0 ∧ check.2.isOk = true := by
      rw [failed_record, Nat.add_eq_zero_iff, ite_eq_left_iff]
      exact and_congr_right fun _ => ⟨fun h => by_contra fun hnot => Nat.one_ne_zero (h hnot),
        fun h hnot => absurd h hnot⟩
    rw [List.forall_mem_cons, ← and_assoc, ← hstep]
    exact ih (r.record check.1 check.2)

end Report

namespace Run

variable {cs : Comparers} {run : Run} {s : Sample} {samples added : List Sample}
  {family : Family}

/-! ## Intact runs -/

/-- **An intact run** after some samples were added. -/
structure Intact (cs : Comparers) (added : List Sample) (run : Run) : Prop where
  /-- The tree has only grown. -/
  reached : Tree.Reached Tree.Growing cs [] run.tree
  /-- There is a handle for each sample. -/
  handles : run.handles.length = added.length
  /-- The tree counts a trigger for each sample. -/
  retained : run.tree.total = added.length
  /-- Each sample has its trigger. -/
  registered : ∀ s ∈ added, ∃ id action,
    run.tree.trigger? id = some (.build cs [] id s.expression action s.quantifiers)
  /-- Each trigger has one of the handles and a number below that of the next sample, and
  its condition has simple tests. -/
  listed : ∀ id t, run.tree.trigger? id = some t →
    id ∈ run.handles ∧ t.action < added.length ∧ t.expression.simpleTests = true
  /-- No check has failed. -/
  passed : run.report.failed = 0

/-- At the start nothing is added, and the registry is without comparers or of bounds. -/
theorem intact_start (settings : Settings) :
    (start settings).tree.comparers.BoundsOnly ∧
      (start settings).Intact (start settings).tree.comparers [] := by
  constructor
  · show (if settings.orderBounds then Comparers.empty.registerBounds else .empty).BoundsOnly
    split
    · exact Comparers.boundsOnly_registerBounds
    · exact Comparers.boundsOnly_empty
  · exact {
      reached := .empty
      handles := rfl
      retained := rfl
      registered := fun s hs => absurd hs List.not_mem_nil
      listed := fun id t ht => absurd ht.symm (Option.some_ne_none t)
      passed := rfl }

/-- A check that passed leaves the run intact. -/
theorem Intact.record_ok (h : run.Intact cs added) (check numbers : String) :
    (run.record check (.ok numbers)).Intact cs added :=
  ⟨h.reached, h.handles, h.retained, h.registered, h.listed, h.passed⟩

/-! ## Adding a sample -/

theorem handles_addSample (s : Sample) (run : Run) :
    (run.addSample s).handles = run.handles ++ [run.tree.triggers.nextId] := by
  show run.handles ++ [(run.tree.add s.expression run.handles.length s.quantifiers).1] = _
  rw [Tree.fst_add]

/-- The trigger of the next sample, as it comes in. -/
theorem Intact.incoming_eq (hcs : cs.Lawful) (h : run.Intact cs added) (s : Sample) :
    run.tree.incoming s.expression run.handles.length s.quantifiers =
      .build cs [] run.tree.triggers.nextId s.expression run.handles.length s.quantifiers :=
  h.reached.incoming_eq hcs (s.expression, run.handles.length, s.quantifiers)

/-- The action of the next sample is not in the tree, since it counts those before it. -/
theorem Intact.fresh (h : run.Intact cs added) (s : Sample) :
    run.tree.Fresh (.add s.expression run.handles.length s.quantifiers) := by
  intro t ht
  obtain ⟨id, hid⟩ := (Register.mem_live_iff _ _).mp ht
  rw [h.handles]
  exact Nat.ne_of_lt (h.listed id t hid).2.1

/-- **A sturdy sample is admitted** to a growing tree. -/
theorem Intact.growing (hcs : cs.Lawful) (h : run.Intact cs added) (hs : s.Sturdy) :
    run.tree.Growing (.add s.expression run.handles.length s.quantifiers) := by
  refine ⟨?_, h.fresh s, ?_⟩
  · show (run.tree.incoming s.expression run.handles.length s.quantifiers).Unconditional
    rw [h.incoming_eq hcs]
    exact Trigger.unconditional_build hs.expression.heedsAll _ _
  · rw [h.incoming_eq hcs]
    exact fun c hc => Trigger.simple_of_simpleTests hs.expression.simpleTests _ _ hc

/-- **A sturdy sample finds a place**: it has an active clause, and that fits below the root. -/
theorem Intact.contains_filing (hcs : cs.Lawful) (h : run.Intact cs added) (hs : s.Sturdy) :
    (run.tree.filing (run.tree.incoming s.expression run.handles.length
      s.quantifiers)).1.contains true = true := by
  rw [((h.fresh s).contains_filing_iff h.reached).1, h.incoming_eq hcs]
  obtain ⟨hne, hfits⟩ := Trigger.fits_of_undecided hcs hs.expression.undecided
    hs.expression.heedsAll hs.bound run.tree.triggers.nextId run.handles.length
  obtain ⟨c, hc⟩ := List.exists_mem_of_ne_nil _ hne
  exact ⟨c, hc, hfits c hc⟩

/-- **Adding a sturdy sample leaves a run intact.** -/
theorem Intact.addSample (hcs : cs.Lawful) (h : run.Intact cs added) (hs : s.Sturdy) :
    (run.addSample s).Intact cs (added ++ [s]) := by
  have hplaced := h.contains_filing hcs hs
  have hlength : (added ++ [s]).length = added.length + 1 := List.length_append
  constructor
  · exact h.reached.change _ (h.growing hcs hs)
  · rw [handles_addSample, List.length_append, List.length_append, h.handles]
    rfl
  · show (run.tree.add s.expression run.handles.length s.quantifiers).2.total = _
    rw [Tree.total_add, if_pos hplaced, h.retained, hlength]
  · refine List.forall_mem_append.mpr ⟨fun t ht => ?_, List.forall_mem_singleton.mpr ?_⟩
    · obtain ⟨id, action, hid⟩ := h.registered t ht
      have hne : id ≠ run.tree.triggers.nextId := by
        rintro rfl
        exact Option.some_ne_none _ (hid.symm.trans run.tree.triggers.get?_nextId)
      exact ⟨id, action, (Tree.trigger?_add_of_ne _ _ _ hne).trans hid⟩
    · refine ⟨run.tree.triggers.nextId, run.handles.length, ?_⟩
      show (run.tree.add s.expression run.handles.length s.quantifiers).2.trigger? _ = _
      rw [Tree.trigger?_nextId_add, if_pos hplaced, h.incoming_eq hcs]
  · intro id t ht
    rw [handles_addSample, hlength]
    rcases Tree.trigger?_add ht with ⟨rfl, rfl⟩ | hbefore
    · exact ⟨List.mem_append_right _ (List.mem_singleton_self _),
        h.handles ▸ Nat.lt_succ_self _, hs.expression.simpleTests⟩
    · obtain ⟨hmem, hlt, htests⟩ := h.listed id t hbefore
      exact ⟨List.mem_append_left _ hmem, Nat.lt_succ_of_lt hlt, htests⟩
  · exact h.passed

/-- **What was added and holds in its own memory is answered** there, then and later. -/
theorem Intact.matched_ne_nil (hcs : cs.BoundsOnly) (h : run.Intact cs added) (hs : s ∈ added)
    (hsturdy : s.Sturdy) (hself : s.SelfSatisfied) : run.tree.matched s.memory ≠ [] := by
  obtain ⟨id, action, ht⟩ := h.registered s hs
  rw [hself.plain] at ht
  obtain ⟨c, hc, heval⟩ := Trigger.exists_active_of_holds hcs hsturdy.expression.simpleTests
    hself.upright hself.holds id action
  have hfits := (Trigger.fits_of_undecided (Comparers.lawful_of_boundsOnly hcs)
    hsturdy.expression.undecided hsturdy.expression.heedsAll
    (fun q hq => absurd hq List.not_mem_nil) id action).2 c hc
  exact h.reached.matched_ne_nil_of_active hcs ht hc hfits heval

/-! ## Adding families -/

/-- The run with several samples added. -/
def addSamples (samples : List Sample) (run : Run) : Run :=
  samples.foldl (fun run s => run.addSample s) run

theorem Intact.addSamples (hcs : cs.Lawful) (h : run.Intact cs added)
    (hsamples : ∀ s ∈ samples, s.Sturdy) :
    (run.addSamples samples).Intact cs (added ++ samples) := by
  induction samples generalizing run added with
  | nil => rwa [List.append_nil]
  | cons s samples ih =>
    rw [List.forall_mem_cons] at hsamples
    rw [List.append_cons]
    exact ih (h.addSample hcs hsamples.1) hsamples.2

theorem report_addSamples (samples : List Sample) (run : Run) :
    (run.addSamples samples).report = run.report := by
  induction samples generalizing run with
  | nil => rfl
  | cons s samples ih => exact ih (run.addSample s)

/-- What is done with each sample of a family: it is added, and if it is a conjunction it
is answered in its own memory, or else its text is noted. -/
def visit (family : Family) (s : Sample) (run : Run) : Option String × Run :=
  let run := run.addSample s
  let missed := family = .conjunctions ∧ (run.tree.matched s.memory).isEmpty
  (if missed then some s.expression.print else none, run)

theorem snd_visitAll (family : Family) (samples : List Sample) (run : Run) :
    (visitAll (visit family) samples run).2 = run.addSamples samples := by
  induction samples generalizing run with
  | nil => rfl
  | cons s samples ih => exact ih (run.addSample s)

/-- **No conjunction is missed**, so the visits of a family have nothing to note. -/
theorem Intact.noted_eq_nil (hcs : cs.BoundsOnly) (h : run.Intact cs added)
    (hsamples : ∀ s ∈ samples, s.Sturdy)
    (hself : family = .conjunctions → ∀ s ∈ samples, s.SelfSatisfied) :
    (visitAll (visit family) samples run).1.filterMap id = [] := by
  have hvisit : ∀ s ∈ samples, ∀ run, (∃ added, Intact cs added run) →
      (visit family s run).1 = none ∧ ∃ added, Intact cs added (visit family s run).2 := by
    rintro s hs run ⟨added, h⟩
    have hafter := h.addSample (Comparers.lawful_of_boundsOnly hcs) (hsamples s hs)
    refine ⟨if_neg ?_, added ++ [s], hafter⟩
    rintro ⟨hfamily, hmissed⟩
    exact hafter.matched_ne_nil hcs (List.mem_append_right _ (List.mem_singleton_self s))
      (hsamples s hs) (hself hfamily s hs) (List.isEmpty_iff.mp hmissed)
  rw [fst_visitAll _ _ _ (fun _ => none) hvisit ⟨added, h⟩]
  simp

/-- **Adding a family** comes down to adding its samples, and the check of their number
passes. -/
theorem Intact.addFamily_eq (hcs : cs.BoundsOnly) (h : run.Intact cs added)
    (hsamples : ∀ s ∈ samples, s.Sturdy)
    (hself : family = .conjunctions → ∀ s ∈ samples, s.SelfSatisfied) :
    run.addFamily family samples = (run.addSamples samples).record s!"add {family.name}"
      (.ok s!"triggers={(run.addSamples samples).handles.length}") := by
  have hafter := h.addSamples (Comparers.lawful_of_boundsOnly hcs) hsamples
  have htotal : (run.addSamples samples).tree.total = (run.addSamples samples).handles.length :=
    hafter.retained.trans hafter.handles.symm
  have hmissed := h.noted_eq_nil hcs hsamples hself
  have hvisited := snd_visitAll family samples run
  -- adding a family spells the visits out
  unfold visit at hmissed hvisited
  unfold addFamily
  dsimp only at hmissed hvisited ⊢
  rw [hmissed, hvisited, if_pos htotal]
  rfl

/-- The run after some families. -/
def after (settings : Settings) (families : List (Family × List Sample)) : Run :=
  families.foldl (fun run f => run.addFamily f.1 f.2) (start settings)

theorem after_concat (settings : Settings) (families : List (Family × List Sample))
    (f : Family × List Sample) :
    after settings (families ++ [f]) = (after settings families).addFamily f.1 f.2 :=
  List.foldl_concat ..

/-! ## Checking the tree -/

/-- **An audit finds nothing** in the tree of an intact run. -/
theorem Intact.fault?_eq_none (hcs : cs.Lawful) (h : run.Intact cs added) :
    run.tree.fault? = none :=
  h.reached.fault?_eq_none_of_sharp hcs (h.reached.plain.sharp hcs)

/-- **Answers are most specific**, whatever the memories. -/
theorem Intact.conflicts_eq_nil (hcs : cs.BoundsOnly) (h : run.Intact cs added)
    (memories : List Memory) : (run.tree.specificities memories).conflicts = [] := by
  have htests : ∀ t ∈ run.tree.triggers.live, t.expression.simpleTests = true := fun t ht => by
    obtain ⟨id, hid⟩ := (Register.mem_live_iff _ _).mp ht
    exact (h.listed id t hid).2.2
  have hunrelated := h.reached.unrelated hcs htests
  exact Tree.conflicts_eq_nil fun m _ => h.reached.comparers ▸ hunrelated m

/-! ## Removing everything -/

/-- **Removing all handles** leaves nothing that an audit could fault. -/
theorem Intact.blank_removeAll (hcs : cs.Lawful) (h : run.Intact cs added) :
    (run.tree.removeAll run.handles).Blank ∧
      (run.tree.removeAll run.handles).fault? = none := by
  have hfree : Tree.Reached Tree.Free cs [] run.tree := h.reached.mono fun _ _ _ => trivial
  have hreached := hfree.removeAll run.handles
  have hnone : ∀ id, (run.tree.removeAll run.handles).trigger? id = none := fun id =>
    Option.eq_none_iff_forall_ne_some.mpr fun t ht => by
      obtain ⟨hbefore, hnot⟩ := Tree.trigger?_removeAll ht
      exact hnot (h.listed id t hbefore).1
  exact ⟨hreached.blank hcs hnone, hreached.fault?_eq_none_of_sharp hcs fun id t ht =>
    absurd (ht.symm.trans (hnone id)) (Option.some_ne_none t)⟩

/-- **All checks of the second half pass**, whatever was recorded before. -/
theorem Intact.drain_eq (hcs : cs.Lawful) (h : run.Intact cs added) (report : Report) :
    drain { run with report } = ((report.recordAll
      [("remove all", .ok s!"removed={added.length}"), ("verify after removal", .ok "")]).write
        .info (Report.rule '-')).finish := by
  obtain ⟨hblank, hfault⟩ := h.blank_removeAll hcs
  have hempty : (run.tree.removeAll run.handles).total = 0 ∧
      (run.tree.removeAll run.handles).size = 0 := ⟨hblank.total, hblank.size⟩
  unfold Tree.removeAll at hempty hfault
  unfold drain audit
  dsimp only [record]
  rw [if_pos hempty, hfault, h.handles]
  rfl

/-- Whether the graph was written is recorded, if it was asked for. -/
theorem recordGraph_eq (run : Run) (settings : Settings) (written : Except String Unit) :
    run.recordGraph settings written = { run with
      report := run.report.recordAll
        (settings.dot.toList.map fun path => ("write graph", written.map fun _ => path)) } := by
  unfold recordGraph
  cases settings.dot <;> rfl

end Run

namespace Workload

variable {settings : Settings} {w : Workload} {fs : List (Family × List Sample)}

/-- The checks of families that are added after `before` triggers: each time the tree counts
all triggers so far. -/
def familyChecks : Nat → List (Family × List Sample) → List (String × Except String String)
  | _, [] => []
  | before, f :: fs =>
    (s!"add {f.1.name}", .ok s!"triggers={before + f.2.length}") ::
      familyChecks (before + f.2.length) fs

theorem familyChecks_concat (before : Nat) (fs : List (Family × List Sample))
    (f : Family × List Sample) :
    familyChecks before (fs ++ [f]) = familyChecks before fs ++
      [(s!"add {f.1.name}",
        .ok s!"triggers={before + (fs.flatMap Prod.snd).length + f.2.length}")] := by
  induction fs generalizing before with
  | nil => rfl
  | cons g fs ih =>
    rw [List.cons_append, familyChecks, ih, familyChecks, List.flatMap_cons, List.length_append,
      ← Nat.add_assoc]
    rfl

/-- **The checks of a run**, each with its result: what passed, with its numbers, and whether
the graph was written. -/
def checks (w : Workload) (settings : Settings) (written : Except String Unit) :
    List (String × Except String String) :=
  let tree := (Run.fill settings w).tree
  let answers := tree.specificities (w.satisfied.map Sample.memory)
  familyChecks 0 w.families ++
    [ ("verify after insertion", .ok s!"nodes={tree.size}, roots={tree.breadth}"),
      ("most specific matches", .ok s!"memories={w.satisfied.length}, pairs={answers.pairs}") ] ++
    (settings.dot.toList.map fun path => ("write graph", written.map fun _ => path)) ++
    [ ("remove all", .ok s!"removed={(w.families.flatMap Prod.snd).length}"),
      ("verify after removal", .ok "") ]

theorem isOk_of_mem_familyChecks {before : Nat} {check : String × Except String String}
    (h : check ∈ familyChecks before fs) : check.2.isOk = true := by
  induction fs generalizing before with
  | nil => exact absurd h List.not_mem_nil
  | cons f fs ih =>
    rcases List.mem_cons.mp h with rfl | h
    · rfl
    · exact ih h

/-- All checks of a run pass, but for that of the graph. -/
theorem forall_checks_iff (w : Workload) (settings : Settings) (written : Except String Unit) :
    (∀ check ∈ w.checks settings written, check.2.isOk = true) ↔
      settings.dot = none ∨ written.isOk = true := by
  have hgraph : (∀ check ∈ settings.dot.toList.map fun path => ("write graph", written.map
      fun _ => path), check.2.isOk = true) ↔ settings.dot = none ∨ written.isOk = true := by
    cases settings.dot <;> cases written <;> simp [Except.map, Except.isOk, Except.toBool]
  simp only [checks, List.forall_mem_append, hgraph]
  constructor
  · exact fun h => h.1.2
  · refine fun h => ⟨⟨⟨fun check hcheck => isOk_of_mem_familyChecks hcheck, ?_⟩, h⟩, ?_⟩
    · exact List.forall_mem_cons.mpr ⟨rfl, List.forall_mem_singleton.mpr rfl⟩
    · exact List.forall_mem_cons.mpr ⟨rfl, List.forall_mem_singleton.mpr rfl⟩

/-- **After each family of a sturdy workload** the run is intact. -/
theorem Sturdy.intact_after (hw : w.Sturdy) (hfs : fs <+: w.families) :
    (Run.after settings fs).Intact (Run.start settings).tree.comparers
      (fs.flatMap Prod.snd) := by
  obtain ⟨hcs, hstart⟩ := Run.intact_start settings
  induction fs using List.reverseRecOn with
  | nil => exact hstart
  | append_singleton fs f ih =>
    have hmem : f ∈ w.families := hfs.subset (List.mem_append_right _ (List.mem_singleton_self f))
    have hbefore := ih ((List.prefix_append fs [f]).trans hfs)
    have hsamples := hbefore.addSamples (Comparers.lawful_of_boundsOnly hcs) (hw.samples f hmem)
    rw [Run.after_concat, hbefore.addFamily_eq hcs (hw.samples f hmem) (hw.conjunctions f hmem),
      List.flatMap_append, List.flatMap_singleton]
    exact hsamples.record_ok _ _

/-- The report after each family of a sturdy workload. -/
theorem Sturdy.report_after (hw : w.Sturdy) (hfs : fs <+: w.families) :
    (Run.after settings fs).report =
      (Report.start "workload" settings.seed).recordAll (familyChecks 0 fs) := by
  obtain ⟨hcs, -⟩ := Run.intact_start settings
  induction fs using List.reverseRecOn with
  | nil => rfl
  | append_singleton fs f ih =>
    have hmem : f ∈ w.families := hfs.subset (List.mem_append_right _ (List.mem_singleton_self f))
    have hfs' := (List.prefix_append fs [f]).trans hfs
    have hbefore : (Run.after settings fs).Intact _ _ := hw.intact_after hfs'
    have hafter := hbefore.addSamples (Comparers.lawful_of_boundsOnly hcs) (hw.samples f hmem)
    have hlength : ((Run.after settings fs).addSamples f.2).handles.length =
        0 + (fs.flatMap Prod.snd).length + f.2.length := by
      rw [hafter.handles, List.length_append, Nat.zero_add]
    rw [Run.after_concat, hbefore.addFamily_eq hcs (hw.samples f hmem) (hw.conjunctions f hmem),
      hlength, familyChecks_concat, Report.recordAll_append, ← ih hfs',
      ← Run.report_addSamples f.2 (Run.after settings fs)]
    rfl

/-- **Once all families are added** the checks of the tree pass as well. -/
theorem Sturdy.fill_eq (hw : w.Sturdy) :
    let tree := (Run.fill settings w).tree
    let answers := tree.specificities (w.satisfied.map Sample.memory)
    Run.fill settings w =
      ((Run.after settings w.families).record "verify after insertion"
        (.ok s!"nodes={tree.size}, roots={tree.breadth}")).record "most specific matches"
        (.ok s!"memories={w.satisfied.length}, pairs={answers.pairs}") := by
  intro tree answers
  obtain ⟨hcs, -⟩ := Run.intact_start settings
  have hall : (Run.after settings w.families).Intact _ _ := hw.intact_after (List.prefix_refl _)
  have hfault := hall.fault?_eq_none (Comparers.lawful_of_boundsOnly hcs)
  have hnone := hall.conflicts_eq_nil hcs (w.satisfied.map Sample.memory)
  have haudit : ∀ numbers, (Run.after settings w.families).audit numbers = .ok numbers :=
    fun numbers => by rw [Run.audit, hfault]
  have hfill : Run.fill settings w =
      ((Run.after settings w.families).record "verify after insertion"
        ((Run.after settings w.families).audit _)).record "most specific matches"
        ((Run.after settings w.families).tree.specificities
          (w.satisfied.map Sample.memory)).result := rfl
  rw [haudit, Tree.result_specificities hnone, List.length_map] at hfill
  exact hfill

theorem Sturdy.intact_fill (hw : w.Sturdy) :
    (Run.fill settings w).Intact (Run.start settings).tree.comparers
      (w.families.flatMap Prod.snd) := by
  rw [hw.fill_eq]
  exact ((hw.intact_after (List.prefix_refl _)).record_ok _ _).record_ok _ _

/-- **A run of a sturdy workload** comes down to the report of its checks. -/
theorem Sturdy.drain_eq (hw : w.Sturdy) (written : Except String Unit) :
    ((Run.fill settings w).recordGraph settings written).drain =
      (((Report.start "workload" settings.seed).recordAll (w.checks settings written)).write .info
        (Report.rule '-')).finish := by
  obtain ⟨hcs, -⟩ := Run.intact_start settings
  have hfilled : (Run.fill settings w).Intact _ _ := hw.intact_fill
  have hreport : (Run.fill settings w).report = _ := congrArg Run.report hw.fill_eq
  rw [Run.recordGraph_eq, hfilled.drain_eq (Comparers.lawful_of_boundsOnly hcs), checks,
    Report.recordAll_append, Report.recordAll_append, Report.recordAll_append,
    ← hw.report_after (List.prefix_refl _), hreport]
  rfl

/-! ## The whole run -/

/-- **A workload that passes**, check by check. -/
structure Passes (settings : Settings) (w : Workload) : Prop where
  /-- After each family the tree counts all triggers that were added. -/
  retained : ∀ fs, fs <+: w.families →
    (Run.after settings fs).tree.total = (fs.map fun f => f.2.length).sum
  /-- Each conjunction is answered in its own memory as soon as it is added. -/
  answered : ∀ fs samples s rest gs,
    w.families = fs ++ (.conjunctions, samples ++ s :: rest) :: gs →
      (((Run.after settings fs).addSamples samples).addSample s).tree.matched s.memory ≠ []
  /-- It still is when all families are. -/
  remembered : ∀ f ∈ w.families, f.1 = .conjunctions → ∀ s ∈ f.2,
    (Run.fill settings w).tree.matched s.memory ≠ []
  /-- An audit finds nothing then. -/
  audited : (Run.fill settings w).tree.fault? = none
  /-- Nor are there conflicts among the answers. -/
  specific : ((Run.fill settings w).tree.specificities
    (w.satisfied.map Sample.memory)).conflicts = []
  /-- Removing everything leaves no trigger and no node but the root. -/
  drained : ((Run.fill settings w).tree.removeAll (Run.fill settings w).handles).Blank
  /-- An audit finds nothing in what is left. -/
  auditedAgain :
    ((Run.fill settings w).tree.removeAll (Run.fill settings w).handles).fault? = none

/-- **A sturdy workload passes.** -/
theorem Sturdy.passes (hw : w.Sturdy) : w.Passes settings := by
  obtain ⟨hcs, -⟩ := Run.intact_start settings
  have hlawful := Comparers.lawful_of_boundsOnly hcs
  have hfilled : (Run.fill settings w).Intact _ _ := hw.intact_fill
  constructor
  · intro fs hfs
    rw [(hw.intact_after hfs).retained, List.length_flatMap]
  · intro fs samples s rest gs hfamilies
    have hfs : fs <+: w.families := ⟨_, hfamilies.symm⟩
    have hmem : (Family.conjunctions, samples ++ s :: rest) ∈ w.families :=
      hfamilies ▸ List.mem_append_right _ List.mem_cons_self
    have hs : s ∈ samples ++ s :: rest := List.mem_append_right _ List.mem_cons_self
    have hsturdy := hw.samples _ hmem
    have hadded := ((hw.intact_after hfs).addSamples hlawful fun t ht =>
      hsturdy t (List.mem_append_left _ ht)).addSample hlawful (hsturdy s hs)
    exact hadded.matched_ne_nil hcs (List.mem_append_right _ (List.mem_singleton_self s))
      (hsturdy s hs) (hw.conjunctions _ hmem rfl s hs)
  · intro f hf hfamily s hs
    exact hfilled.matched_ne_nil hcs (List.mem_flatMap.mpr ⟨f, hf, hs⟩) (hw.samples f hf s hs)
      (hw.conjunctions f hf hfamily s hs)
  · exact hfilled.fault?_eq_none hlawful
  · exact hfilled.conflicts_eq_nil hcs _
  · exact (hfilled.blank_removeAll hlawful).1
  · exact (hfilled.blank_removeAll hlawful).2

/-- **A run is the report of its checks**, whatever words come up. -/
theorem run_eq (source : Source) (written : Except String Unit)
    (hpredicates : 0 < settings.predicates) :
    run settings source written =
      (((Report.start "workload" settings.seed).recordAll
        ((draw settings source).1.checks settings written)).write .info (Report.rule '-')).finish :=
  (yields_draw hpredicates source).drain_eq written

/-- **A run passes** exactly if the graph, where it is asked for, is written. -/
theorem fst_run_iff (source : Source) (written : Except String Unit)
    (hpredicates : 0 < settings.predicates) :
    (run settings source written).1 = true ↔ settings.dot = none ∨ written.isOk = true := by
  rw [run_eq source written hpredicates, Report.fst_finish, decide_eq_true_iff,
    Report.failed_write, Report.failed_recordAll_eq_zero_iff, forall_checks_iff]
  exact and_iff_right (Report.failed_start _ _)

/-- **In a given file system** a run passes exactly if the graph can be written there. -/
theorem fst_runIn_iff (files : FileSystem) (source : Source)
    (hpredicates : 0 < settings.predicates) :
    (runIn files settings source).1 = true ↔
      ∀ path, settings.dot = some path → files.write path = .ok () := by
  rw [runIn, fst_run_iff source _ hpredicates]
  cases settings.dot with
  | none => simp
  | some path => cases h : files.write path <;> simp [h, Except.mapError, Except.isOk, Except.toBool]

/-- A device that takes everything takes the graph, and nothing lies below it. -/
example :
    FileSystem.customary.write "/dev/null" = .ok () ∧
      FileSystem.customary.write "/dev/null/graph" = .error .notDirectory ∧
      FileSystem.customary.write "/proc/graph" = .error .notFound ∧
      FileSystem.customary.write "graph" = .ok () := by
  decide +kernel

/-- **Every run passes**, whatever words come up, as long as there is a base predicate and
no graph is to be written: its report is that of the checks, each of which passed, and what the
checks ask for is the case. The other numbers in the settings may be any. The largest lower
bound on operands leaves no number to draw from; here the bound itself is drawn then, and
nothing is said of a draw that gives up. -/
theorem run_passes (settings : Settings) (source : Source) (written : Except String Unit)
    (hpredicates : 0 < settings.predicates) (hdot : settings.dot = none) :
    let w := (draw settings source).1
    let checks := w.checks settings written
    (run settings source written).1 = true ∧
      run settings source written =
        (((Report.start "workload" settings.seed).recordAll checks).write .info
          (Report.rule '-')).finish ∧
      (∀ check ∈ checks, check.2.isOk = true) ∧ w.Passes settings := by
  intro w checks
  have hpassed : settings.dot = none ∨ written.isOk = true := .inl hdot
  exact ⟨(fst_run_iff source written hpredicates).mpr hpassed,
    run_eq source written hpredicates, (w.forall_checks_iff settings written).mpr hpassed,
    (yields_draw hpredicates source).passes⟩

/-- A small workload with bounds, of each family. -/
theorem run_passes_small :
    let settings : Settings :=
      { predicates := 3, singletons := 2, conjunctions := 2, disjunctions := 1, optionals := 1,
        quantifiers := 1, nots := 1, orderBounds := true }
    let source := Source.ofSeed 7
    0 < settings.predicates ∧ settings.dot = none ∧
      (draw settings source).1.families.map (fun f => f.2.length) = [2, 2, 1, 1, 1, 1] ∧
      (run settings source (.ok ())).1 = true ∧ (draw settings source).1.Passes settings := by
  intro settings source
  have hpredicates : 0 < settings.predicates := by decide
  have hdot : settings.dot = none := rfl
  obtain ⟨hrun, -, -, hpasses⟩ := run_passes settings source (.ok ()) hpredicates hdot
  exact ⟨hpredicates, hdot, by decide +kernel, hrun, hpasses⟩

end Workload

end Specificity
