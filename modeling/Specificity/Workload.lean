import Specificity.Report
import Specificity.Tree.Audit
import Specificity.Tree.Drawing
import Specificity.Tree.Firing
import Specificity.Workload.FileSystem
import Specificity.Workload.Sample
import Specificity.Workload.Settings

/-!
# Workloads

A workload is a collection of random triggers that are put into a tree, asked
against the assignments that came with them, and taken out again. Along the
way it is checked that every trigger finds a place, that every conjunction is
answered in its own memory, that the tree keeps its invariants, that of the
triggers reported together none makes another superfluous, and that nothing
is left at the end.

Everything here is a function of the settings and the random words. Writing a
graph to a file is the one thing that is not, so its result is handed in, or taken
from a file system that is given.
-/

namespace Specificity

/-! ## Making a workload -/

/-- The families of triggers, in the order in which they are added. -/
inductive Family where
  /-- Base predicates alone. -/
  | singletons
  /-- Conjunctions. -/
  | conjunctions
  /-- Disjunctions. -/
  | disjunctions
  /-- Conjunctions that start with an optional part. -/
  | optionals
  /-- Quantified conditions. -/
  | quantifiers
  /-- Negations. -/
  | nots
deriving DecidableEq

/-- The name of a family. -/
def Family.name : Family → String
  | singletons => "singletons"
  | conjunctions => "conjunctions"
  | disjunctions => "disjunctions"
  | optionals => "optionals"
  | quantifiers => "quantifiers"
  | nots => "nots"

/-- The triggers of a workload, by family, and the samples known to hold. -/
structure Workload where
  /-- The base predicates and the conjunctions. -/
  satisfied : List Sample
  /-- The families, in the order in which they are added. -/
  families : List (Family × List Sample)

namespace Workload

/-- **Making a workload.** Each family draws on those made before it. -/
def draw (settings : Settings) : Draw Workload := do
  let least := settings.operandRange.1.toNat
  let limit := settings.operandRange.2.toNat
  let base ← Sample.predicates settings.predicates.toNat "mem"
  let conjunctions ← Sample.conjunctions base settings.conjunctions.toNat least limit
  let satisfied := base ++ conjunctions
  let disjunctions ← Sample.disjunctions satisfied settings.disjunctions.toNat least limit
  let pool := satisfied ++ disjunctions
  let optionals ← Sample.optionals pool settings.optionals.toNat least limit
  let pool := pool ++ optionals
  let quantified ← Sample.quantified pool settings.quantifiers.toNat
    settings.mostBindings.toNat settings.mostQuantifiers.toNat
  let pool := pool ++ quantified
  let nots ← Sample.negations pool settings.nots.toNat
  return {
    satisfied
    families :=
      [ (.singletons, base.take settings.singletons.toNat),
        (.conjunctions, conjunctions),
        (.disjunctions, disjunctions),
        (.optionals, optionals),
        (.quantifiers, quantified),
        (.nots, nots) ] }

end Workload

/-! ## Most specific answers -/

/-- The outcome of asking a tree about a list of memories. -/
structure Specificities where
  /-- The number of memories. -/
  memories : Nat
  /-- The number of pairs of triggers that were reported together. -/
  pairs : Nat
  /-- The pairs of which one trigger makes the other superfluous. -/
  conflicts : List (TriggerId × TriggerId)
deriving DecidableEq

namespace Specificities

/-- What there is to say about the outcome: the numbers if there is no conflict,
and otherwise the conflicts. -/
def result (s : Specificities) : Except String String :=
  if s.conflicts.isEmpty then .ok s!"memories={s.memories}, pairs={s.pairs}"
  else .error (String.join (s.conflicts.map fun c => s!"{c.1} vs {c.2}; "))

end Specificities

namespace Tree

variable {α : Type}

/-- The active clauses of a trigger that hold. -/
def holding (m : Memory) (t : Trigger α) : List Clause :=
  t.active.filter fun c =>
    match c.eval m with
    | .ok b => b
    | .error _ => false

/-- Is there a clause in each of two lists such that neither is the wider? -/
def areUnrelated (tree : Tree α) (cs ds : List Clause) : Bool :=
  cs.any fun c => ds.any fun d =>
    match c.relate tree.comparers d with
    | .equal | .incomparable => true
    | .specializes | .generalizes => false

/-- **Are the answers most specific?** Of each two triggers reported for one memory,
the clauses that hold must be unrelated. -/
def specificities (tree : Tree α) (memories : List Memory) : Specificities :=
  let together := memories.flatMap fun m =>
    pairs ((tree.matched m).map fun t => (t, holding m t))
  { memories := memories.length
    pairs := together.length
    conflicts := together.filterMap fun ((t, cs), (u, ds)) =>
      if tree.areUnrelated cs ds then none else some (t.id, u.id) }

end Tree

/-! ## Running a workload -/

/-- The state of a run. -/
structure Run where
  /-- What was checked so far. -/
  report : Report
  /-- The tree. -/
  tree : Tree Nat
  /-- The handles of the triggers added so far. -/
  handles : List TriggerId

namespace Run

/-- The start of a run: an empty tree, with the comparers the settings ask for. -/
def start (settings : Settings) : Run :=
  let comparers := if settings.orderBounds then Comparers.empty.registerBounds else .empty
  ⟨.start "workload" settings.seed, .empty comparers [], []⟩

/-- The run with one more check recorded. -/
def record (run : Run) (check : String) (result : Except String String) : Run :=
  { run with report := run.report.record check result }

/-- Adds the trigger of a sample; its action is the number of those before it. -/
def addSample (s : Sample) (run : Run) : Run :=
  let (id, tree) := run.tree.add s.expression run.handles.length s.quantifiers
  { run with tree, handles := run.handles ++ [id] }

/-- Adds a family of triggers. Did all of them find a place, and if they are
conjunctions, is each answered in its own memory? -/
def addFamily (run : Run) (family : Family) (samples : List Sample) : Run :=
  let visit (s : Sample) (run : Run) : Option String × Run :=
    let run := run.addSample s
    let missed := family = .conjunctions ∧ (run.tree.matched s.memory).isEmpty
    (if missed then some s.expression.print else none, run)
  let (missed, run) := visitAll visit samples run
  let missed := missed.filterMap id
  let expected := run.handles.length
  let run := run.record s!"add {family.name}" <|
    if run.tree.total = expected then .ok s!"triggers={expected}"
    else .error s!"expected {expected} triggers, tree holds {run.tree.total}"
  if missed.isEmpty then run
  else
    { run with
      report := run.report.fail s!"{family.name} match their own memory"
        (some ("; ".intercalate missed)) }

/-- The result of auditing the tree. -/
def audit (run : Run) (numbers : String) : Except String String :=
  match run.tree.fault? with
  | none => .ok numbers
  | some fault => .error fault.message

/-- **The first half of a run**, in which all triggers are added. -/
def fill (settings : Settings) (workload : Workload) : Run :=
  let run := workload.families.foldl (fun run f => run.addFamily f.1 f.2) (start settings)
  let run := run.record "verify after insertion" <|
    run.audit s!"nodes={run.tree.size}, roots={run.tree.breadth}"
  run.record "most specific matches"
    (run.tree.specificities (workload.satisfied.map Sample.memory)).result

/-- Records whether the graph could be written to the path the settings name. -/
def recordGraph (run : Run) (settings : Settings) (written : Except String Unit) : Run :=
  match settings.dot with
  | none => run
  | some path => run.record "write graph" (written.map fun _ => path)

/-- **The second half of a run**, in which all triggers are removed again. -/
def drain (run : Run) : Bool × List LogLine :=
  let tree := run.handles.foldl (fun (tree : Tree Nat) id => (tree.remove id).2) run.tree
  let run := { run with tree }
  let run := run.record "remove all" <|
    if tree.total = 0 ∧ tree.size = 0 then .ok s!"removed={run.handles.length}"
    else .error s!"{tree.total} triggers and {tree.size} nodes left"
  let run := run.record "verify after removal" (run.audit "")
  (run.report.write .info (Report.rule '-')).finish

end Run

/-- **Running a workload**: did every check pass, and the log. The random words and
the result of writing the graph are given. -/
def Workload.run (settings : Settings) (source : Source) (written : Except String Unit) :
    Bool × List LogLine :=
  let workload := (Workload.draw settings source).1
  ((Run.fill settings workload).recordGraph settings written).drain

/-- **Running a workload in a given file system**, which decides whether the graph
can be written. -/
def Workload.runIn (files : FileSystem) (settings : Settings) (source : Source) :
    Bool × List LogLine :=
  Workload.run settings source <|
    match settings.dot with
    | none => .ok ()
    | some path => (files.write path).mapError WriteError.message

end Specificity
