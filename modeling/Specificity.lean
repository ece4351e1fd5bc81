import Specificity.Clause
import Specificity.Clause.Distinct
import Specificity.Clause.NormalForm
import Specificity.Clause.Relation
import Specificity.Clause.Subsumption
import Specificity.Comparers
import Specificity.Comparison
import Specificity.Expression
import Specificity.Expression.Evaluation
import Specificity.Expression.Likeness
import Specificity.Expression.Negation
import Specificity.Expression.Renaming
import Specificity.Expression.Text
import Specificity.Fingerprint
import Specificity.Main
import Specificity.Memory
import Specificity.NameMap
import Specificity.Proofs.Accounting
import Specificity.Proofs.Agreement
import Specificity.Proofs.Answering
import Specificity.Proofs.Antichain
import Specificity.Proofs.Auditing
import Specificity.Proofs.Bookkeeping
import Specificity.Proofs.Bounds
import Specificity.Proofs.Certainty
import Specificity.Proofs.ClausalForm
import Specificity.Proofs.ClauseLaws
import Specificity.Proofs.ClauseOrder
import Specificity.Proofs.Completeness
import Specificity.Proofs.Condensing
import Specificity.Proofs.Evaluation
import Specificity.Proofs.Expansion
import Specificity.Proofs.Filing
import Specificity.Proofs.Fingerprints
import Specificity.Proofs.Fitting
import Specificity.Proofs.Growth
import Specificity.Proofs.Hierarchy
import Specificity.Proofs.History
import Specificity.Proofs.Implication
import Specificity.Proofs.Judgement
import Specificity.Proofs.Likeness
import Specificity.Proofs.Limits
import Specificity.Proofs.Matching
import Specificity.Proofs.Negations
import Specificity.Proofs.NormalForm
import Specificity.Proofs.Normalization
import Specificity.Proofs.Outline
import Specificity.Proofs.Ownership
import Specificity.Proofs.Predicates
import Specificity.Proofs.Reading
import Specificity.Proofs.Rearranging
import Specificity.Proofs.Rejection
import Specificity.Proofs.Renaming
import Specificity.Proofs.Reordering
import Specificity.Proofs.Restoring
import Specificity.Proofs.Retention
import Specificity.Proofs.Searching
import Specificity.Proofs.Shape
import Specificity.Proofs.Silencing
import Specificity.Proofs.Slots
import Specificity.Proofs.Soundness
import Specificity.Proofs.Specificities
import Specificity.Proofs.Store.Calling
import Specificity.Proofs.Store.Diagram
import Specificity.Proofs.Store.Inserting
import Specificity.Proofs.Store.Joining
import Specificity.Proofs.Store.Placing
import Specificity.Proofs.Store.Refusing
import Specificity.Proofs.Store.Rewiring
import Specificity.Proofs.Store.Sinking
import Specificity.Proofs.Store.Splicing
import Specificity.Proofs.Store.Sweeping
import Specificity.Proofs.Store.Upkeep
import Specificity.Proofs.Subsumption
import Specificity.Proofs.Termination
import Specificity.Proofs.TriggerLaws
import Specificity.Proofs.TriggerOrder
import Specificity.Proofs.Visibility
import Specificity.Proofs.Visiting
import Specificity.Proofs.Workload.Drawing
import Specificity.Proofs.Workload.Merging
import Specificity.Proofs.Workload.Running
import Specificity.Proofs.Workload.Sampling
import Specificity.Quantifier
import Specificity.Relationship
import Specificity.Report
import Specificity.SipHash
import Specificity.Traversal
import Specificity.Tree
import Specificity.Tree.Audit
import Specificity.Tree.Drawing
import Specificity.Tree.Firing
import Specificity.Tree.Insertion
import Specificity.Tree.Node
import Specificity.Tree.Register
import Specificity.Tree.Removal
import Specificity.Tree.Store
import Specificity.Trigger
import Specificity.Value
import Specificity.Workload
import Specificity.Workload.CommandLine
import Specificity.Workload.FileSystem
import Specificity.Workload.Sample
import Specificity.Workload.Settings
import Specificity.Workload.Source
