/-!
# Reports

A report collects the checks of one run, says of each whether it passed, and
ends with a summary. What it writes is kept as a log of lines, each with its
severity; printing them is left to whoever runs the checks.
-/

namespace Specificity

/-- How serious a line of a log is. -/
inductive Severity where
  /-- For information. -/
  | info
  /-- Something went wrong. -/
  | error
deriving DecidableEq

/-- The name of a severity. -/
def Severity.name : Severity → String
  | info => "INFO"
  | error => "ERROR"

/-- A line of a log. -/
structure LogLine where
  /-- How serious it is. -/
  severity : Severity
  /-- What it says. -/
  text : String
deriving DecidableEq

/-- The checks of one run so far. -/
structure Report where
  /-- The name of the tool whose run it is. -/
  tool : String
  /-- The number of checks that passed. -/
  passed : Nat
  /-- The number of checks that failed. -/
  failed : Nat
  /-- The lines written so far. -/
  log : List LogLine
deriving DecidableEq, Inhabited

namespace Report

/-- A line across the page, drawn with one character. -/
def rule (c : Char) : String := String.ofList (List.replicate 80 c)

/-- The report with one more line. -/
def write (r : Report) (severity : Severity) (text : String) : Report :=
  { r with log := r.log ++ [⟨severity, text⟩] }

/-- **The start of a report.** -/
def start (tool : String) (seed : UInt64) : Report :=
  let r : Report := ⟨tool, 0, 0, []⟩
  (r.write .info s!"Running {tool} with seed {seed}...").write .info (rule '=')

/-- **A check that passed**, with some numbers about it. -/
def pass (r : Report) (check : String) (numbers : Option String) : Report :=
  let r := { r with passed := r.passed + 1 }
  match numbers with
  | some numbers => r.write .info s!"PASSED: {check} ({numbers})"
  | none => r.write .info s!"PASSED: {check}"

/-- **A check that failed**, with a reason. -/
def fail (r : Report) (check : String) (reason : Option String) : Report :=
  let r := { r with failed := r.failed + 1 }
  match reason with
  | some reason => r.write .error s!"FAILED: {check} - {reason}"
  | none => r.write .error s!"FAILED: {check}"

/-- A check that passed with numbers or failed with a reason. -/
def record (r : Report) (check : String) : Except String String → Report
  | .ok numbers => r.pass check (some numbers)
  | .error reason => r.fail check (some reason)

/-- **The end of a report**: did every check pass, and the whole log with its
summary. -/
def finish (r : Report) : Bool × List LogLine :=
  let lines :=
    [ "", rule '=', "SUMMARY:",
      s!"  Checks: {r.passed + r.failed}",
      s!"  Passed: {r.passed}",
      s!"  Failed: {r.failed}" ]
  let verdict : LogLine :=
    if r.failed = 0 then ⟨.info, s!"All checks passed in {r.tool}!"⟩
    else ⟨.error, s!"Some checks failed in {r.tool}. Check the errors above for details."⟩
  (r.failed = 0, r.log ++ lines.map (LogLine.mk .info) ++ [verdict])

end Report

end Specificity
