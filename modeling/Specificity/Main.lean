import Specificity.Workload
import Specificity.Workload.CommandLine

/-!
# The command line tool

Runs a random workload with the settings of the command line and prints the
log. The exit code is 0 if every check passed, 1 if one failed, and 2 if the
command line was refused.
-/

namespace Specificity

/-- The summary of the command line. -/
def usage : String :=
  "Usage: workload [OPTIONS]\n\nOptions:\n" ++
    String.join (CommandLine.options.map fun opt =>
      "  --" ++ opt.name ++ (if opt.takesValue then " <VALUE>" else "") ++ "\n")

/-- The version of the tool. -/
def versionText : String := "workload 0.1.0"

/-- The message about an error of the operating system. -/
def describe : IO.Error → String
  | .noFileOrDirectory _ number text => osErrorText text number.toNat
  | .permissionDenied _ number text => osErrorText text number.toNat
  | .inappropriateType _ number text => osErrorText text number.toNat
  | .resourceExhausted _ number text => osErrorText text number.toNat
  | .noSuchThing _ number text => osErrorText text number.toNat
  | .invalidArgument _ number text => osErrorText text number.toNat
  | .hardwareFault number text => osErrorText text number.toNat
  | .otherError number text => osErrorText text number.toNat
  | e => toString e

/-- Writes the graph to the path the settings name, and answers whether it could. -/
def writeGraph (settings : Settings) (run : Run) : IO (Except String Unit) :=
  match settings.dot with
  | none => return .ok ()
  | some path =>
    if path.toList.contains '\x00' then return .error WriteError.nulByte.message
    else
      try
        IO.FS.withFile path .write fun handle => do
          handle.putStr run.tree.printDot
          handle.flush
        return .ok ()
      catch e => return .error (describe e)

/-- Runs a workload and prints its log. -/
def runAndPrint (settings : Settings) : IO UInt32 := do
  let workload := (Workload.draw settings (.ofSeed settings.seed)).1
  let run := Run.fill settings workload
  let written ← writeGraph settings run
  let (passed, log) := (run.recordGraph settings written).drain
  for line in log do
    IO.println (line.severity.name ++ " " ++ line.text)
  return if passed then 0 else 1

end Specificity

open Specificity in
/-- The entry point. -/
def main (words : List String) : IO UInt32 := do
  match CommandLine.parse words with
  | .ok settings => runAndPrint settings
  | .error .help =>
    IO.print usage
    return 0
  | .error .version =>
    IO.println versionText
    return 0
  | .error refusal =>
    IO.eprintln ("error: " ++ refusal.message)
    return 2
