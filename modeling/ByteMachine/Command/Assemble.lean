import ByteMachine.Assembly.Assemble
import ByteMachine.Command.Directory
import ByteMachine.Command.Report
import ByteMachine.Module.File

/-!
The command `vasm`, which assembles a source file into a module file.
-/
namespace ByteMachine.Command

def assembleUsage : String :=
  "Usage: vasm <SOURCE> <MODULE>\n"

def readSource (d : Directory) (path : String) : Except Error String := do
  match Utf8.decode (← d.readFile path) with
  | .ok text => .ok text
  | .error _ => .error (.io .notText)

/-- Writes a module to a file. What was written before a failure stays in the file. -/
def saveModule (path : String) (m : Module) : Action Directory Unit := do
  Directory.writeFile path []
  match m.write {} with
  | .ok () sink => Directory.writeFile path sink.written
  | .error e sink =>
    Directory.writeFile path sink.written
    throw e

def assembleFile (source target : String) : Action Directory Unit := do
  let text ← Action.ofExcept (readSource (← get) source)
  saveModule target (← Action.ofExcept (assemble text))

/-- The command with its arguments. -/
def vasm (d : Directory) (args : List String) : Report × Directory :=
  match parseArguments assembleForm args with
  | .error r => (refuse assembleUsage r, d)
  | .ok a =>
    match a.positionals with
    | [source, target] =>
      match assembleFile source target d with
      | .ok () d => ({ exitCode := 0 }, d)
      | .error e d =>
        ({ exitCode := 2, stderr := "vasm: " ++ source ++ ": " ++ e.message ++ "\n" }, d)
    | _ => (refuse assembleUsage .usage, d)

end ByteMachine.Command
