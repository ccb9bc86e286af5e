import ByteMachine.Command.Directory
import ByteMachine.Command.Report
import ByteMachine.Machine.Host
import ByteMachine.Machine.Report
import ByteMachine.Module.File

/-!
The command `vrun`, which runs a module file and prints what the program writes, and with `--trace`
also the state after each step.
-/
namespace ByteMachine.Command

def runUsage : String :=
  "Usage: vrun [--start <SYMBOL>] [--trace] [--stack-capacity <N>] [--max-steps <N>] <MODULE>\n"

def loadModule (d : Directory) (path : String) : Except Error Module := do
  match Module.read (Source.ofBytes (← d.readFile path)) with
  | .ok m _ => .ok m
  | .error e _ => .error e

/-- What is printed after a step: the last instruction, if there is one, and the state. -/
def traceText (p : Processor) (s : ValueStack) : String :=
  (match p.lastText with
    | some last => last ++ "\n"
    | none => "") ++ p.stateTable s ++ "\n"

def printTrace : Processor × Host → Processor × Host
  | (p, h) =>
    match Host.print (Utf8.encode (traceText p h.stack)) h with
    | .ok () h | .error _ h => (p, h)

/-- A step that prints a trace, whether it fails or not. -/
def tracedStep (m : Module) : Action (Processor × Host) (Option Outcome) := fun state =>
  match Host.step m state with
  | .ok outcome state => .ok outcome (printTrace state)
  | .error e state => .error e (printTrace state)

def startExitCode : Error → Nat
  | .missingStart _ => 2
  | .format _ => 3
  | _ => 4

/-- The report of a run that ended in an error. -/
def faultReport (e : Error) (p : Processor) (output : Sink) : Report :=
  { exitCode := 4
    stdout := output.written
    stderr :=
      "vrun: " ++ e.message ++ " (pc " ++ p.pc.text ++ ", state " ++ p.state.text ++ ")\n" }

/-- Runs a loaded module. A run that goes on for longer than any count of steps is reported as if
it had met a limit. -/
def runModule (o : RunOptions) (m : Module) : Report :=
  match Host.start m o.start (.create o.capacity o.stepLimit {}) with
  | .error e _ => { exitCode := startExitCode e, stderr := "vrun: " ++ e.message ++ "\n" }
  | .ok p h =>
    let step := if o.trace then tracedStep m else Host.step m
    match step.untilSome h.patience (p, h) with
    | .ok (some _) (_, h) => { exitCode := 0, stdout := h.output.written }
    | .ok none (p, h) => faultReport (.stepLimit h.patience) p h.output
    | .error e (p, h) => faultReport e p h.output

def runFile (d : Directory) (o : RunOptions) : Report :=
  match loadModule d o.file with
  | .error e =>
    { exitCode := 3, stderr := "vrun: cannot load " ++ o.file ++ ": " ++ e.message ++ "\n" }
  | .ok m => runModule o m

/-- The command with its arguments. -/
def vrun (d : Directory) (args : List String) : Report :=
  match parseArguments runForm args with
  | .error r => refuse runUsage r
  | .ok a =>
    match a.positionals with
    | [file] => runFile d (.ofArguments file a)
    | _ => refuse runUsage .usage

end ByteMachine.Command
