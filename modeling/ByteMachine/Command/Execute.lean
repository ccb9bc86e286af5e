import ByteMachine.Command.Assemble
import ByteMachine.Command.Run

/-!
Command lines.
-/
namespace ByteMachine.Command

/-- Carries out a command line, of which the first word names the command. -/
def execute (d : Directory) : List String → Report × Directory
  | "vasm" :: args => vasm d args
  | "vrun" :: args => (vrun d args, d)
  | _ => (refuse (assembleUsage ++ runUsage) .usage, d)

end ByteMachine.Command
