import ByteMachine.Command.Options
import ByteMachine.Text.Utf8

/-!
What a command reports to its user.
-/
namespace ByteMachine

/-- What a command leaves behind, apart from files. -/
structure Report where
  exitCode : Nat
  stdout : List UInt8 := []
  stderr : String := ""
  deriving DecidableEq, Repr

namespace Command

def refuse (usage : String) : Refusal → Report
  | .help => { exitCode := 0, stdout := Utf8.encode usage }
  | .usage => { exitCode := 1, stderr := usage }

end Command

end ByteMachine
