import ByteMachine.Instruction.Opcode
import ByteMachine.Module.Page

/-!
Modules: a program's two pages, its properties, and the code positions that it exports by name.
-/
namespace ByteMachine

structure Module where
  properties : Table
  exports : Table
  code : CodePage
  data : DataPage
  deriving DecidableEq

namespace Module

def widths (m : Module) : Widths :=
  ⟨m.code.width, m.data.width⟩

/-- The code position that a symbol names, or nothing if it is not exported. -/
def resolve (m : Module) (symbol : String) : Except Error (Option Nat) :=
  match m.exports.get? symbol with
  | none => .ok none
  | some value =>
    match Numeral.readWord value with
    | some n => .ok (some n)
    | none => .error (.format (.malformedExport symbol value))

end Module

end ByteMachine
