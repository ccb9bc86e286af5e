import ByteMachine.Machine.Execute

/-!
The processor. A step decodes the instruction at the program counter, performs it, and counts it.
An instruction that fails stops the processor and is not counted.
-/
namespace ByteMachine

/-- The kind of error that stopped a processor. -/
inductive Fault where
  | address
  | invalidOpcode (byte : UInt8)
  | underflow
  | overflow
  | kernelCall
  | other
  deriving DecidableEq, Repr

def Fault.ofError : Error → Fault
  | .address _ => address
  | .invalidOpcode byte _ => invalidOpcode byte
  | .underflow _ _ => underflow
  | .overflow _ => overflow
  | .unknownCall _ => kernelCall
  | _ => other

def Fault.text : Fault → String
  | address => "Address"
  | invalidOpcode byte => "invalid opcode 0x" ++ Numeral.hexByte byte
  | underflow => "StackUnderflow"
  | overflow => "StackOverflow"
  | kernelCall => "KernelCall"
  | other => "Other"

inductive RunState where
  | running
  | halted
  | faulted (fault : Fault)
  deriving DecidableEq, Repr

def RunState.text : RunState → String
  | running => "running"
  | halted => "halted"
  | faulted fault => "faulted: " ++ fault.text

/-- The call that an instruction raises when it is done. -/
def Opcode.syscall : Opcode → Option Syscall
  | exit => some .halt
  | outByte => some .out
  | kernelCall => some .kernelCall
  | _ => none

/-- The state in which an instruction leaves the processor. -/
def Opcode.after : Opcode → RunState
  | exit => .halted
  | _ => .running

structure Processor where
  pc : Address
  state : RunState
  /-- How many instructions have been completed. -/
  steps : Nat
  /-- The last of them, and where it began. -/
  last : Option (Address × Instruction)
  deriving DecidableEq

namespace Processor

def start (m : Module) (entry : Nat) : Except Error Processor := do
  return ⟨← m.code.programCounter entry, .running, 0, none⟩

/-- Stops the processor because of an error, its own or one of its host. -/
def fault (p : Processor) (e : Error) : Processor :=
  { p with state := .faulted (.ofError e) }

/-- Counts an instruction that was completed and moves on. -/
def retire (p : Processor) (i : Instruction) (next : Address) : Processor :=
  { pc := next, state := i.opcode.after, steps := p.steps + 1, last := some (p.pc, i) }

/-- The instruction at the program counter and, once performed, the position after it. -/
def execute (p : Processor) (m : Module) : Action ValueStack (Instruction × Address) := do
  let d ← Action.ofExcept (m.decode p.pc)
  let next ← m.perform d
  return (d.instruction, next)

/-- Executes one instruction. The call that it raises is for the host to serve. -/
def step (m : Module) : Action (Processor × ValueStack) (Option Syscall)
  | (p, stack) =>
    if p.state ≠ .running then .error (.notRunning p.state.text) (p, stack)
    else
      match p.execute m stack with
      | .ok (i, next) stack => .ok i.opcode.syscall (p.retire i next, stack)
      | .error e stack => .error e (p.fault e, stack)

end Processor

end ByteMachine
