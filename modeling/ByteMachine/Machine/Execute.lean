import ByteMachine.Machine.ValueStack
import ByteMachine.Module.Addressing
import ByteMachine.Module.Basic

/-!
One instruction: how it is found in the code page, and what it does to the value stack.
-/
namespace ByteMachine

/-- An instruction found in the code page. -/
structure Decoded where
  instruction : Instruction
  /-- Where its opcode stands. -/
  position : Address
  /-- Where the next instruction begins. -/
  next : Address
  deriving DecidableEq

/-- Decodes the instruction that begins at `pc`. -/
def Module.decode (m : Module) (pc : Address) : Except Error Decoded := do
  let (prefixes, position) ← m.code.conditionals pc
  let byte ← m.code.byteAt position
  match Opcode.ofCode? byte with
  | none => .error (.invalidOpcode byte position.value)
  | some opcode =>
    let next ← position.increment (opcode.size m.widths)
    let operand := m.code.memory.range (position.value + 1) (opcode.operand.size m.widths)
    return ⟨⟨prefixes, opcode, operand⟩, position, next⟩

/-- Performs an instruction on the value stack and says where the program goes on. -/
def Module.perform (m : Module) (d : Decoded) : Action ValueStack Address :=
  match d.instruction.opcode with
  | .exit | .outByte | .kernelCall => return d.next
  | .jump => do
    let target ← Action.ofExcept (m.code.jumpAddress d.position)
    Action.ofExcept (target.rebound (m.code.length + 1))
  | .pushByte => do
    ValueStack.pushByte (← Action.ofExcept (m.code.immediateByte d.position))
    return d.next
  | .pushWord => do
    (← Action.ofExcept (m.code.immediateWord d.position)).forM ValueStack.pushByte
    return d.next
  | .pushDirect => do
    ValueStack.pushByte (← Action.ofExcept (m.code.directByte m.data d.position))
    return d.next
  | .pushIndirect => do
    ValueStack.pushByte (← Action.ofExcept (m.code.indirectByte m.data d.position))
    return d.next
  | .pushString => do
    let address ← Action.ofExcept (m.code.directAddress m.data d.position)
    ValueStack.pushText (← Action.ofExcept (m.data.textAt address))
    return d.next
  | .popByte => do
    let _ ← ValueStack.popByte
    return d.next

end ByteMachine
