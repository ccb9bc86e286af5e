import ByteMachine.Instruction.Basic
import ByteMachine.Module.Page

/-!
The addressing modes: how an instruction in the code page reaches its operand, and the data that
the operand points at.
-/
namespace ByteMachine

/-- The text that begins at an address and ends before the next zero byte. -/
def DataPage.textAt (d : DataPage) (a : Address) : Except Error String := do
  d.checkRange a.value (d.length - a.value)
  let bytes := d.memory.run (· != 0) a.value
  if a.value + bytes.length < d.length then
    match Utf8.decode bytes with
    | .ok text => .ok text
    | .error defect => .error (.notText defect)
  else .error (.address (.unterminated a.value a.width))

namespace CodePage

/-- A position that the program counter can take. It may rest right behind the last byte. -/
def programCounter (c : CodePage) (value : Nat) : Except Error Address :=
  Address.make value c.width (c.length + 1)

/-- The byte after the opcode at `pc`. -/
def immediateByte (c : CodePage) (pc : Address) : Except Error UInt8 :=
  c.byte (pc.value + 1)

/-- The two bytes after the opcode at `pc`. -/
def immediateWord (c : CodePage) (pc : Address) : Except Error (List UInt8) :=
  c.slice (pc.value + 1) 2

/-- The operand as a position in the code. -/
def jumpAddress (c : CodePage) (pc : Address) : Except Error Address :=
  c.addressAt (pc.value + 1) c.width c.length

/-- The operand as a position in the data. -/
def directAddress (c : CodePage) (d : DataPage) (pc : Address) : Except Error Address :=
  c.addressAt (pc.value + 1) d.width d.length

def directByte (c : CodePage) (d : DataPage) (pc : Address) : Except Error UInt8 := do
  d.byteAt (← c.directAddress d pc)

/-- The position that stands in the data where the operand points. -/
def indirectAddress (c : CodePage) (d : DataPage) (pc : Address) : Except Error Address := do
  let pointer ← c.directAddress d pc
  d.addressAt pointer.value d.width d.length

def indirectByte (c : CodePage) (d : DataPage) (pc : Address) : Except Error UInt8 := do
  d.byteAt (← c.indirectAddress d pc)

/-- The conditional prefixes at `pc`, and the position of the opcode behind them. -/
def conditionals (c : CodePage) (pc : Address) : Except Error (List UInt8 × Address) := do
  let prefixes := c.memory.run isConditional pc.value
  let position := pc.value + prefixes.length
  let _ ← c.byte position
  return (prefixes, ← Address.make position pc.width pc.maximum)

end CodePage

end ByteMachine
