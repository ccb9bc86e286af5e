import ByteMachine.Memory.Width

/-!
The instruction set: what each opcode is called, which byte stands for it, which operand follows
it, and the calls that instructions raise to the outside.
-/
namespace ByteMachine

inductive Opcode where
  | exit
  | outByte
  | kernelCall
  | jump
  | pushByte
  | pushDirect
  | pushIndirect
  | pushString
  | pushWord
  | popByte
  deriving DecidableEq, Repr

/-- What follows an opcode in the code page. -/
inductive Operand where
  | none
  /-- One byte. -/
  | immediateByte
  /-- Two bytes, low byte first. -/
  | immediateWord
  /-- An address into the code page. -/
  | codeAddress
  /-- An address into the data page. -/
  | dataAddress
  deriving DecidableEq, Repr

/-- The address widths of the two pages. -/
structure Widths where
  code : Width
  data : Width
  deriving DecidableEq, Repr

def Widths.of (w : Widths) : Section → Width
  | .code => w.code
  | .data => w.data

def Operand.size (w : Widths) : Operand → Nat
  | none => 0
  | immediateByte => 1
  | immediateWord => 2
  | codeAddress => w.code.bytes
  | dataAddress => w.data.bytes

namespace Opcode

def all : List Opcode :=
  [exit, outByte, kernelCall, jump, pushByte, pushDirect, pushIndirect, pushString, pushWord,
   popByte]

def code : Opcode → UInt8
  | exit => 0x00
  | outByte => 0x13
  | kernelCall => 0x14
  | jump => 0x20
  | pushByte => 0x40
  | pushDirect => 0x41
  | pushIndirect => 0x42
  | pushString => 0x43
  | pushWord => 0x44
  | popByte => 0x51

def mnemonic : Opcode → String
  | exit => "EXIT"
  | outByte => "OUT.B"
  | kernelCall => "KCALL"
  | jump => "JMP"
  | pushByte => "PUSH.B"
  | pushDirect => "PUSH.D"
  | pushIndirect => "PUSH.I"
  | pushString => "PUSHS.D"
  | pushWord => "PUSH.W"
  | popByte => "POP.B"

def operand : Opcode → Operand
  | exit | outByte | kernelCall | popByte => .none
  | jump => .codeAddress
  | pushByte => .immediateByte
  | pushWord => .immediateWord
  | pushDirect | pushIndirect | pushString => .dataAddress

/-- The opcode and its operand, prefixes excluded. -/
def size (w : Widths) (op : Opcode) : Nat :=
  1 + op.operand.size w

def ofCode? (b : UInt8) : Option Opcode :=
  all.find? fun op => op.code == b

/-- Finds an opcode by its name, in capitals as it is written. -/
def ofMnemonic? (name : String) : Option Opcode :=
  all.find? fun op => op.mnemonic == name

theorem mem_all (op : Opcode) : op ∈ all := by
  cases op <;> decide

theorem ofCode?_code (op : Opcode) : ofCode? op.code = some op := by
  cases op <;> decide

theorem ofMnemonic?_mnemonic (op : Opcode) : ofMnemonic? op.mnemonic = some op := by
  cases op <;> decide

end Opcode

/-- Whether a byte is a conditional prefix, which no opcode is. -/
def isConditional (b : UInt8) : Bool :=
  0xE0 ≤ b && b ≤ 0xEF

theorem isConditional_iff {b : UInt8} : isConditional b = true ↔ 0xE0 ≤ b ∧ b ≤ 0xEF := by
  simp [isConditional]

theorem isConditional_code (op : Opcode) : isConditional op.code = false := by
  cases op <;> decide

/-- What an instruction asks of the host. -/
inductive Syscall where
  | halt
  /-- Pop a name and call the service it names. -/
  | kernelCall
  /-- Pop a byte and write it. -/
  | out
  deriving DecidableEq, Repr

namespace Syscall

def all : List Syscall :=
  [halt, kernelCall, out]

def code : Syscall → UInt8
  | halt => 0x04
  | kernelCall => 0x05
  | out => 0x08

def name : Syscall → String
  | halt => "halt"
  | kernelCall => "kernel"
  | out => "out"

def ofCode? (b : UInt8) : Option Syscall :=
  all.find? fun s => s.code == b

end Syscall

end ByteMachine
