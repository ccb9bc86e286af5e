import ByteMachine.Instruction.Opcode

/-!
Instructions: an opcode with the conditional prefixes before it and the operand after it, as bytes
and as a line of assembly text.
-/
namespace ByteMachine

/-- An instruction as it stands in the code page. -/
structure Instruction where
  prefixes : List UInt8
  opcode : Opcode
  /-- The operand's bytes. -/
  operand : List UInt8
  deriving DecidableEq, Repr

namespace Instruction

/-- The bytes of an instruction. -/
def encode (i : Instruction) : List UInt8 :=
  i.prefixes ++ i.opcode.code :: i.operand

/-- A prefix as an instruction's text shows it. -/
def prefixChars (b : UInt8) : List Char :=
  '?' :: Numeral.hexDigits b

def operandChars (kind : Operand) (bytes : List UInt8) : List Char :=
  match kind with
  | .none => []
  | .immediateByte | .immediateWord => ' ' :: (Numeral.decimal (LittleEndian.decode bytes)).toList
  | .codeAddress | .dataAddress => ' ' :: Numeral.hexAddress bytes

/-- An instruction as a line of assembly text. -/
def text (i : Instruction) : String :=
  String.ofList
    (i.prefixes.flatMap (fun b => prefixChars b ++ [' ']) ++ i.opcode.mnemonic.toList ++
      operandChars i.opcode.operand i.operand)

end Instruction

/-- Prefixes with one more byte, if that is a prefix too. -/
def addPrefix (prefixes : List UInt8) (b : UInt8) : Option (List UInt8) :=
  if isConditional b then some (prefixes ++ [b]) else none

/-- Conditional prefixes as a list for the eye. -/
def prefixesText (bytes : List UInt8) : String :=
  " ".intercalate (bytes.map fun b => String.ofList (Instruction.prefixChars b))

end ByteMachine
