import ByteMachine.Text.Grid
import ByteMachine.Machine.Processor

/-!
What a processor and its value stack look like: tables of the registers and of the stack, alone and
side by side.
-/
namespace ByteMachine

namespace Processor

/-- The last completed instruction, with its address. -/
def lastText (p : Processor) : Option String :=
  p.last.map fun (address, instruction) => address.text ++ ": " ++ instruction.text

def registers (p : Processor) : Grid :=
  { columns := [⟨"Register", .right⟩, ⟨"Contents", .left⟩]
    rows :=
      [[["PC ="], [p.pc.text]],
       [["State ="], [p.state.text]],
       [["Steps ="], [Numeral.decimal p.steps]],
       [["Last ="], [p.lastText.getD "-"]]] }

end Processor

namespace ValueStack

/-- A byte, with the character that it stands for if that leaves a mark. -/
def byteText (b : UInt8) : String :=
  "0x" ++ Numeral.hexByte b ++
    if 0x21 ≤ b ∧ b ≤ 0x7E then String.ofList [' ', '\'', Char.ofNat b.toNat, '\''] else ""

/-- One row for each byte, top first. -/
def slots (s : ValueStack) : Grid :=
  let length := s.length
  { columns := [⟨"Slot", .right⟩, ⟨"Contents", .left⟩]
    rows := s.bytes.zipIdx.reverse.map fun (b, i) =>
      let arrow := if i + 1 = length then "* --> " else ""
      [[arrow ++ "S[" ++ Numeral.decimal i ++ "] ="], [byteText b]] }

end ValueStack

/-- The registers of a processor beside its value stack. -/
def Processor.stateTable (p : Processor) (s : ValueStack) : String :=
  Grid.text
    { columns := [⟨"Processor", .left⟩, ⟨"Value Stack", .left⟩]
      rows := [[p.registers.lines, s.slots.lines]] }

end ByteMachine
