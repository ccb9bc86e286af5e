import ByteMachine.Memory.LittleEndian
import ByteMachine.Text.Numeral

/-!
The two pages of a program and the number of bytes that an address into one of them takes.
-/
namespace ByteMachine

/-- A page that a program fills: instructions, or what they point at. -/
inductive Section where
  | code
  | data
  deriving DecidableEq, Repr

def Section.name : Section → String
  | .code => "code"
  | .data => "data"

/-- The number of bytes of an encoded address, and of the counts around a page's contents. -/
inductive Width where
  | one
  | two
  deriving DecidableEq, Repr

namespace Width

def bytes : Width → Nat
  | one => 1
  | two => 2

/-- The largest number that fits. -/
def maxValue : Width → Nat
  | one => 0xFF
  | two => 0xFFFF

def ofNat? : Nat → Option Width
  | 1 => some one
  | 2 => some two
  | _ => none

/-- A number as an address of this width, in hexadecimal with all its digits. -/
def hex (w : Width) (value : Nat) : String :=
  String.ofList (Numeral.hexAddress (LittleEndian.encode w.bytes value))

theorem lt_iff_le_maxValue (w : Width) (n : Nat) :
    n < LittleEndian.limit w.bytes ↔ n ≤ w.maxValue := by
  cases w <;> simp only [bytes, maxValue, LittleEndian.limit] <;> omega

end Width

end ByteMachine
