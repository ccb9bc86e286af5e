import ByteMachine.Memory.Bytes
import ByteMachine.Module.Table

/-!
Pages: the code and the data of a program. The properties of a page say how wide its addresses are,
and a page holds no more bytes than such an address can count.
-/
namespace ByteMachine

structure Page (s : Section) where
  properties : Table
  memory : Bytes
  width : Width
  width_eq : properties.width = .ok width
  size_le : memory.size ≤ width.maxValue
  deriving DecidableEq

abbrev CodePage := Page .code

abbrev DataPage := Page .data

namespace Page

variable {s : Section}

def contents (p : Page s) : List UInt8 :=
  p.memory.toList

def length (p : Page s) : Nat :=
  p.memory.size

/-- No bytes at all fit into any page. -/
theorem size_empty_le (w : Width) : (#[] : Bytes).size ≤ w.maxValue :=
  Nat.zero_le _

theorem length_contents (p : Page s) : p.contents.length = p.length := by
  simp [contents, length]

def make (s : Section) (properties : Table) (contents : List UInt8) : Except Error (Page s) :=
  match h : properties.width with
  | .error e => .error e
  | .ok width =>
    let memory := contents.toArray
    if fits : memory.size ≤ width.maxValue then .ok ⟨properties, memory, width, h, fits⟩
    else .error (.config (.pageTooLong width memory.size))

/-- The address of a byte of the page. -/
def address (p : Page s) (value : Nat) : Except Error Address :=
  Address.make value p.width p.length

def byte (p : Page s) (index : Nat) : Except Error UInt8 :=
  match p.memory[index]? with
  | some b => .ok b
  | none => .error (.address (.byteOutside index p.length))

def byteAt (p : Page s) (a : Address) : Except Error UInt8 :=
  p.byte a.value

def checkRange (p : Page s) (start count : Nat) : Except Error Unit :=
  if start + count ≤ p.length then .ok ()
  else .error (.address (.bytesOutside count start p.length))

/-- The `count` bytes from `start` on. -/
def slice (p : Page s) (start count : Nat) : Except Error (List UInt8) := do
  p.checkRange start count
  return p.memory.range start count

/-- The address that stands in the page at `start` and points into a region of length
`maximum`. -/
def addressAt (p : Page s) (start : Nat) (width : Width) (maximum : Nat) :
    Except Error Address := do
  Address.ofBytes (← p.slice start width.bytes) width maximum

end Page

end ByteMachine
