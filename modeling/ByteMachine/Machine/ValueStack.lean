import ByteMachine.Error

/-!
The value stack, which carries arguments from a program to its host. A text is pushed as its bytes
and then their number, so that the number is on top when the text is popped.
-/
namespace ByteMachine

structure ValueStack where
  /-- The contents, top first. -/
  items : List UInt8
  /-- How many more bytes fit. -/
  room : Nat
  deriving DecidableEq, Repr

namespace ValueStack

def defaultCapacity : Nat := 256

def empty (capacity : Nat) : ValueStack :=
  ⟨[], capacity⟩

/-- The contents, bottom first. -/
def bytes (s : ValueStack) : List UInt8 :=
  s.items.reverse

def length (s : ValueStack) : Nat :=
  s.items.length

/-- How many bytes fit in all. -/
def capacity (s : ValueStack) : Nat :=
  s.length + s.room

def clear (s : ValueStack) : ValueStack :=
  empty s.capacity

/-- The bytes that a text takes on the stack. -/
def frame (text : String) : List UInt8 :=
  Utf8.encode text ++ [UInt8.ofNat (Utf8.encode text).length]

/-- Pushes bytes, the last of them on top, or nothing if they do not all fit. -/
def pushBytes (bytes : List UInt8) : Action ValueStack Unit := fun s =>
  if bytes.length ≤ s.room then .ok () ⟨bytes.reverse ++ s.items, s.room - bytes.length⟩
  else .error (.overflow (.full bytes.length s.length s.capacity)) s

def pushByte (b : UInt8) : Action ValueStack Unit :=
  pushBytes [b]

def pushText (text : String) : Action ValueStack Unit := fun s =>
  let length := (Utf8.encode text).length
  if length ≤ 255 then pushBytes (frame text) s
  else .error (.overflow (.longText length)) s

/-- Pops `n` bytes, given in the order in which they were pushed. -/
def popBytes (n : Nat) : Action ValueStack (List UInt8) := fun s =>
  let popped := s.items.take n
  if popped.length = n then .ok popped.reverse ⟨s.items.drop n, s.room + n⟩
  else .error (.underflow n s.length) s

def popByte : Action ValueStack UInt8 := fun s =>
  match s.items with
  | b :: rest => .ok b ⟨rest, s.room + 1⟩
  | [] => .error (.underflow 1 0) s

/-- Pops a text; nothing is popped unless its bytes are all there and are UTF-8. -/
def popText : Action ValueStack String := fun s =>
  match s.items with
  | [] => .error (.underflow 1 0) s
  | b :: rest =>
    let n := b.toNat
    let popped := rest.take n
    if popped.length = n then
      match Utf8.decode popped.reverse with
      | .ok text => .ok text ⟨rest.drop n, s.room + (n + 1)⟩
      | .error defect => .error (.notText defect) s
    else .error (.underflow (n + 1) s.length) s

def text (s : ValueStack) : String :=
  "[" ++ " ".intercalate (s.bytes.map Numeral.hexByte) ++ "]"

/-- What is pushed is appended to the contents, and the capacity stays. -/
theorem pushBytes_of_le {s : ValueStack} {bytes : List UInt8} (h : bytes.length ≤ s.room) :
    ∃ t, pushBytes bytes s = .ok () t ∧ t.bytes = s.bytes ++ bytes ∧ t.capacity = s.capacity := by
  refine ⟨⟨bytes.reverse ++ s.items, s.room - bytes.length⟩, by simp [pushBytes, h], ?_, ?_⟩
  · simp [ValueStack.bytes]
  · simp only [capacity, length, List.length_append, List.length_reverse]
    omega

end ValueStack

end ByteMachine
