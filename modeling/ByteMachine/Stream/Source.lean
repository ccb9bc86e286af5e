import ByteMachine.Error

/-!
Sources of bytes. A source is the list of what reading it will meet: bytes, interruptions, or a
failure.
-/
namespace ByteMachine

/-- What an attempt to read a byte meets. -/
inductive ReadEvent where
  | byte (b : UInt8)
  /-- An attempt that came to nothing and is simply repeated. -/
  | interrupted
  /-- A failure of another kind, which every later attempt meets again. -/
  | failure (cause : IoError)
  deriving DecidableEq, Repr

/-- What is still to be read; behind the last event the stream ends. -/
abbrev Source := List ReadEvent

namespace Source

def ofBytes (bytes : List UInt8) : Source :=
  bytes.map .byte

/-- A source that fails where byte `k` would be read. -/
def failingAt (bytes : List UInt8) (k : Nat) (cause : IoError) : Source :=
  ofBytes (bytes.take k) ++ if k ≤ bytes.length then [.failure cause] else []

/-- A source whose every other attempt is interrupted. -/
def interrupting (s : Source) : Source :=
  s.flatMap fun e => [.interrupted, e]

/-- The number of bytes left. -/
def remaining (s : Source) : Nat :=
  s.countP fun e => e matches .byte _

/-- The next byte, or nothing at the end of the stream. -/
def readByte : Action Source (Option UInt8)
  | [] => .ok none []
  | .byte b :: s => .ok (some b) s
  | .interrupted :: s => readByte s
  | .failure cause :: s => .error (.io cause) (.failure cause :: s)

/-- Reads on to the next `stop` with the bytes in `seen` already read, last first. -/
def readUntilOnto (stop : UInt8) (seen : List UInt8) : Action Source (Option (List UInt8))
  | [] => .ok none []
  | .byte b :: s => if b = stop then .ok (some seen.reverse) s else readUntilOnto stop (b :: seen) s
  | .interrupted :: s => readUntilOnto stop seen s
  | .failure cause :: s => .error (.io cause) (.failure cause :: s)

/-- The bytes before the next `stop`, which is read too, or nothing if the stream ends first. -/
def readUntil (stop : UInt8) : Action Source (Option (List UInt8)) :=
  readUntilOnto stop []

/-- Reads so many more bytes with those in `seen` already read, last first. -/
def readBytesOnto (seen : List UInt8) : Nat → Action Source (Option (List UInt8))
  | 0, s => .ok (some seen.reverse) s
  | _ + 1, [] => .ok none []
  | n + 1, .byte b :: s => readBytesOnto (b :: seen) n s
  | n + 1, .interrupted :: s => readBytesOnto seen (n + 1) s
  | _ + 1, .failure cause :: s => .error (.io cause) (.failure cause :: s)

/-- The next `count` bytes, or nothing if the stream ends before them. -/
def readBytes (count : Nat) : Action Source (Option (List UInt8)) :=
  readBytesOnto [] count

end Source

end ByteMachine
