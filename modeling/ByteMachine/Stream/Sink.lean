import ByteMachine.Error

/-!
Sinks, which keep what is written to them and may have room for only so many bytes.
-/
namespace ByteMachine

structure Sink where
  /-- What was written, last byte first. -/
  recent : List UInt8 := []
  /-- How many more bytes are taken, if there is a limit. -/
  room : Option Nat := none
  deriving DecidableEq, Repr

namespace Sink

def written (s : Sink) : List UInt8 :=
  s.recent.reverse

/-- Writes bytes, as many as there is room for. -/
def write (bytes : List UInt8) : Action Sink Unit := fun s =>
  match s.room with
  | none => .ok () { s with recent := bytes.reverseAux s.recent }
  | some room =>
    let after : Sink :=
      { recent := (bytes.take room).reverseAux s.recent, room := some (room - bytes.length) }
    if bytes.length ≤ room then .ok () after else .error (.io .writeFailed) after

end Sink

end ByteMachine
