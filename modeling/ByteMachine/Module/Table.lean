import ByteMachine.Memory.Address
import ByteMachine.Text.Blank

/-!
Tables of named texts, in the order in which they were given. A name may stand in a table more
than once, and then the last one counts.
-/
namespace ByteMachine

structure Record where
  name : String
  value : String
  deriving DecidableEq, Repr

def Record.text (r : Record) : String :=
  r.name ++ "=" ++ r.value

abbrev Table := List Record

namespace Table

/-- The value of the last record of a name. -/
def get? (t : Table) (name : String) : Option String :=
  (t.filter fun r => r.name = name).getLast?.map Record.value

def push (t : Table) (name value : String) : Table :=
  t ++ [⟨name, value⟩]

/-- The address width that a page's properties ask for: one byte unless they say otherwise. -/
def width (t : Table) : Except Error Width :=
  match t.get? "address_width" with
  | none => .ok .one
  | some value =>
    match Numeral.readSigned 10 256 (Text.trim value.toList) with
    | some n => Width.ofNumber n
    | none => .error (.config (.widthText value))

theorem width_nil : width [] = .ok .one := rfl

theorem width_two : width [⟨"address_width", "2"⟩] = .ok .two := rfl

end Table

end ByteMachine
