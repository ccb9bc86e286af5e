import ByteMachine.Error

/-!
Positions in a region of bytes. An address remembers the extent that it was checked against, and
how many bytes encode it.
-/
namespace ByteMachine

namespace Width

def ofNumber (value : Nat) : Except Error Width :=
  match ofNat? value with
  | some w => .ok w
  | none => .error (.config (.widthNumber value))

/-- The little-endian bytes of a number that fits. -/
def encode (w : Width) (value : Nat) : Except Error (List UInt8) :=
  if value ≤ w.maxValue then .ok (LittleEndian.encode w.bytes value)
  else .error (.address (.tooWide value w))

/-- The number in exactly as many bytes as the width says. -/
def decode (w : Width) (bytes : List UInt8) : Except Error Nat :=
  if bytes.length = w.bytes then .ok (LittleEndian.decode bytes)
  else .error (.address (.wrongLength w bytes.length))

end Width

structure Address where
  value : Nat
  width : Width
  /-- The length of the region; every position in it is smaller. -/
  maximum : Nat
  value_lt : value < maximum
  value_le : value ≤ width.maxValue
  deriving DecidableEq

namespace Address

def make (value : Nat) (width : Width) (maximum : Nat) : Except Error Address :=
  if fits : value ≤ width.maxValue then
    if inside : value < maximum then .ok ⟨value, width, maximum, inside, fits⟩
    else .error (.address (.outside value maximum))
  else .error (.address (.tooWideForAddress value width))

/-- The address that little-endian bytes encode. -/
def ofBytes (bytes : List UInt8) (width : Width) (maximum : Nat) : Except Error Address := do
  make (← width.decode bytes) width maximum

/-- The position `n` bytes further on in the same region. -/
def increment (a : Address) (n : Nat) : Except Error Address :=
  if a.value + n < Numeral.wordLimit then make (a.value + n) a.width a.maximum
  else .error (.address (.overflows a.value n))

/-- The same position in a region of another length. -/
def rebound (a : Address) (maximum : Nat) : Except Error Address :=
  make a.value a.width maximum

def bytes (a : Address) : List UInt8 :=
  LittleEndian.encode a.width.bytes a.value

def text (a : Address) : String :=
  a.width.hex a.value

/-- Addresses are ordered by position, then by width, then by the length of their region. -/
instance : Ord Address where
  compare a b :=
    (compare a.value b.value).then
      ((compare a.width.bytes b.width.bytes).then (compare a.maximum b.maximum))

end Address

end ByteMachine
