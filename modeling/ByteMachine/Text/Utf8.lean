import ByteMachine.Text.Numeral

/-!
UTF-8. `encode` writes a text as bytes. `decode` reads bytes back, one at a time, and says where
the first bad sequence begins and how many of its bytes could have started a character.
-/
namespace ByteMachine.Utf8

def encodeChar (c : Char) : List UInt8 :=
  let n := c.toNat
  if n < 0x80 then [UInt8.ofNat n]
  else if n < 0x800 then [UInt8.ofNat (0xC0 + n / 0x40), UInt8.ofNat (0x80 + n % 0x40)]
  else if n < 0x10000 then
    [UInt8.ofNat (0xE0 + n / 0x1000), UInt8.ofNat (0x80 + n / 0x40 % 0x40),
     UInt8.ofNat (0x80 + n % 0x40)]
  else
    [UInt8.ofNat (0xF0 + n / 0x40000), UInt8.ofNat (0x80 + n / 0x1000 % 0x40),
     UInt8.ofNat (0x80 + n / 0x40 % 0x40), UInt8.ofNat (0x80 + n % 0x40)]

def encode (text : String) : List UInt8 :=
  text.toList.flatMap encodeChar

/-- Why bytes are not a text. -/
structure Defect where
  /-- How many bytes before the bad sequence are a text. -/
  validUpTo : Nat
  /-- The length of the bad sequence, or nothing if the bytes end inside a good one. -/
  length : Option Nat
  deriving DecidableEq, Repr

def Defect.message (d : Defect) : String :=
  let index := Numeral.decimal d.validUpTo
  match d.length.map Numeral.decimal with
  | some n => s!"invalid utf-8 sequence of {n} bytes from index {index}"
  | none => s!"incomplete utf-8 byte sequence from index {index}"

/-- A sequence of which some bytes have been read. -/
structure Pending where
  /-- The bits collected so far. -/
  value : Nat
  /-- Bytes read. -/
  seen : Nat
  /-- Bytes still to come. -/
  missing : Nat
  /-- Least and greatest value of the next byte. -/
  low : Nat := 0x80
  high : Nat := 0xBF
  deriving DecidableEq, Repr

/-- What a first byte announces. The second byte after `E0`, `ED`, `F0` and `F4` is restricted, so
that no character has a longer form, is a surrogate, or lies above `10FFFF`. -/
def start (b : Nat) : Option Pending :=
  if b < 0x80 then some { value := b, seen := 1, missing := 0 }
  else if b < 0xC2 then none
  else if b < 0xE0 then some { value := b - 0xC0, seen := 1, missing := 1 }
  else if b = 0xE0 then some { value := 0, seen := 1, missing := 2, low := 0xA0 }
  else if b = 0xED then some { value := 0xD, seen := 1, missing := 2, high := 0x9F }
  else if b < 0xF0 then some { value := b - 0xE0, seen := 1, missing := 2 }
  else if b = 0xF0 then some { value := 0, seen := 1, missing := 3, low := 0x90 }
  else if b < 0xF4 then some { value := b - 0xF0, seen := 1, missing := 3 }
  else if b = 0xF4 then some { value := 4, seen := 1, missing := 3, high := 0x8F }
  else none

/-- The sequence with one more byte. -/
def Pending.extend (p : Pending) (b : Nat) : Pending :=
  { value := p.value * 0x40 + b % 0x40, seen := p.seen + 1, missing := p.missing - 1 }

/-- Reads on with `done` bytes decoded to `chars`, last character first, and perhaps a sequence
begun. -/
def decodeFrom (done : Nat) (chars : List Char) : Option Pending → List UInt8 →
    Except Defect (List Char)
  | none, [] => .ok chars.reverse
  | some _, [] => .error ⟨done, none⟩
  | none, b :: bytes =>
    match start b.toNat with
    | none => .error ⟨done, some 1⟩
    | some p =>
      if p.missing = 0 then decodeFrom (done + 1) (Char.ofNat p.value :: chars) none bytes
      else decodeFrom done chars (some p) bytes
  | some p, b :: bytes =>
    if p.low ≤ b.toNat ∧ b.toNat ≤ p.high then
      let q := p.extend b.toNat
      if q.missing = 0 then decodeFrom (done + q.seen) (Char.ofNat q.value :: chars) none bytes
      else decodeFrom done chars (some q) bytes
    else .error ⟨done, some p.seen⟩

def decode (bytes : List UInt8) : Except Defect String :=
  (decodeFrom 0 [] none bytes).map String.ofList

end ByteMachine.Utf8
