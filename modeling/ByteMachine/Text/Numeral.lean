import ByteMachine.Text.Blank

/-!
Numbers as text. Digits are written most significant first; reading takes any number of leading
zeros and one `+` in front, and a reader that names a limit refuses every number at or above it.
-/
namespace ByteMachine.Numeral

/-- Numbers that a source text, an export or a count may hold lie below this. -/
def wordLimit : Nat := UInt64.size

/-- The digits of `n`, least significant last, in front of `tail`. The first argument bounds the
number of digits, and `n` itself is always enough. -/
def digitsOnto (base : Nat) : Nat → Nat → List Nat → List Nat
  | 0, n, tail => n :: tail
  | fuel + 1, n, tail =>
    if n < base then n :: tail else digitsOnto base fuel (n / base) (n % base :: tail)

def digits (base n : Nat) : List Nat :=
  digitsOnto base n n []

def upperDigit (d : Nat) : Char :=
  if d < 10 then Char.ofNat (0x30 + d) else Char.ofNat (0x41 + (d - 10))

def lowerDigit (d : Nat) : Char :=
  if d < 10 then Char.ofNat (0x30 + d) else Char.ofNat (0x61 + (d - 10))

def decimal (n : Nat) : String :=
  String.ofList ((digits 10 n).map upperDigit)

/-- Hexadecimal with lower-case letters and no leading zeros. -/
def hexadecimal (n : Nat) : String :=
  String.ofList ((digits 16 n).map lowerDigit)

/-- A byte as two upper-case hexadecimal digits. -/
def hexDigits (b : UInt8) : List Char :=
  [upperDigit (b.toNat / 16), upperDigit (b.toNat % 16)]

def hexByte (b : UInt8) : String :=
  String.ofList (hexDigits b)

/-- The number that little-endian bytes hold, two upper-case digits a byte. -/
def hexAddress (bytes : List UInt8) : List Char :=
  '0' :: 'x' :: bytes.reverse.flatMap hexDigits

/-- The value of a digit of any base up to sixteen, in either case. -/
def digitValue (c : Char) : Option Nat :=
  if '0' ≤ c ∧ c ≤ '9' then some (c.toNat - 0x30)
  else if 'A' ≤ c ∧ c ≤ 'F' then some (c.toNat - 0x41 + 10)
  else if 'a' ≤ c ∧ c ≤ 'f' then some (c.toNat - 0x61 + 10)
  else none

def isDigitOf (base : Nat) (c : Char) : Bool :=
  match digitValue c with
  | some d => d < base
  | none => false

/-- The number that digits spell when they follow those of `n`. -/
def valueFrom (base n : Nat) (cs : List Char) : Nat :=
  cs.foldl (fun n c => n * base + (digitValue c).getD 0) n

/-- The number that a list of digits spells. -/
def valueOf (base : Nat) (cs : List Char) : Nat :=
  valueFrom base 0 cs

/-- Reads digits that follow those of `n`, and gives up as soon as the number reaches `limit`. -/
def readFrom (base limit n : Nat) : List Char → Option Nat
  | [] => some n
  | c :: cs =>
    let next := n * base + (digitValue c).getD 0
    if isDigitOf base c && next < limit then readFrom base limit next cs else none

/-- Reads one or more digits and nothing else; the number has to lie below `limit`. -/
def readDigits (base limit : Nat) (cs : List Char) : Option Nat :=
  if cs.isEmpty then none else readFrom base limit 0 cs

theorem le_valueFrom {base : Nat} (hb : 0 < base) (n : Nat) (cs : List Char) :
    n ≤ valueFrom base n cs := by
  induction cs generalizing n with
  | nil => simp [valueFrom]
  | cons c cs ih =>
    calc n ≤ n * base := Nat.le_mul_of_pos_right n hb
      _ ≤ n * base + (digitValue c).getD 0 := Nat.le_add_right _ _
      _ ≤ valueFrom base n (c :: cs) := ih _

/-- Giving up early is right, since more digits never make a number smaller. -/
theorem readFrom_eq {base limit n : Nat} (hb : 0 < base) (hn : n < limit) (cs : List Char) :
    readFrom base limit n cs =
      if cs.all (isDigitOf base) && valueFrom base n cs < limit then some (valueFrom base n cs)
      else none := by
  induction cs generalizing n with
  | nil => simp [readFrom, valueFrom, hn]
  | cons c cs ih =>
    have hv : valueFrom base n (c :: cs) =
        valueFrom base (n * base + (digitValue c).getD 0) cs := rfl
    have hle := le_valueFrom hb (n * base + (digitValue c).getD 0) cs
    rw [hv]
    by_cases hnext : n * base + (digitValue c).getD 0 < limit
    · by_cases hd : isDigitOf base c <;> simp [readFrom, hd, hnext, ih hnext]
    · have hbig : ¬ valueFrom base (n * base + (digitValue c).getD 0) cs < limit := by omega
      simp [readFrom, hnext, hbig]

/-- Reads digits with an optional `+` in front. -/
def readSigned (base limit : Nat) : List Char → Option Nat
  | '+' :: cs => readDigits base limit cs
  | cs => readDigits base limit cs

/-- What follows a leading `0x` or `0X`. -/
def afterHexMark : List Char → Option (List Char)
  | '0' :: 'x' :: cs => some cs
  | '0' :: 'X' :: cs => some cs
  | _ => none

/-- Reads a number as a table holds it: decimal, or hexadecimal after `0x`, with white space
around it. -/
def readWord (text : String) : Option Nat :=
  let cs := Text.trim text.toList
  match afterHexMark cs with
  | some hex => readSigned 16 wordLimit hex
  | none => readSigned 10 wordLimit cs

end ByteMachine.Numeral
