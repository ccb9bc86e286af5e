import ByteMachine.Module.Table
import ByteMachine.Stream.Sink
import ByteMachine.Stream.Source

/-!
How texts, blocks of bytes and tables are framed in a stream.

* A text is its UTF-8 bytes and a zero byte.
* A block is its name, the number of its bytes, the bytes, and the number again.
* A table is its name, `stx`, the records and `etx`; a record is its name, `fs`, its value and `rs`.

Writing refuses what would not read back. Reading is more lenient: a piece of a table that is not
a name and a value is passed over.
-/
namespace ByteMachine.Framing

def nul : UInt8 := 0x00
def stx : UInt8 := 0x02
def etx : UInt8 := 0x03
def fs : UInt8 := 0x1C
def rs : UInt8 := 0x1E

/-- The bytes that frame a table, which no field may hold. -/
def isControl (b : UInt8) : Bool :=
  b == nul || b == stx || b == etx || b == fs || b == rs

/-! ## Texts -/

def writeText (text : String) : Action Sink Unit := do
  if (Utf8.encode text).contains nul then throw (.format (.containsNul text))
  Sink.write (Utf8.encode text ++ [nul])

def readText : Action Source String := do
  match ← Source.readUntil nul with
  | none => throw (.format .unterminated)
  | some bytes =>
    match Utf8.decode bytes with
    | .ok text => return text
    | .error defect => throw (.notText defect)

/-- Reads a name and checks that it is the one expected here. -/
def readHeader (expected : String) : Action Source Unit := do
  match ← Source.readUntil nul with
  | none => throw (.format (.headerUnterminated expected))
  | some bytes =>
    match Utf8.decode bytes with
    | .error defect => throw (.format (.headerNotText expected defect))
    | .ok found => if found ≠ expected then throw (.format (.wrongHeader expected found))

/-! ## Blocks -/

def writeBlock (name : String) (width : Width) (bytes : List UInt8) : Action Sink Unit := do
  if width.maxValue < bytes.length then throw (.config (.blockTooLong name bytes.length width))
  let count := LittleEndian.encode width.bytes bytes.length
  writeText name
  Sink.write (count ++ bytes ++ count)

/-- Inside a block a source's own report that its data end is as good as their end. -/
def endedInside (name : String) : Error → Error
  | .io (.unexpectedEnd _) => .format (.endInside name)
  | e => e

/-- Reads bytes of a block, all of which have to be there. -/
def readPart (name : String) (count : Nat) : Action Source (List UInt8) := do
  match ← (Source.readBytes count).adaptExcept (endedInside name) with
  | some bytes => return bytes
  | none => throw (.format (.endInside name))

def readBlock (name : String) (width : Width) : Action Source (List UInt8) := do
  readHeader name
  let count := LittleEndian.decode (← readPart name width.bytes)
  let contents ← readPart name count
  let again := LittleEndian.decode (← readPart name width.bytes)
  if again ≠ count then throw (.format .countMismatch)
  return contents

/-! ## Tables -/

def checkField (field : String) : Except Error Unit :=
  match (Utf8.encode field).find? isControl with
  | some b => .error (.format (.controlByte field b))
  | none => .ok ()

def writeRecord (r : Record) : Action Sink Unit := do
  Action.ofExcept (checkField r.name)
  Action.ofExcept (checkField r.value)
  Sink.write (Utf8.encode r.name ++ fs :: Utf8.encode r.value ++ [rs])

def writeTable (name : String) (t : Table) : Action Sink Unit := do
  writeText name
  Sink.write [stx]
  t.forM writeRecord
  Sink.write [etx]

/-- The pieces between separators, the first of which begins with `begun`, last byte first. -/
def splitOnto (separator : UInt8) (begun : List UInt8) : List UInt8 → List (List UInt8)
  | [] => [begun.reverse]
  | b :: bytes =>
    if b = separator then begun.reverse :: splitOnto separator [] bytes
    else splitOnto separator (b :: begun) bytes

/-- The pieces between separators, of which there is one more than there are separators. -/
def split (separator : UInt8) (bytes : List UInt8) : List (List UInt8) :=
  splitOnto separator [] bytes

/-- The two fields of a piece, if it holds exactly one separator. -/
def fields? (piece : List UInt8) : Option (List UInt8 × List UInt8) :=
  match split fs piece with
  | [name, value] => some (name, value)
  | _ => none

def decodeField (table : String) (bytes : List UInt8) : Except Error String :=
  match Utf8.decode bytes with
  | .ok text => .ok text
  | .error defect => .error (.format (.fieldNotText table defect))

def decodeRecord (table : String) (fields : List UInt8 × List UInt8) : Except Error Record := do
  return ⟨← decodeField table fields.1, ← decodeField table fields.2⟩

/-- The records in what stands between `stx` and `etx`. -/
def decodeBody (table : String) (body : List UInt8) : Except Error Table :=
  ((split rs body).filterMap fields?).mapM (decodeRecord table)

def readTable (name : String) : Action Source Table := do
  readHeader name
  match ← Source.readByte with
  | none => throw (.format (.missingTableStart name))
  | some b => if b ≠ stx then throw (.format (.wrongTableStart name b))
  match ← Source.readUntil etx with
  | none => throw (.format (.missingTableEnd name))
  | some body => Action.ofExcept (decodeBody name body)

end ByteMachine.Framing
