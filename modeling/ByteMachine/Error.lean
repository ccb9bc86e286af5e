import ByteMachine.Assembly.Error
import ByteMachine.Text.Utf8

/-!
Everything that can go wrong, as causes with one wording each, and the computations that can fail.
-/
namespace ByteMachine

open Numeral

/-- A module file whose framing is wrong, or a text that cannot be framed. -/
inductive FormatError where
  | containsNul (text : String)
  | controlByte (field : String) (byte : UInt8)
  | unterminated
  | headerUnterminated (expected : String)
  | headerNotText (expected : String) (defect : Utf8.Defect)
  | wrongHeader (expected found : String)
  | endInside (block : String)
  | countMismatch
  | wrongTableStart (table : String) (found : UInt8)
  | missingTableStart (table : String)
  | missingTableEnd (table : String)
  | fieldNotText (table : String) (defect : Utf8.Defect)
  | malformedExport (symbol value : String)
  | reported (text : String)
  deriving DecidableEq, Repr

/-- A property that asks for the impossible, or contents that do not fit what it asks for. -/
inductive ConfigError where
  | widthNumber (value : Nat)
  | widthText (value : String)
  | pageTooLong (width : Width) (length : Nat)
  | blockTooLong (name : String) (length : Nat) (width : Width)
  | reported (text : String)
  deriving DecidableEq, Repr

/-- A position outside its region, or too few bytes to hold one. -/
inductive AddressError where
  | tooWide (value : Nat) (width : Width)
  | wrongLength (width : Width) (found : Nat)
  | tooWideForAddress (value : Nat) (width : Width)
  | outside (value maximum : Nat)
  | overflows (value increment : Nat)
  | byteOutside (index length : Nat)
  | bytesOutside (count start length : Nat)
  | unterminated (value : Nat) (width : Width)
  | reported (text : String)
  deriving DecidableEq, Repr

inductive OverflowError where
  | full (needed length capacity : Nat)
  | longText (length : Nat)
  | reported (text : String)
  deriving DecidableEq, Repr

/-- A failure of the world outside. -/
inductive IoError where
  | writeFailed
  | notFound
  | notDirectory
  | isDirectory
  | nameTooLong
  | notText
  /-- A source's own report that its data end too early. -/
  | unexpectedEnd (text : String)
  /-- A failure of any other kind, in the words of what failed. -/
  | reported (text : String)
  deriving DecidableEq, Repr

inductive Error where
  | format (cause : FormatError)
  | config (cause : ConfigError)
  | address (cause : AddressError)
  | invalidOpcode (byte : UInt8) (position : Nat)
  | underflow (needed available : Nat)
  | overflow (cause : OverflowError)
  | unknownCall (name : String)
  /-- A step was asked of a processor that has stopped. -/
  | notRunning (state : String)
  | stepLimit (limit : Nat)
  | missingStart (symbol : String)
  | assembly (line : Nat) (cause : AssemblyError)
  | notText (defect : Utf8.Defect)
  | io (cause : IoError)
  deriving DecidableEq, Repr

def Utf8.Defect.report (defect : Utf8.Defect) : String :=
  "invalid UTF-8 text: " ++ defect.message

def FormatError.message : FormatError → String
  | containsNul text => "string " ++ Text.quoted text ++ " contains a NUL byte"
  | controlByte field byte =>
    "table field " ++ Text.quoted field ++ " contains control byte 0x" ++ hexByte byte
  | unterminated => "unterminated string"
  | headerUnterminated expected =>
    "expected section `" ++ expected ++ "`: format error: unterminated string"
  | headerNotText expected defect => "expected section `" ++ expected ++ "`: " ++ defect.report
  | wrongHeader expected found => "expected section `" ++ expected ++ "`, found `" ++ found ++ "`"
  | endInside block => "unexpected end of file in " ++ block
  | countMismatch => "Block count error"
  | wrongTableStart table found =>
    "table `" ++ table ++ "`: expected STX, found 0x" ++ hexByte found
  | missingTableStart table => "table `" ++ table ++ "`: missing STX"
  | missingTableEnd table => "table `" ++ table ++ "`: missing ETX"
  | fieldNotText table defect =>
    "table `" ++ table ++ "`: field is not UTF-8: " ++ defect.message
  | malformedExport symbol value =>
    "export `" ++ symbol ++ "` has a malformed address " ++ Text.quoted value
  | reported text => text

def ConfigError.message : ConfigError → String
  | widthNumber value => "address width must be 1 or 2, not " ++ decimal value
  | widthText value => "address_width must be 1 or 2, not " ++ Text.quoted value
  | pageTooLong width length =>
    "a page with " ++ decimal width.bytes ++ " byte addresses holds at most " ++
      decimal width.maxValue ++ " bytes, not " ++ decimal length
  | blockTooLong name length width =>
    "block `" ++ name ++ "` holds " ++ decimal length ++ " bytes, more than a " ++
      decimal width.bytes ++ " byte count can express"
  | reported text => text

def AddressError.message : AddressError → String
  | tooWide value width =>
    decimal value ++ " does not fit in " ++ decimal width.bytes ++ " byte(s)"
  | wrongLength width found =>
    "expected " ++ decimal width.bytes ++ " byte(s) of address, found " ++ decimal found
  | tooWideForAddress value width =>
    decimal value ++ " does not fit in a " ++ decimal width.bytes ++ " byte address"
  | outside value maximum =>
    decimal value ++ " is outside a region of " ++ decimal maximum ++ " byte(s)"
  | overflows value increment => decimal value ++ " + " ++ decimal increment ++ " overflows"
  | byteOutside index length =>
    "byte " ++ decimal index ++ " is outside a page of " ++ decimal length ++ " byte(s)"
  | bytesOutside count start length =>
    decimal count ++ " byte(s) at " ++ decimal start ++ " run past the end of a page of " ++
      decimal length ++ " byte(s)"
  | unterminated value width => "string at " ++ width.hex value ++ " has no terminator"
  | reported text => text

def OverflowError.message : OverflowError → String
  | full needed length capacity =>
    decimal needed ++ " byte(s) pushed onto " ++ decimal length ++ " of " ++ decimal capacity
  | longText length =>
    "a string of " ++ decimal length ++ " bytes is longer than the 255 a frame can hold"
  | reported text => text

def IoError.message : IoError → String
  | writeFailed => "failed to write whole buffer"
  | notFound => "No such file or directory (os error 2)"
  | notDirectory => "Not a directory (os error 20)"
  | isDirectory => "Is a directory (os error 21)"
  | nameTooLong => "File name too long (os error 36)"
  | notText => "stream did not contain valid UTF-8"
  | unexpectedEnd text => text
  | reported text => text

def Error.message : Error → String
  | format cause => "format error: " ++ cause.message
  | config cause => "configuration error: " ++ cause.message
  | address cause => "address error: " ++ cause.message
  | invalidOpcode byte position =>
    "invalid opcode 0x" ++ hexByte byte ++ " at pc " ++ decimal position
  | underflow needed available =>
    "value stack underflow: needed " ++ decimal needed ++ " byte(s), " ++ decimal available ++
      " available"
  | overflow cause => "value stack overflow: " ++ cause.message
  | unknownCall name => "unknown kernel call `" ++ name ++ "`"
  | notRunning state => "processor is not running (" ++ state ++ ")"
  | stepLimit limit => "step limit of " ++ decimal limit ++ " instructions reached"
  | missingStart symbol => "start symbol `" ++ symbol ++ "` is not exported by the module"
  | assembly line cause => "line " ++ decimal line ++ ": " ++ cause.message
  | notText defect => defect.report
  | io cause => cause.message

/-- A computation on a state, which keeps the state it reached when it fails. -/
abbrev Action (σ α : Type) := EStateM Error σ α

/-- A computation that may fail and changes no state, as a step of one that does. -/
@[inline]
def Action.ofExcept {σ α : Type} (r : Except Error α) : Action σ α := fun s =>
  match r with
  | .ok a => .ok a s
  | .error e => .error e s

end ByteMachine
