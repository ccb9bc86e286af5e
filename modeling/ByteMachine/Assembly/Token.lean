import ByteMachine.Text.Quoted

/-!
The tokens of a line of assembly text.
-/
namespace ByteMachine.Assembly

inductive Token where
  /-- A name followed by a colon. -/
  | label (name : String)
  /-- A name after a point. -/
  | directive (name : String)
  /-- Two hexadecimal digits after a question mark. -/
  | condition (byte : UInt8)
  /-- A mnemonic or the name of a label. -/
  | word (name : String)
  | number (value : Nat)
  /-- An ASCII character in single quotes. -/
  | character (byte : UInt8)
  /-- A text in double quotes. -/
  | text (value : String)
  | comma
  deriving DecidableEq, Repr

/-- A token as a message names it. -/
def Token.describe : Token → String
  | label name => "label `" ++ name ++ ":`"
  | directive name => "directive `." ++ name ++ "`"
  | condition byte => "prefix `?" ++ Numeral.hexByte byte ++ "`"
  | word name => "`" ++ name ++ "`"
  | number value => "number " ++ Numeral.decimal value
  | character byte => "character " ++ Text.quotedChar (Char.ofNat byte.toNat)
  | text value => "string " ++ Text.quoted value
  | comma => "`,`"

end ByteMachine.Assembly
