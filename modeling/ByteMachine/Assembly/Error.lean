import ByteMachine.Assembly.Token
import ByteMachine.Instruction.Opcode
import ByteMachine.Text.Blank

/-!
Why a line of assembly text is refused.
-/
namespace ByteMachine

open Assembly Numeral

inductive AssemblyError where
  /-- No token can be read where `rest` begins. -/
  | unreadable (rest : String)
  | notConditional (byte : UInt8)
  | notOperation (word : String)
  | notBody (found : Token)
  | strayPrefixes
  | emptyArgument
  | missingComma (next : Token)
  | notArgument (found : Token)
  | trailingComma
  | propertyShape
  | notPropertyValue (found : Token)
  | missingValue (name : String)
  | afterValue (found : Token) (name : String)
  | duplicateLabel (name : String) (line : Nat)
  | unknownDirective (name : String)
  | pageFull (page : Section) (size limit : Nat)
  | argumentCount (opcode : Opcode) (expected given : Nat)
  | notNumber (text : String)
  | undefinedLabel (name : String)
  | wrongPage (name : String) (actual wanted : Section)
  | tooWide (value : Nat) (width : Width)
  | takesNoArguments (directive : String)
  | needsArguments (directive : String)
  | needsTexts
  | needsLabels
  /-- A refusal in the words of whoever reports it. -/
  | reported (text : String)
  deriving DecidableEq, Repr

def AssemblyError.message : AssemblyError → String
  | unreadable rest =>
    "unexpected input `" ++ String.ofList (Text.trimEnd rest.toList) ++ "`"
  | notConditional byte => "?" ++ hexByte byte ++ " is not a conditional prefix"
  | notOperation word => word ++ " is not an operation"
  | notBody found => "expected an operation or directive, found " ++ found.describe
  | strayPrefixes => "conditional prefixes must precede an instruction"
  | emptyArgument => "missing argument before `,`"
  | missingComma next => "expected `,` before " ++ next.describe
  | notArgument found => found.describe ++ " is not an argument"
  | trailingComma => "trailing `,`"
  | propertyShape => "a property takes a name and a value"
  | notPropertyValue found => found.describe ++ " is not a property value"
  | missingValue name => "property `" ++ name ++ "` has no value"
  | afterValue found name =>
    "unexpected " ++ found.describe ++ " after the value of `" ++ name ++ "`"
  | duplicateLabel name line =>
    "label `" ++ name ++ "` is already defined on line " ++ decimal line
  | unknownDirective name => "unknown directive `." ++ name ++ "`"
  | pageFull page size limit =>
    "the " ++ page.name ++ " page is full: " ++ decimal size ++ " bytes is more than " ++
      decimal limit
  | argumentCount opcode expected given =>
    opcode.mnemonic ++ " requires " ++ decimal expected ++ " argument(s) but was given " ++
      decimal given
  | notNumber text => "expected a number, found " ++ Text.quoted text
  | undefinedLabel name => "undefined label `" ++ name ++ "`"
  | wrongPage name actual wanted =>
    "label `" ++ name ++ "` is in the " ++ actual.name ++ " page, not the " ++ wanted.name ++
      " page"
  | tooWide value width =>
    decimal value ++ " does not fit in " ++ decimal width.bytes ++ " byte(s)"
  | takesNoArguments directive => "`." ++ directive ++ "` takes no arguments"
  | needsArguments directive => "`." ++ directive ++ "` needs at least one argument"
  | needsTexts => "`.string` takes quoted strings"
  | needsLabels => "`.export` takes label names"
  | reported text => text

end ByteMachine
