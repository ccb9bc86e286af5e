import ByteMachine.Assembly.Layout
import ByteMachine.Instruction.Basic

/-!
What statements become: bytes of their page, and records of the export table.
-/
namespace ByteMachine.Assembly

/-- What one statement adds to a module. -/
structure Emitted where
  page : Section
  bytes : List UInt8
  exports : Table
  deriving DecidableEq, Repr

/-- What arguments are resolved with. -/
structure Scope where
  widths : Widths
  symbols : List (String × Symbol)
  deriving DecidableEq, Repr

namespace Scope

/-- The offset of a label, which has to be on the given page if there is one. -/
def offset (scope : Scope) (page : Option Section) (name : String) : Except AssemblyError Nat :=
  match scope.symbols.lookup name with
  | none => .error (.undefinedLabel name)
  | some symbol =>
    match page with
    | none => .ok symbol.offset
    | some wanted =>
      if symbol.page = wanted then .ok symbol.offset
      else .error (.wrongPage name symbol.page wanted)

/-- The number that an argument stands for. -/
def value (scope : Scope) (page : Option Section) : Argument → Except AssemblyError Nat
  | .number n => .ok n
  | .text t => .error (.notNumber t)
  | .label name => scope.offset page name

/-- An argument as a number of the given width. -/
def encode (scope : Scope) (page : Option Section) (width : Width) (a : Argument) :
    Except AssemblyError (List UInt8) := do
  let n ← scope.value page a
  if n ≤ width.maxValue then return LittleEndian.encode width.bytes n
  else throw (.tooWide n width)

/-- The page and the width of an opcode's operand, if it has one. -/
def operandForm (w : Widths) : Operand → Option (Option Section × Width)
  | .none => none
  | .immediateByte => some (none, .one)
  | .immediateWord => some (none, .two)
  | .codeAddress => some (some .code, w.code)
  | .dataAddress => some (some .data, w.data)

def operand (scope : Scope) (opcode : Opcode) (arguments : List Argument) :
    Except AssemblyError (List UInt8) :=
  match operandForm scope.widths opcode.operand, arguments with
  | none, [] => .ok []
  | some (page, width), [a] => scope.encode page width a
  | none, as => .error (.argumentCount opcode 0 as.length)
  | some _, as => .error (.argumentCount opcode 1 as.length)

def encodeAll (scope : Scope) (width : Width) (arguments : List Argument) :
    Except AssemblyError (List UInt8) := do
  return (← arguments.mapM (scope.encode none width)).flatten

end Scope

/-- A text and the zero byte that ends it. -/
def textBytes : Argument → Except AssemblyError (List UInt8)
  | .text t => .ok (Utf8.encode t ++ [0])
  | _ => .error .needsTexts

def Scope.exportRecord (scope : Scope) : Argument → Except AssemblyError Record
  | .label name => do return ⟨name, Numeral.decimal (← scope.offset (some .code) name)⟩
  | _ => .error .needsLabels

/-- Whether a directive can have these arguments: a switch has none, and the others need some. -/
def checkArguments (d : Directive) (arguments : List Argument) : Except AssemblyError Unit :=
  match d with
  | .code | .data =>
    if arguments.isEmpty then .ok () else .error (.takesNoArguments d.name)
  | .bytes | .words | .addresses | .texts | .exports =>
    if arguments.isEmpty then .error (.needsArguments d.name) else .ok ()
  | .unknown name => .error (.unknownDirective name)

def emitDirective (scope : Scope) (page : Section) (d : Directive) (arguments : List Argument) :
    Except AssemblyError Emitted := do
  checkArguments d arguments
  match d with
  | .bytes => return ⟨page, ← scope.encodeAll .one arguments, []⟩
  | .words => return ⟨page, ← scope.encodeAll .two arguments, []⟩
  | .addresses => return ⟨page, ← scope.encodeAll (scope.widths.of page) arguments, []⟩
  | .texts => return ⟨page, (← arguments.mapM textBytes).flatten, []⟩
  | .exports => return ⟨page, [], ← arguments.mapM scope.exportRecord⟩
  | .code | .data | .unknown _ => return ⟨page, [], []⟩

/-- What a placed statement becomes. -/
def emit (scope : Scope) (p : Placed) : Except AssemblyError Emitted :=
  match p.statement.body with
  | .blank | .property _ _ _ => .ok ⟨p.page, [], []⟩
  | .instruction opcode arguments => do
    let operand ← scope.operand opcode arguments
    return ⟨p.page, Instruction.encode ⟨p.statement.prefixes, opcode, operand⟩, []⟩
  | .directive d arguments => emitDirective scope p.page d arguments

def emitAll (scope : Scope) (placed : List Placed) : Except Error (List Emitted) :=
  placed.mapM fun p => onLine p.statement.line (emit scope p)

/-- The contents of a page. -/
def pageContents (page : Section) (emitted : List Emitted) : List UInt8 :=
  (emitted.filter fun e => e.page = page).flatMap Emitted.bytes

end ByteMachine.Assembly
