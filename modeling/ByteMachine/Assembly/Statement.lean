import ByteMachine.Assembly.Scanner
import ByteMachine.Error
import ByteMachine.Text.Lines

/-!
Statements, one for each line: an optional label, conditional prefixes, and a body. The body is an
instruction, a directive, or a property of a page or of the whole program.
-/
namespace ByteMachine.Assembly

inductive Argument where
  | number (value : Nat)
  | label (name : String)
  | text (value : String)
  deriving DecidableEq, Repr

inductive Directive where
  | code
  | data
  | bytes
  | words
  | addresses
  | texts
  | exports
  | unknown (name : String)
  deriving DecidableEq, Repr

/-- What a property belongs to. -/
inductive Owner where
  | page
  | program
  deriving DecidableEq, Repr

inductive Body where
  | blank
  | instruction (opcode : Opcode) (arguments : List Argument)
  | directive (directive : Directive) (arguments : List Argument)
  | property (owner : Owner) (name : String) (value : Argument)
  deriving DecidableEq, Repr

structure Statement where
  line : Nat
  label : Option String
  prefixes : List UInt8
  body : Body
  deriving DecidableEq, Repr

def Directive.ofName (name : String) : Directive :=
  match name with
  | "code" => code
  | "data" => data
  | "byte" => bytes
  | "word" => words
  | "addr" => addresses
  | "string" => texts
  | "export" => exports
  | _ => unknown name

def Directive.name : Directive → String
  | code => "code"
  | data => "data"
  | bytes => "byte"
  | words => "word"
  | addresses => "addr"
  | texts => "string"
  | exports => "export"
  | unknown name => name

/-- The value of a property as a table holds it. -/
def Argument.value : Argument → String
  | number n => Numeral.decimal n
  | label name => name
  | text t => t

def Token.argument? : Token → Option Argument
  | number n => some (.number n)
  | character b => some (.number b.toNat)
  | text t => some (.text t)
  | word name => some (.label name)
  | label _ | directive _ | condition _ | comma => none

def parseArgument (t : Token) : Except AssemblyError Argument :=
  match t.argument? with
  | some a => .ok a
  | none => .error (if t = .comma then .emptyArgument else .notArgument t)

/-- One or more arguments with commas between them. -/
def parseArgumentList : List Token → Except AssemblyError (List Argument)
  | [] => .error .trailingComma
  | [t] => do return [← parseArgument t]
  | t :: .comma :: ts => do
    let a ← parseArgument t
    return a :: (← parseArgumentList ts)
  | t :: u :: _ => do
    let _ ← parseArgument t
    throw (.missingComma u)

def parseArguments : List Token → Except AssemblyError (List Argument)
  | [] => .ok []
  | ts => parseArgumentList ts

/-- A name and a value with nothing between them. -/
def parseProperty (owner : Owner) : List Token → Except AssemblyError Body
  | [.word name] => .error (.missingValue name)
  | .word name :: t :: ts =>
    match t.argument? with
    | none => .error (.notPropertyValue t)
    | some value =>
      match ts with
      | [] => .ok (.property owner name value)
      | u :: _ => .error (.afterValue u name)
  | _ => .error .propertyShape

def parseBody : List Token → Except AssemblyError Body
  | [] => .ok .blank
  | .word name :: ts =>
    match Opcode.ofMnemonic? (String.ofList (name.toList.map Char.toUpper)) with
    | none => .error (.notOperation name)
    | some opcode => do return .instruction opcode (← parseArguments ts)
  | .directive name :: ts =>
    if name = "property" then parseProperty .page ts
    else if name = "module" then parseProperty .program ts
    else do return .directive (Directive.ofName name) (← parseArguments ts)
  | t :: _ => .error (.notBody t)

def parsePrefixes : List Token → Except AssemblyError (List UInt8 × List Token)
  | .condition b :: ts =>
    if isConditional b then do
      let (bs, rest) ← parsePrefixes ts
      return (b :: bs, rest)
    else .error (.notConditional b)
  | ts => .ok ([], ts)

def splitLabel : List Token → Option String × List Token
  | .label name :: ts => (some name, ts)
  | ts => (none, ts)

def Body.isInstruction : Body → Bool
  | instruction _ _ => true
  | _ => false

def parseStatement (line : Nat) (tokens : List Token) : Except AssemblyError Statement := do
  let (label, tokens) := splitLabel tokens
  let (prefixes, tokens) ← parsePrefixes tokens
  let body ← parseBody tokens
  if !prefixes.isEmpty && !body.isInstruction then throw .strayPrefixes
  return ⟨line, label, prefixes, body⟩

def parseLine (number : Nat) (line : List Char) : Except AssemblyError Statement :=
  match scan line with
  | .error e => .error (.unreadable (String.ofList e.rest))
  | .ok tokens => parseStatement number tokens

/-- Names the line on which something was refused. -/
def onLine {α : Type} (line : Nat) (r : Except AssemblyError α) : Except Error α :=
  r.mapError (.assembly line)

def parse (source : String) : Except Error (List Statement) :=
  ((Text.lines source).zipIdx 1).mapM fun (line, number) => onLine number (parseLine number line)

end ByteMachine.Assembly
